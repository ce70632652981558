import Basht.Parser.ShellGetc

/-!
# Single quotes

* `shSingleQuote`, the text the shell writes for a string that is to be read again;
* the quoting characters of the expansion code, `CTLESC` and `CTLNUL`, and the functions
  of `subst.c` that add and remove them;
* `expandStringAssignment`, what quote removal makes of a word.

`expandStringAssignment_singleQuoted` says that quote removal takes away what the first
two add.
-/

namespace Basht.Parser

open LineEnding

/-- `'\''`. -/
abbrev squote : UInt8 := 39

/-- `CTLESC`, the character that quotes the next one in a word. -/
abbrev CTLESC : UInt8 := 1

/-- `CTLNUL`, which stands for a quoted null string. -/
abbrev CTLNUL : UInt8 := 127

/-! ## Writing -/

/-- What `sh_single_quote` writes for one character between its quotes. -/
def quoteChar (c : UInt8) : List UInt8 :=
  if c = squote then [squote, backslash, squote, squote] else [c]

/-- The characters `sh_single_quote` writes. -/
def singleQuoted (s : List UInt8) : List UInt8 :=
  if s = [squote] then [backslash, squote]
  else squote :: (s.flatMap quoteChar ++ [squote])

/-- `CTLESC` and `CTLNUL` quoted with `CTLESC`. -/
def escapeChar (c : UInt8) : List UInt8 := if c = CTLESC ∨ c = CTLNUL then [CTLESC, c] else [c]

/-- The characters of `s` as `ansicstr` decodes them for the parser. -/
def escaped (s : List UInt8) : List UInt8 := s.flatMap escapeChar

theorem zero_notMem_flatMap {f : UInt8 → List UInt8} (hf : ∀ c, c ≠ 0 → 0 ∉ f c) {s : List UInt8}
    (h : 0 ∉ s) : 0 ∉ s.flatMap f := by
  intro hm
  obtain ⟨c, hc, h0⟩ := List.mem_flatMap.mp hm
  exact hf c (fun he => h (he ▸ hc)) h0

theorem zero_notMem_singleQuoted {s : List UInt8} (h : 0 ∉ s) : 0 ∉ singleQuoted s := by
  have hbody : 0 ∉ s.flatMap quoteChar := by
    refine zero_notMem_flatMap (fun c hc => ?_) h
    unfold quoteChar
    split
    · decide
    · simpa using hc.symm
  unfold singleQuoted
  split
  · decide
  · have hq : ¬0 = squote := by decide
    simp [hbody, hq]

/-- `sh_single_quote`. -/
def shSingleQuote (s : CString) : CString := ⟨singleQuoted s.bytes, zero_notMem_singleQuoted s.noNul⟩

/-- The string with its `CTLESC` and `CTLNUL` quoted, as the parser keeps the decoded text
of `$'...'`. -/
def quoteEscapes (s : CString) : CString where
  bytes := escaped s.bytes
  noNul := by
    refine zero_notMem_flatMap (fun c hc => ?_) s.noNul
    unfold escapeChar
    split
    · have hq : ¬0 = CTLESC := by decide
      simp [hc.symm, hq]
    · simpa using hc.symm

/-! ## Reading: quote removal -/

/-- `dequote_escapes`; `quoteSpaces` says that `IFS` is null. -/
def dequoteEscapes (quoteSpaces : Bool) : List UInt8 → List UInt8
  | c :: d :: s =>
    if c = CTLESC ∧ (d = CTLESC ∨ d = CTLNUL ∨ (quoteSpaces ∧ d = 32)) then
      d :: dequoteEscapes quoteSpaces s
    else c :: dequoteEscapes quoteSpaces (d :: s)
  | s => s

/-- `quote_string` on a string that is not empty. -/
def quoteString (s : List UInt8) : List UInt8 := s.flatMap fun c => [CTLESC, c]

/-- `remove_quoted_nulls`. -/
def removeQuotedNulls : List UInt8 → List UInt8
  | [] => []
  | [c] => if c = CTLNUL then [] else [c]
  | c :: d :: s =>
    if c = CTLESC then c :: d :: removeQuotedNulls s
    else if c = CTLNUL then removeQuotedNulls (d :: s)
    else c :: removeQuotedNulls (d :: s)

/-- The loop of `dequote_string`. -/
def dropCtlesc : List UInt8 → List UInt8
  | c :: d :: s => if c = CTLESC then d :: dropCtlesc s else c :: dropCtlesc (d :: s)
  | s => s

/-- `dequote_string`. -/
def dequoteString (s : List UInt8) : List UInt8 := if s = [CTLNUL] then [] else dropCtlesc s

/-- The characters at which `expand_word_internal` starts something else than quote
removal: `$`, double quotes, backquotes, process substitution and tilde expansion. -/
def startsExpansion (c : UInt8) : Bool := c ∈ [36, 34, 96, 60, 62, 126]

/-- `expand_word_internal` on the value of an assignment, as far as quote removal goes:
`none` where another expansion starts. `ifs` is the value of `IFS`. -/
def expandWord (ifs : List UInt8) : List UInt8 → Option (List UInt8)
  | [] => some []
  | c :: s =>
    if c = CTLESC then
      match s with
      | [] => some [CTLESC]
      | d :: s => (expandWord ifs s).map ([CTLESC, d] ++ ·)
    else if c = squote then
      let temp := s.takeWhile (· ≠ squote)
      let quoted := if temp = [] then [CTLNUL] else quoteString (dequoteEscapes ifs.isEmpty temp)
      (expandWord ifs ((s.dropWhile (· ≠ squote)).drop 1)).map (quoted ++ ·)
    else if c = backslash then
      match s with
      | [] => some [CTLNUL]
      | d :: s =>
        if d = LF then expandWord ifs s
        else (expandWord ifs s).map ([CTLESC, d] ++ ·)
    else if startsExpansion c then none
    else (expandWord ifs s).map ((if c ∈ ifs then [CTLESC, c] else [c]) ++ ·)
termination_by s => s.length
decreasing_by
  all_goals simp only [List.length_cons, List.length_drop]
  all_goals try omega
  have hle := (List.dropWhile_suffix (fun x => decide (x ≠ squote)) (l := s)).length_le
  omega

/-- `list_string` without separators. -/
def listString (s : List UInt8) : List UInt8 := if s = [CTLNUL] then s else removeQuotedNulls s

/-- `expand_string_assignment`. -/
def expandStringAssignment (ifs word : List UInt8) : Option (List UInt8) :=
  (expandWord ifs word).map fun istring =>
    dequoteString (removeQuotedNulls (listString istring))

/-! ## What is quoted comes back -/

/-- A word as quote removal builds it: quoted characters, and quoted nulls. -/
def pieces (s : List (Option UInt8)) : List UInt8 :=
  s.flatMap fun
    | none => [CTLNUL]
    | some c => [CTLESC, c]

@[simp] theorem pieces_nil : pieces [] = [] := rfl

@[simp] theorem pieces_none (s : List (Option UInt8)) : pieces (none :: s) = CTLNUL :: pieces s := rfl

@[simp] theorem pieces_some (c : UInt8) (s : List (Option UInt8)) :
    pieces (some c :: s) = CTLESC :: c :: pieces s := rfl

theorem quoteString_eq (s : List UInt8) : quoteString s = pieces (s.map some) := by
  induction s with
  | nil => rfl
  | cons c s ih => exact congrArg (CTLESC :: c :: ·) ih

theorem removeQuotedNulls_pieces (s : List (Option UInt8)) :
    removeQuotedNulls (pieces s) = pieces (s.filter Option.isSome) := by
  induction s with
  | nil => rfl
  | cons p s ih =>
    cases p with
    | some c =>
      rw [pieces_some, removeQuotedNulls, if_pos rfl, ih]
      rfl
    | none =>
      rw [pieces_none]
      cases hs : pieces s with
      | nil =>
        rw [hs] at ih
        exact ih
      | cons d ds =>
        rw [removeQuotedNulls, if_neg (by decide), if_pos rfl, ← hs]
        exact ih

theorem dropCtlesc_pieces (s : List UInt8) : dropCtlesc (pieces (s.map some)) = s := by
  induction s with
  | nil => rfl
  | cons c s ih => rw [List.map_cons, pieces_some, dropCtlesc, if_pos rfl, ih]

theorem dequoteString_pieces (s : List (Option UInt8)) :
    dequoteString (removeQuotedNulls (listString (pieces s))) = s.filterMap id := by
  have hsome : s.filter Option.isSome = (s.filterMap id).map some := by
    induction s with
    | nil => rfl
    | cons p s ih => cases p <;> simp [ih]
  have hkeep : ((s.filterMap id).map some).filter Option.isSome = (s.filterMap id).map some := by
    simp
  have hlist : removeQuotedNulls (listString (pieces s)) = pieces ((s.filterMap id).map some) := by
    unfold listString
    split
    · rw [removeQuotedNulls_pieces, hsome]
    · rw [removeQuotedNulls_pieces, hsome, removeQuotedNulls_pieces, hkeep]
  rw [hlist, dequoteString, if_neg, dropCtlesc_pieces]
  cases (s.filterMap id) <;> simp

theorem dequoteEscapes_escaped (quoteSpaces : Bool) (s : List UInt8) :
    dequoteEscapes quoteSpaces (escaped s) = s := by
  induction s with
  | nil => rfl
  | cons c s ih =>
    change dequoteEscapes quoteSpaces (escapeChar c ++ escaped s) = c :: s
    unfold escapeChar
    split
    · rename_i hc
      rw [List.cons_append, List.singleton_append, dequoteEscapes, if_pos, ih]
      exact ⟨rfl, hc.imp_right Or.inl⟩
    · rename_i hc
      have hne : c ≠ CTLESC := fun he => hc (Or.inl he)
      rw [List.singleton_append]
      cases hs : escaped s with
      | nil =>
        rw [hs] at ih
        exact congrArg (c :: ·) ih
      | cons d ds => rw [dequoteEscapes, if_neg fun h => hne h.1, ← hs, ih]

theorem mem_escapeChar {c : UInt8} : squote ∈ escapeChar c ↔ c = squote := by
  unfold escapeChar
  split
  · rename_i hc
    rcases hc with rfl | rfl <;> decide
  · rw [List.mem_singleton]
    exact eq_comm

theorem squote_mem_escaped {s : List UInt8} : squote ∈ escaped s ↔ squote ∈ s := by
  rw [escaped, List.mem_flatMap]
  constructor
  · rintro ⟨c, hc, h⟩
    exact mem_escapeChar.mp h ▸ hc
  · exact fun h => ⟨squote, h, mem_escapeChar.mpr rfl⟩

theorem expandWord_quoted (ifs : List UInt8) {temp : List UInt8} (h : squote ∉ temp)
    (rest : List UInt8) :
    expandWord ifs (squote :: (temp ++ squote :: rest)) =
      (expandWord ifs rest).map
        ((if temp = [] then [CTLNUL] else quoteString (dequoteEscapes ifs.isEmpty temp)) ++ ·) := by
  have hne : ∀ c ∈ temp, decide (c ≠ squote) = true :=
    fun c hc => decide_eq_true fun he => h (he ▸ hc)
  have htake : (temp ++ squote :: rest).takeWhile (· ≠ squote) = temp := by
    rw [List.takeWhile_append_of_pos hne]
    simp
  have hdrop : (temp ++ squote :: rest).dropWhile (· ≠ squote) = squote :: rest := by
    rw [List.dropWhile_append_of_pos hne]
    simp
  rw [expandWord.eq_def]
  simp only [show ¬squote = CTLESC by decide, if_false, if_true, htake, hdrop, List.drop_one,
    List.tail_cons]

theorem expandWord_backslash (ifs : List UInt8) {d : UInt8} (hd : d ≠ LF) (s : List UInt8) :
    expandWord ifs (backslash :: d :: s) = (expandWord ifs s).map ([CTLESC, d] ++ ·) := by
  rw [expandWord.eq_def]
  simp only [show ¬backslash = CTLESC by decide, show ¬backslash = squote by decide, hd, if_false,
    if_true]

theorem flatMap_quoteChar {s : List UInt8} (h : squote ∉ s) : s.flatMap quoteChar = s := by
  induction s with
  | nil => rfl
  | cons c s ih =>
    have hc : c ≠ squote := fun he => h (he ▸ List.mem_cons_self)
    rw [List.flatMap_cons, quoteChar, if_neg hc, ih fun hm => h (List.mem_cons_of_mem _ hm)]
    rfl

theorem expandWord_quotes (ifs s : List UInt8) :
    ∃ p, expandWord ifs (squote :: ((escaped s).flatMap quoteChar ++ [squote])) = some (pieces p) ∧
      p.filterMap id = s := by
  induction hn : s.length using Nat.strongRecOn generalizing s with
  | ind n ih =>
  have hseg : ∀ seg : List UInt8, squote ∉ seg → ∀ rest,
      expandWord ifs (squote :: ((escaped seg).flatMap quoteChar ++ squote :: rest)) =
        (expandWord ifs rest).map
          (pieces (if seg = [] then [none] else seg.map some) ++ ·) := by
    intro seg hm rest
    have hm' : squote ∉ escaped seg := fun h => hm (squote_mem_escaped.mp h)
    have hnil : escaped seg = [] ↔ seg = [] := by
      constructor
      · intro h
        rw [← dequoteEscapes_escaped false seg, h]
        rfl
      · rintro rfl
        rfl
    rw [flatMap_quoteChar hm', expandWord_quoted ifs hm', dequoteEscapes_escaped, quoteString_eq]
    simp only [hnil]
    split <;> rfl
  have hid : ∀ seg : List UInt8,
      (if seg = [] then [none] else seg.map some).filterMap id = seg := by
    intro seg
    split
    · rename_i h
      rw [h]
      rfl
    · simp
  by_cases hmem : squote ∈ s
  · obtain ⟨seg, s, rfl, hm⟩ := List.eq_append_cons_of_mem hmem
    obtain ⟨p, hp, hps⟩ := ih s.length (by simp [← hn]; omega) s rfl
    refine ⟨(if seg = [] then [none] else seg.map some) ++ some squote :: p, ?_, ?_⟩
    · have hbody : (escaped (seg ++ squote :: s)).flatMap quoteChar ++ [squote] =
          (escaped seg).flatMap quoteChar ++ squote :: (backslash :: squote :: squote ::
            ((escaped s).flatMap quoteChar ++ [squote])) := by
        have hq : escapeChar squote = [squote] := by decide
        have hq' : quoteChar squote = [squote, backslash, squote, squote] := by decide
        simp only [escaped, List.flatMap_append, List.flatMap_cons, hq, hq',
          List.append_assoc, List.cons_append, List.nil_append]
      rw [hbody, hseg seg hm, expandWord_backslash ifs (by decide), hp]
      simp [pieces]
    · rw [List.filterMap_append, hid, List.filterMap_cons, hps]
      rfl
  · refine ⟨_, ?_, hid s⟩
    rw [hseg s hmem, expandWord]
    simp

/-- Quote removal gives the string that was escaped and put in single quotes. -/
theorem expandStringAssignment_singleQuoted (ifs s : List UInt8) :
    expandStringAssignment ifs (singleQuoted (escaped s)) = some s := by
  by_cases hs : escaped s = [squote]
  · have hs' : s = [squote] := by
      rw [← dequoteEscapes_escaped false s, hs]
      rfl
    subst hs'
    rw [hs, singleQuoted, if_pos rfl, expandStringAssignment,
      expandWord_backslash ifs (by decide), expandWord]
    rfl
  · obtain ⟨p, hp, hps⟩ := expandWord_quotes ifs s
    rw [singleQuoted, if_neg hs, expandStringAssignment, hp, Option.map_some,
      dequoteString_pieces, hps]

end Basht.Parser
