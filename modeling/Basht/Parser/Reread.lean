import Basht.Parser.SingleQuote

/-!
# Reading quoted text again

`read_token_word` and the single-quote branch of `parse_matched_pair` on a text that
`sh_single_quote` has written, and quote removal on the word they find. All characters
come from `shell_getc`, hence through the line-ending recognizer.

`reparse` is `PST_REPARSE`, which `parse_string_to_word_list` sets.
-/

namespace Basht.Parser

open LineEnding ShellInput

/-! ## The code -/

/-- `parse_matched_pair` between single quotes: the text up to and with the closing one. -/
def matchedQuote (reparse : Bool) : Nat → ShellInput → Option (List UInt8 × ShellInput)
  | 0, _ => none
  | fuel + 1, st =>
    match st.shellGetc false with
    | (none, _) => none
    | (some ch, st') =>
      if ch = CTLESC ∨ ch = CTLNUL then
        (matchedQuote reparse fuel st').map fun r =>
          ((if reparse then [ch] else [CTLESC, ch]) ++ r.1, r.2)
      else if ch = squote then some ([ch], st')
      else (matchedQuote reparse fuel st').map fun r => (ch :: r.1, r.2)

/-- `shellbreak`: the characters that end a word. -/
def shellbreak (c : UInt8) : Bool := c ∈ [32, 9, 10, 40, 41, 60, 62, 59, 38, 124]

/-- Characters at which `read_token_word` starts another construct: double quotes,
backquotes, and `$`, `<` and `>` before what they may introduce. -/
def startsConstruct (c : UInt8) : Bool := c ∈ [34, 96, 36, 60, 62]

/-- `read_token_word` from the character `character` on: the rest of the token, or nothing
where another construct starts. `passNext` is `pass_next_character`. -/
def readTokenWord (reparse : Bool) :
    Nat → Bool → Option UInt8 → ShellInput → Option (List UInt8 × ShellInput)
  | 0, _, _, _ => none
  | _ + 1, _, none, st => some ([], st)
  | fuel + 1, true, some c, st =>
    let next := st.shellGetc true
    (readTokenWord reparse fuel false next.1 next.2).map fun r => (c :: r.1, r.2)
  | fuel + 1, false, some c, st =>
    if c = backslash then
      match st.shellGetc false with
      | (none, st') => some ([c], st')
      | (some peekChar, st') =>
        if peekChar = LF then
          let next := st'.shellGetc true
          readTokenWord reparse fuel false next.1 next.2
        else
          let next := (st'.shellUngetc peekChar).shellGetc false
          (readTokenWord reparse fuel true next.1 next.2).map fun r => (c :: r.1, r.2)
    else if c = squote then
      match matchedQuote reparse (fuel + 1) st with
      | none => none
      | some (ttok, st') =>
        let next := st'.shellGetc true
        (readTokenWord reparse fuel false next.1 next.2).map fun r => (c :: (ttok ++ r.1), r.2)
    else if startsConstruct c then none
    else if shellbreak c then some ([], st.shellUngetc c)
    else
      let next := st.shellGetc true
      (readTokenWord reparse fuel false next.1 next.2).map fun r => (escapeChar c ++ r.1, r.2)

/-- A text that is one word is put into the shell's input, read, and its quotes are
removed. -/
def readBack (reparse : Bool) (ifs : List UInt8) (text : CString) : Option (List UInt8) :=
  let first := (ShellInput.ofString text).shellGetc true
  (readTokenWord reparse (text.bytes.length + 2) false first.1 first.2).bind fun r =>
    expandStringAssignment ifs r.1

/-! ## The characters of a text of one line and more -/

/-- `st` is about to hand out the characters `cs`: the text after what has been taken, and
the newline behind it. -/
def Delivers (string : List UInt8) (st : ShellInput) (cs : List UInt8) : Prop :=
  (∃ done free, Stands string st done free ∧ stillToCome string done ≠ [] ∧
      cs = stillToCome string done ++ [LF]) ∨
    (cs = [LF] ∧ st.lookahead = none ∧ st.line.drop st.index = [LF])

theorem Delivers.lookahead {string cs : List UInt8} {st : ShellInput}
    (h : Delivers string st cs) : st.lookahead = none := by
  rcases h with ⟨done, free, hst, -⟩ | ⟨-, hlook, -⟩
  · cases free with
    | false =>
      obtain ⟨ahead, ending, hin⟩ := hst
      exact hin.lookahead
    | true => exact AtLineEnd.lookahead hst
  · exact hlook

/-- A text that ends with a quote is handed out up to this quote. -/
theorem getLast?_stillToCome (text done : List UInt8)
    (hne : stillToCome (text ++ [squote]) done ≠ []) :
    (stillToCome (text ++ [squote]) done).getLast? = some squote := by
  have hle : done.length ≤ text.length := by
    by_contra hlt
    apply hne
    rw [stillToCome, List.drop_eq_nil_of_le (by simp; omega)]
    rfl
  rw [stillToCome, List.drop_append_of_le_length hle, recognize_append, recognize_cons,
    step_other _ (show squote ≠ CR by decide) (by decide), recognize_nil, List.append_nil]
  exact List.getLast?_concat

section Delivers

variable {text cs : List UInt8} {x y : UInt8} {st : ShellInput} {removeQuotedNewline : Bool}

theorem Delivers.next (removeQuotedNewline : Bool) (h0 : 0 ∉ text ++ [squote])
    (h : Delivers (text ++ [squote]) st (x :: y :: cs))
    (hq : ¬(removeQuotedNewline ∧ x = backslash ∧ y = LF)) :
    ∃ st', st.shellGetc removeQuotedNewline = (some x, st') ∧
      Delivers (text ++ [squote]) st' (y :: cs) := by
  rcases h with ⟨done, free, hst, hne, hcs⟩ | ⟨hcs, -⟩
  swap
  · exact absurd (congrArg List.length hcs) (by simp)
  have hlast := getLast?_stillToCome text done hne
  obtain ⟨x', still, hstill⟩ := List.exists_cons_of_ne_nil hne
  rw [hstill] at hcs hlast
  obtain ⟨rfl, htail⟩ := List.cons.inj hcs
  have hq' : ¬(removeQuotedNewline ∧ x = backslash ∧ still.head? = some LF) := by
    rintro ⟨hrq, hx, hhead⟩
    cases still with
    | nil => cases hhead
    | cons d ds =>
      cases hhead
      exact hq ⟨hrq, hx, (List.cons.inj htail).1⟩
  have hx : ¬(x = backslash ∧ still = []) := by
    rintro ⟨rfl, rfl⟩
    exact absurd hlast (by decide)
  obtain ⟨done', st', hget, hst', hstill'⟩ := shellGetc_stands h0 hx hst
    (by rw [hstill, nextChars_of_ne_nil hq'])
  refine ⟨st', hget, ?_⟩
  by_cases hnil : still = []
  · subst hnil
    obtain rfl : x = squote := Option.some.inj hlast
    obtain ⟨ahead, ending, hin⟩ := hst'
    have hahead := hin.stillToCome_eq
    rw [hstill'] at hahead
    obtain ⟨rfl, hending⟩ := List.append_eq_nil_iff.mp hahead.symm
    rcases hin.ended with ⟨b, rfl, -⟩ | ⟨rfl, hrest⟩
    · cases hending
    have hdone : done' = text ++ [squote] := by
      have hbytes := hin.bytes
      rw [hrest] at hbytes
      simpa using hbytes.symm
    obtain ⟨last, hline, hlf⟩ := hin.line
    have hlf' : last = LF := by
      refine hlf (Or.inr ?_)
      rw [hdone, List.append_nil, List.getLast?_concat]
      decide
    exact Or.inr ⟨htail, hin.lookahead, by rw [hline, hlf']; rfl⟩
  · exact Or.inl ⟨done', _, hst', by rwa [hstill'], by rw [hstill']; exact htail⟩

theorem Delivers.newline (removeQuotedNewline : Bool) (h : Delivers (text ++ [squote]) st [LF]) :
    ∃ st', st.shellGetc removeQuotedNewline = (some LF, st') := by
  rcases h with ⟨done, free, -, hne, hcs⟩ | ⟨-, hlook, hline⟩
  · exact absurd (List.self_eq_append_left.mp hcs) hne
  · have hi : st.line[st.index]? = some LF := by
      have h := congrArg (·[0]?) hline
      simpa using h
    refine ⟨{ st with index := st.index + 1 }, ?_⟩
    rw [shellGetc, hlook]
    simp only [hi, reduceCtorEq, if_false]
    rw [takeChar, hi]
    simp only
    rw [dif_neg (by rintro ⟨h, -⟩; exact absurd h (by decide)), hlook]

end Delivers

theorem shellGetc_shellUngetc {st st' : ShellInput} {c : UInt8} (hlook : st.lookahead = none)
    (h : st.shellGetc false = (some c, st')) (hlf : c ≠ LF) (h0 : c ≠ 0) :
    (st'.shellUngetc c).shellGetc false = (some c, st') := by
  have htake : ∀ (st : ShellInput) (lb : Bool), takeChar false lb st = (some c, st') →
      st.line[st.index]? = some c ∧ st' = { st with index := st.index + 1 } := by
    intro st lb h
    rw [takeChar] at h
    cases hi : st.line[st.index]? with
    | none =>
      rw [hi] at h
      simp only [Prod.mk.injEq] at h
      split_ifs at h
      · exact absurd (Option.some.inj h.1).symm hlf
      · exact absurd h.1 (by simp)
      · exact absurd (Option.some.inj h.1).symm h0
    | some uc =>
      rw [hi] at h
      simp only at h
      rw [dif_neg (by simp)] at h
      obtain ⟨hc, hst⟩ := Prod.mk.inj h
      exact ⟨hc, hst.symm⟩
  obtain ⟨st₀, lb, hlook₀, hst₀⟩ : ∃ st₀ lb, st₀.lookahead = none ∧
      takeChar false lb st₀ = (some c, st') := by
    rw [shellGetc, hlook] at h
    simp only at h
    split at h
    · exact ⟨st.readNextLine false false, _, hlook, h⟩
    · exact ⟨st, _, hlook, h⟩
  obtain ⟨hi, rfl⟩ := htake st₀ lb hst₀
  obtain ⟨hlt, hget⟩ := List.getElem?_eq_some_iff.mp hi
  have hunget : { st₀ with index := st₀.index + 1 }.shellUngetc c = st₀ := by
    rw [shellUngetc, if_pos (Nat.succ_ne_zero _), ← hget]
    simp only [Nat.add_sub_cancel, List.set_getElem_self]
  rw [hunget, shellGetc, hlook₀]
  simp only [hi, reduceCtorEq, if_false]
  rw [takeChar, hi]
  simp [hlook₀]

/-! ## The word that is read -/

/-- The text of a single-quoted string as it stands in the token: unless the input is read
again, `CTLESC` and `CTLNUL` are quoted. -/
def kept (reparse : Bool) (s : List UInt8) : List UInt8 := if reparse then s else escaped s

theorem kept_cons (reparse : Bool) (c : UInt8) (s : List UInt8) :
    kept reparse (c :: s) = (if reparse then [c] else escapeChar c) ++ kept reparse s := by
  cases reparse <;> rfl

theorem readTokenWord_newline (reparse : Bool) (fuel : Nat) (st : ShellInput) :
    readTokenWord reparse (fuel + 1) false (some LF) st = some ([], st.shellUngetc LF) := by
  rw [readTokenWord]
  simp only [show ¬LF = backslash by decide, show ¬LF = squote by decide,
    show startsConstruct LF = false by decide, show shellbreak LF = true by decide, if_false,
    if_true, Bool.false_eq_true]

section Reading

variable {text : List UInt8} (h0 : 0 ∉ text ++ [squote]) (reparse : Bool)
include h0

theorem readTokenWord_escapedQuote {y : UInt8} {cs : List UInt8} {st : ShellInput}
    (h : Delivers (text ++ [squote]) st (squote :: y :: cs)) (fuel : Nat) :
    ∃ st', Delivers (text ++ [squote]) st' (y :: cs) ∧
      readTokenWord reparse (fuel + 2) false (some backslash) st =
        (readTokenWord reparse fuel false (st'.shellGetc true).1 (st'.shellGetc true).2).map
          fun r => (backslash :: squote :: r.1, r.2) := by
  obtain ⟨st', hget, hst'⟩ := h.next false h0 (by simp)
  have hagain := shellGetc_shellUngetc h.lookahead hget (by decide) (by decide)
  refine ⟨st', hst', ?_⟩
  rw [readTokenWord]
  simp only [if_true, hget, show ¬squote = LF by decide, if_false, hagain]
  rw [readTokenWord]
  simp only [Option.map_map]
  rfl

theorem matchedQuote_cons {c y : UInt8} {cs : List UInt8} {st : ShellInput}
    (h : Delivers (text ++ [squote]) st (c :: y :: cs)) (hc : c ≠ squote) (fuel : Nat) :
    ∃ st', Delivers (text ++ [squote]) st' (y :: cs) ∧
      matchedQuote reparse (fuel + 1) st =
        (matchedQuote reparse fuel st').map
          fun r => ((if reparse then [c] else escapeChar c) ++ r.1, r.2) := by
  obtain ⟨st', hget, hst'⟩ := h.next false h0 (by simp)
  refine ⟨st', hst', ?_⟩
  rw [matchedQuote]
  simp only [hget, hc, if_false, escapeChar]
  split
  · cases reparse <;> rfl
  · cases reparse <;> rfl

theorem matchedQuote_squote {y : UInt8} {cs : List UInt8} {st : ShellInput}
    (h : Delivers (text ++ [squote]) st (squote :: y :: cs)) (fuel : Nat) :
    ∃ st', Delivers (text ++ [squote]) st' (y :: cs) ∧
      matchedQuote reparse (fuel + 1) st = some ([squote], st') := by
  obtain ⟨st', hget, hst'⟩ := h.next false h0 (by simp)
  refine ⟨st', hst', ?_⟩
  rw [matchedQuote]
  simp only [hget, show ¬(squote = CTLESC ∨ squote = CTLNUL) by decide, if_false, if_true]

/-- From behind an opening quote, the rest of the word is the rest of the quoted string. -/
theorem readTokenWord_quoted (s : List UInt8) (fuel fuel' : Nat) {st : ShellInput}
    (h : Delivers (text ++ [squote]) st (s.flatMap quoteChar ++ [squote, LF]))
    (hfuel : (s.flatMap quoteChar).length + 2 ≤ fuel)
    (hfuel' : (s.flatMap quoteChar).length + 2 ≤ fuel') :
    ∃ ttok st₁ token st₂, matchedQuote reparse fuel st = some (ttok, st₁) ∧
      readTokenWord reparse fuel' false (st₁.shellGetc true).1 (st₁.shellGetc true).2 =
        some (token, st₂) ∧
      ttok ++ token = (kept reparse s).flatMap quoteChar ++ [squote] := by
  induction s generalizing fuel fuel' st with
  | nil =>
    obtain ⟨fuel, rfl⟩ : ∃ n, fuel = n + 1 := ⟨fuel - 1, by omega⟩
    obtain ⟨fuel', rfl⟩ : ∃ n, fuel' = n + 1 := ⟨fuel' - 1, by omega⟩
    obtain ⟨st₁, hst₁, hquote⟩ := matchedQuote_squote h0 reparse h fuel
    obtain ⟨st₂, hget⟩ := hst₁.newline true
    refine ⟨[squote], st₁, [], st₂.shellUngetc LF, hquote, ?_, ?_⟩
    · rw [hget]
      exact readTokenWord_newline reparse fuel' st₂
    · cases reparse <;> rfl
  | cons c s ih =>
    obtain ⟨y, cs, hcs⟩ : ∃ y cs, s.flatMap quoteChar ++ [squote, LF] = y :: cs := by
      cases hs : s.flatMap quoteChar with
      | nil => exact ⟨_, _, rfl⟩
      | cons d ds => exact ⟨_, _, rfl⟩
    rw [List.flatMap_cons, quoteChar] at h hfuel hfuel'
    split at h
    · rename_i hc
      subst hc
      simp only [List.cons_append, List.nil_append, if_true, List.length_cons] at h hfuel hfuel'
      rw [hcs] at h
      obtain ⟨fuel, rfl⟩ : ∃ n, fuel = n + 1 := ⟨fuel - 1, by omega⟩
      obtain ⟨fuel', rfl⟩ : ∃ n, fuel' = n + 3 := ⟨fuel' - 3, by omega⟩
      -- the quote closes, a quote follows a backslash, and the next one opens again
      obtain ⟨st₁, hst₁, hquote⟩ := matchedQuote_squote h0 reparse h fuel
      obtain ⟨st₂, hget, hst₂⟩ := hst₁.next true h0
        (fun hq => absurd hq.2.2 (by decide))
      obtain ⟨st₃, hst₃, hescaped⟩ := readTokenWord_escapedQuote h0 reparse hst₂ (fuel' + 1)
      obtain ⟨st₄, hget', hst₄⟩ := hst₃.next true h0
        (fun hq => absurd hq.2.1 (by decide))
      rw [← hcs] at hst₄
      obtain ⟨ttok, st₅, token, st₆, hquote', hword, hall⟩ :=
        ih (fuel' + 1) fuel' hst₄ (by omega) (by omega)
      refine ⟨[squote], st₁, backslash :: squote :: squote :: (ttok ++ token), st₆, hquote, ?_, ?_⟩
      · rw [hget, hescaped, hget', readTokenWord]
        simp only [show ¬squote = backslash by decide, if_false, if_true, hquote', hword,
          Option.map_some]
      · have hkept : (kept reparse (squote :: s)).flatMap quoteChar =
            [squote, backslash, squote, squote] ++ (kept reparse s).flatMap quoteChar := by
          rw [kept_cons, List.flatMap_append]
          cases reparse <;> rfl
        rw [hkept, hall]
        rfl
    · rename_i hc
      simp only [hc, if_false, List.cons_append, List.nil_append, List.length_cons]
        at h hfuel hfuel'
      rw [hcs] at h
      obtain ⟨fuel, rfl⟩ : ∃ n, fuel = n + 1 := ⟨fuel - 1, by omega⟩
      obtain ⟨st', hst', hchar⟩ := matchedQuote_cons h0 reparse h hc fuel
      rw [← hcs] at hst'
      obtain ⟨ttok, st₁, token, st₂, hquote, hword, hall⟩ :=
        ih fuel fuel' hst' (by omega) (by omega)
      refine ⟨(if reparse then [c] else escapeChar c) ++ ttok, st₁, token, st₂, ?_, hword, ?_⟩
      · rw [hchar, hquote, Option.map_some]
      · have hplain : squote ∉ (if reparse then [c] else escapeChar c) := by
          intro hm
          split at hm
          · exact hc (List.mem_singleton.mp hm).symm
          · exact hc (mem_escapeChar.mp hm)
        rw [kept_cons, List.flatMap_append, flatMap_quoteChar hplain, List.append_assoc,
          List.append_assoc, hall]

end Reading

theorem readTokenWord_singleQuoted (reparse : Bool) {text u : List UInt8}
    (h0 : 0 ∉ text ++ [squote])
    (hrec : recognize LeState.init (text ++ [squote]) = singleQuoted u) :
    ∃ st, readTokenWord reparse ((text ++ [squote]).length + 2) false
        ((ShellInput.ofString ⟨text ++ [squote], h0⟩).shellGetc true).1
        ((ShellInput.ofString ⟨text ++ [squote], h0⟩).shellGetc true).2 =
      some (singleQuoted (kept reparse u), st) := by
  have hlen := length_recognize_le LeState.init (text ++ [squote])
  rw [hrec] at hlen
  have hstart : Delivers (text ++ [squote]) (ShellInput.ofString ⟨text ++ [squote], h0⟩)
      (singleQuoted u ++ [LF]) := by
    refine Or.inl ⟨[], true, ⟨rfl, rfl, rfl, rfl, rfl⟩, ?_, ?_⟩
    · change recognize LeState.init (text ++ [squote]) ≠ []
      rw [hrec, singleQuoted]
      split <;> simp
    · exact congrArg (· ++ [LF]) hrec.symm
  have hkept : kept reparse u = [squote] ↔ u = [squote] := by
    cases reparse with
    | true => rfl
    | false =>
      constructor
      · intro h
        rw [← dequoteEscapes_escaped false u]
        exact congrArg (dequoteEscapes false) h
      · rintro rfl
        rfl
  by_cases hu : u = [squote]
  · rw [singleQuoted, if_pos hu] at hstart hlen
    obtain ⟨st₁, hget, hst₁⟩ := hstart.next true h0
      (fun hq => absurd hq.2.2 (by decide))
    obtain ⟨st₂, hst₂, hescaped⟩ := readTokenWord_escapedQuote h0 reparse hst₁
      (text ++ [squote]).length
    obtain ⟨st₃, hget'⟩ := hst₂.newline true
    obtain ⟨n, hn⟩ : ∃ n, (text ++ [squote]).length = n + 1 := ⟨text.length, by simp⟩
    refine ⟨st₃.shellUngetc LF, ?_⟩
    rw [hget, hescaped, hget', hn, readTokenWord_newline, Option.map_some,
      singleQuoted, if_pos (hkept.mpr hu)]
  · rw [singleQuoted, if_neg hu] at hstart hlen
    have hstream : squote :: (u.flatMap quoteChar ++ [squote]) ++ [LF] =
        squote :: (u.flatMap quoteChar ++ [squote, LF]) := by simp
    rw [hstream] at hstart
    obtain ⟨y, cs, hcs⟩ := List.exists_cons_of_ne_nil
      (show u.flatMap quoteChar ++ [squote, LF] ≠ [] by simp)
    rw [hcs] at hstart
    obtain ⟨st₁, hget, hst₁⟩ := hstart.next true h0
      (fun hq => absurd hq.2.1 (by decide))
    rw [← hcs] at hst₁
    simp only [List.length_cons, List.length_append, List.length_nil] at hlen
    obtain ⟨ttok, st₂, token, st₃, hquote, hword, hall⟩ :=
      readTokenWord_quoted h0 reparse u ((text ++ [squote]).length + 1 + 1)
        ((text ++ [squote]).length + 1) hst₁
        (by simp only [List.length_append, List.length_cons, List.length_nil]; omega)
        (by simp only [List.length_append, List.length_cons, List.length_nil]; omega)
    refine ⟨st₃, ?_⟩
    rw [hget, readTokenWord]
    simp only [show ¬squote = backslash by decide, if_false, if_true, hquote, hword,
      Option.map_some]
    rw [hall, singleQuoted, if_neg fun h => hu (hkept.mp h)]

/-! ## Through the recognizer -/

theorem recognize_flatMap {f : UInt8 → List UInt8} (hcr : f CR = [CR]) (hlf : f LF = [LF])
    (hplain : ∀ c, c ≠ CR → c ≠ LF → f c ≠ [] ∧ ∀ d ∈ f c, d ≠ CR ∧ d ≠ LF) (le : LeState)
    (s : List UInt8) : recognize le (s.flatMap f) = (recognize le s).flatMap f ∧
      recognizer.final le (s.flatMap f) = recognizer.final le s := by
  induction s generalizing le with
  | nil => exact ⟨rfl, rfl⟩
  | cons c s ih =>
    obtain ⟨hrec, hfin⟩ := ih (recognizer.step le c).1
    have hout : recognize le (f c) = (recognizer.step le c).2.flatMap f ∧
        recognizer.final le (f c) = (recognizer.step le c).1 := by
      by_cases hend : c = CR ∨ c = LF
      · have hc : f c = [c] := by rcases hend with rfl | rfl <;> assumption
        rw [hc, recognize_cons, Transducer.final_cons, recognize_nil, List.append_nil]
        refine ⟨?_, rfl⟩
        by_cases hnil : (recognizer.step le c).2 = []
        · rw [hnil]
          rfl
        · rw [step_ending hend hnil]
          simp [hlf]
      · obtain ⟨h1, h2⟩ := not_or.mp hend
        obtain ⟨hne, hfc⟩ := hplain c h1 h2
        obtain ⟨hfin', hrec'⟩ := recognizer_plain hfc hne le
        rw [hrec', hfin', step_other le h1 h2]
        exact ⟨by simp, rfl⟩
    rw [List.flatMap_cons, recognize_append, recognize_cons, Transducer.final_append,
      Transducer.final_cons, hout.1, hout.2, hrec, hfin, List.flatMap_append]
    exact ⟨rfl, rfl⟩

theorem recognize_escaped (s : List UInt8) :
    recognize LeState.init (escaped s) = escaped (recognize LeState.init s) := by
  refine (recognize_flatMap (by decide) (by decide) (fun c h1 h2 => ?_) _ s).1
  unfold escapeChar
  split
  · exact ⟨by simp, by simp [h1, h2]; decide⟩
  · exact ⟨by simp, by simp [h1, h2]⟩

theorem recognize_singleQuoted (s : List UInt8) :
    recognize LeState.init (singleQuoted s) = singleQuoted (recognize LeState.init s) := by
  by_cases hs : s = [squote]
  · subst hs
    decide
  · have hne : recognize LeState.init s ≠ [squote] := by
      intro h
      cases s with
      | nil => cases h
      | cons c s =>
        obtain ⟨hc, hrest⟩ : (recognizer.step LeState.init c).2 = [squote] ∧
            recognize (recognizer.step LeState.init c).1 s = [] := by
          rw [recognize_cons] at h
          rcases List.append_eq_singleton_iff.mp h with ⟨hnil, -⟩ | hc
          · exact absurd hnil (step_init_ne_nil c)
          · exact hc
        by_cases hend : c = CR ∨ c = LF
        · rw [step_ending hend (step_init_ne_nil c)] at hc
          exact absurd hc (by decide)
        · obtain ⟨h1, h2⟩ := not_or.mp hend
          rw [step_other _ h1 h2] at hc hrest
          rw [List.singleton_inj.mp hc, eq_nil_of_recognize_init hrest] at hs
          exact hs rfl
    have hbody := (recognize_flatMap (f := quoteChar) (by decide) (by decide) (fun c h1 h2 => by
      unfold quoteChar
      split
      · exact ⟨by simp, by simp [squote, backslash, CR, LF]⟩
      · exact ⟨by simp, by simp [h1, h2]⟩) LeState.init s).1
    rw [singleQuoted, if_neg hs, singleQuoted, if_neg hne, recognize_cons,
      step_other _ (show squote ≠ CR by decide) (by decide), recognize_append, hbody,
      recognize_cons, step_other _ (show squote ≠ CR by decide) (by decide)]
    rfl

theorem singleQuoted_eq_concat (s : List UInt8) : ∃ text, singleQuoted s = text ++ [squote] := by
  unfold singleQuoted
  split
  · exact ⟨[backslash], rfl⟩
  · exact ⟨squote :: s.flatMap quoteChar, rfl⟩

/-- A quoted string comes back as the recognizer lets it through. -/
theorem readBack_shSingleQuote (reparse : Bool) (ifs : List UInt8) (s : CString) :
    readBack reparse ifs (shSingleQuote s) =
      expandStringAssignment ifs (singleQuoted (kept reparse (recognize LeState.init s.bytes))) := by
  obtain ⟨text, htext⟩ := singleQuoted_eq_concat s.bytes
  have h0 : 0 ∉ text ++ [squote] := htext ▸ zero_notMem_singleQuoted s.noNul
  have hs : shSingleQuote s = ⟨text ++ [squote], h0⟩ := by
    simp only [shSingleQuote, htext]
  obtain ⟨st, hst⟩ := readTokenWord_singleQuoted reparse h0
    (by rw [← htext, recognize_singleQuoted])
  rw [readBack, hs]
  simp only [hst, Option.bind_some]

/-- A string comes back, or another one does in which every line ending is a newline. -/
theorem readBack_eq_recognize (ifs : List UInt8) (s : CString) :
    readBack false ifs (shSingleQuote s) = some (recognize LeState.init s.bytes) ∧
      readBack true ifs (shSingleQuote (quoteEscapes s)) = some (recognize LeState.init s.bytes) := by
  rw [readBack_shSingleQuote, readBack_shSingleQuote]
  refine ⟨expandStringAssignment_singleQuoted ifs _, ?_⟩
  change expandStringAssignment ifs (singleQuoted (recognize _ (escaped s.bytes))) = _
  rw [recognize_escaped, expandStringAssignment_singleQuoted]

/-- **Quoted text.** A string in single quotes, and one whose `CTLESC` are quoted when the
input is parsed again, reads back as itself iff it contains no CR. -/
theorem readBack_eq_iff (ifs : List UInt8) (s : CString) :
    (readBack false ifs (shSingleQuote s) = some s.bytes ↔ CR ∉ s.bytes) ∧
      (readBack true ifs (shSingleQuote (quoteEscapes s)) = some s.bytes ↔ CR ∉ s.bytes) := by
  have hiff : some (recognize LeState.init s.bytes) = some s.bytes ↔ CR ∉ s.bytes := by
    rw [Option.some_inj]
    constructor
    · intro h
      rw [← h]
      exact cr_notMem_recognize _ _
    · exact fun h => (recognize_noCr h _ rfl).1
  obtain ⟨hplain, hescaped⟩ := readBack_eq_recognize ifs s
  rw [hplain, hescaped]
  exact ⟨hiff, hiff⟩

/-- `$'\r'` is a newline when it is read again. -/
theorem readBack_cr :
    readBack false [32, 9, LF] (shSingleQuote ⟨[CR], by decide⟩) = some [LF] ∧ [LF] ≠ [CR] :=
  ⟨(readBack_eq_recognize _ _).1, by decide⟩

end Basht.Parser
