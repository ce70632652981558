import Basht.Words.Quote

/-!
# Word splitting

`list_string` and `string_extract_verbatim` of `subst.c`, for `separators` that are the value
of `IFS` (`setifs` keeps a map of its bytes). A word goes up to a character that is one of
the separators; the list of wide characters they are compared with is made by `mbstowcs`, and
if that fails it is a single wide character without an end. What lies between two words is
skipped byte by byte. Bytes are signed `char`s, so that `mbschr` searches a byte from 128 on
with `strchr`.
-/

namespace Basht.Words

variable (K : Coding)

/-- The space characters of both locales. -/
def isspace (c : Nat) : Bool := c = 32 ∨ (9 ≤ c ∧ c ≤ 13)

/-- `spctabnl`. -/
def spctabnl (c : Nat) : Bool := c = 32 ∨ c = 9 ∨ c = 10

/-- `isifs`. -/
def isifs (ifs : List Nat) (c : Nat) : Bool := c ∈ ifs

/-- `issep`. -/
def issep (separators : List Nat) (c : Nat) : Bool :=
  match separators with
  | [] => false
  | [d] => c = d
  | _ => isifs separators c

/-- `sh_style_split`. -/
def shStyleSplit (separators : List Nat) : Bool := separators = [32, 9, 10]

/-- `ifs_whitespace`. -/
def ifsWhitespace (c : Nat) : Bool := isspace c

/-- `ifs_whitesep`. -/
def ifsWhitesep (separators : List Nat) (c : Nat) : Bool :=
  if shStyleSplit separators then spctabnl c else ifsWhitespace c

/-- `mbstowcs`: the characters of `s`, if it consists of characters. -/
def mbstowcs (s : List Nat) : Option (List (List Nat)) :=
  if (K.units s).all fun u => K.len u ≠ 0 then some (K.units s) else none

/-- `wcschr (wcharlist, wc)`; it has no result if it runs behind the end of `wcharlist`. -/
def wcschr (charlist wc : List Nat) : Option Bool :=
  match mbstowcs K charlist with
  | some ws => some (wc ∈ ws)
  | none =>
    match K.units charlist with
    | w :: _ => if K.len w ≠ 0 ∧ wc = w then some true else none
    | [] => none

/-- Does a word end before the character `u`? -/
def isSeparator (charlist u : List Nat) : Option Bool :=
  if K.len u > 1 then wcschr K charlist u else some (u.headD 0 ∈ charlist)

/-- The loop of `string_extract_verbatim`: the characters of the word, and those behind it. -/
def extractUnits (charlist : List Nat) (noctlesc noescctlnul : Bool) :
    List (List Nat) → Option (List (List Nat) × List (List Nat))
  | [] => some ([], [])
  | [u] =>
    if noctlesc = false ∧ u = [CTLESC] then some ([u], [])
    else (isSeparator K charlist u).map fun stop => if stop then ([], [u]) else ([u], [])
  | u :: v :: us =>
    if u = [CTLESC] ∧ (noctlesc = false ∨ (noescctlnul = false ∧ v = [CTLNUL])) then
      (extractUnits charlist noctlesc noescctlnul us).map fun (w, r) => (u :: v :: w, r)
    else do
      let stop ← isSeparator K charlist u
      if stop then some ([], u :: v :: us)
      else
        (extractUnits charlist noctlesc noescctlnul (v :: us)).map fun (w, r) => (u :: w, r)

/-- `string_extract_verbatim`, from the current position on: the word, and the rest. -/
def stringExtractVerbatim (charlist : List Nat) (noctlesc noescctlnul : Bool) (string : List Nat) :
    Option (List Nat × List Nat) :=
  if charlist = [] then some (string, [])
  else
    (extractUnits K charlist noctlesc noescctlnul (K.units string)).map fun (w, r) =>
      (w.flatten, r.flatten)

/-- A `WORD_DESC`, with the flags that `list_string` sets. -/
structure Word where
  word : List Nat
  quoted : Bool
  hasQuotedNull : Bool
  sawQuotedNull : Bool
  deriving DecidableEq

/-- A quoted null argument. -/
def Word.null : Word := ⟨[CTLNUL], true, true, false⟩

/-- What `list_string` makes of the text `currentWord` before `rest`. -/
def makeWords (separators : List Nat) (quoted : Bool) (currentWord rest : List Nat) : List Word :=
  if quotedNull currentWord then [Word.null]
  else if currentWord ≠ [] then
    let word := removeQuotedNulls K currentWord
    [⟨word, quoted, false, word = []⟩]
  else if shStyleSplit separators = false ∧ ifsWhitespace (rest.headD 0) = false then [Word.null]
  else []

/-- A separator that is not white space, behind one that is, is part of the same delimiter. -/
def skipAdjacent (separators : List Nat) (whitesep : Bool) : List Nat → List Nat
  | [] => []
  | d :: after =>
    if whitesep && issep separators d && !ifsWhitesep separators d then
      after.dropWhile fun c => ifsWhitesep separators c && isifs separators c
    else d :: after

/-- `list_string` moves past the separator and the white space around it. -/
def skipSeparator (separators string : List Nat) : List Nat :=
  match string with
  | [] => []
  | c :: _ =>
    let whitesep := ifsWhitesep separators c
    let rest := string.drop (K.step string)
    skipAdjacent separators whitesep
      (rest.dropWhile fun c => ifsWhitesep separators c && issep separators c)

/-- The main loop of `list_string`; each round takes a byte at least. -/
def listLoop (separators : List Nat) (quoted : Bool) : Nat → List Nat → Option (List Word)
  | 0, _ => some []
  | _ + 1, [] => some []
  | fuel + 1, c :: s => do
    let noctlesc := decide (CTLESC ∈ separators)
    let noescctlnul := decide (CTLNUL ∈ separators)
    let (currentWord, rest) ← stringExtractVerbatim K separators noctlesc noescctlnul (c :: s)
    let words := makeWords K separators quoted currentWord rest
    let more ← listLoop separators quoted fuel (skipSeparator K separators rest)
    some (words ++ more)

/-- `list_string`; `quoted` says that `Q_DOUBLE_QUOTES` or `Q_HERE_DOCUMENT` is set. -/
def listString (string separators : List Nat) (quoted : Bool) : Option (List Word) :=
  let string :=
    if quoted = false then string.dropWhile fun c => issep separators c && ifsWhitespace c
    else string
  listLoop K separators quoted string.length string

/-! ## Extraction -/

variable {K} {ifs u r : List Nat} {us vs : List (List Nat)}

theorem issep_eq (separators : List Nat) (c : Nat) :
    issep separators c = decide (c ∈ separators) := by
  match separators with
  | [] => rfl
  | [d] => simp [issep]
  | _ :: _ :: _ => rfl

/-- The characters of the text that no `CTLESC` quotes. -/
def unquoted : List (List Nat) → List (List Nat)
  | [] => []
  | [u] => if u = [CTLESC] then [] else [u]
  | u :: v :: us => if u = [CTLESC] then unquoted us else u :: unquoted (v :: us)

/-- A word goes up to the first separator that is not quoted. -/
theorem extractUnits_cases (ifs : List Nat) (us : List (List Nat)) :
    (extractUnits K ifs false false us = some (us, []) ∧
        ∀ u ∈ unquoted us, isSeparator K ifs u = some false) ∨
      ∃ w u r, us = w ++ u :: r ∧ u ∈ unquoted us ∧
        unquoted us = unquoted w ++ unquoted (u :: r) ∧ u ≠ [CTLESC] ∧
        ((isSeparator K ifs u = some true ∧ extractUnits K ifs false false us = some (w, u :: r)) ∨
          (isSeparator K ifs u = none ∧ extractUnits K ifs false false us = none)) := by
  induction us using unquoted.induct with
  | case1 => exact Or.inl ⟨rfl, by simp [unquoted]⟩
  | case2 => exact Or.inl ⟨rfl, by simp [unquoted]⟩
  | case3 u hu =>
    rw [unquoted, if_neg hu, extractUnits, if_neg fun h => hu h.2]
    cases hsep : isSeparator K ifs u with
    | none =>
      refine Or.inr ⟨[], u, [], rfl, by simp, ?_, hu, Or.inr ⟨hsep, rfl⟩⟩
      simp [unquoted, hu]
    | some stop =>
      cases stop with
      | false => exact Or.inl ⟨rfl, by simpa using hsep⟩
      | true =>
        refine Or.inr ⟨[], u, [], rfl, by simp, ?_, hu, Or.inl ⟨hsep, rfl⟩⟩
        simp [unquoted, hu]
  | case4 v us ih =>
    have hstep : extractUnits K ifs false false ([CTLESC] :: v :: us) =
        (extractUnits K ifs false false us).map fun (w, r) => ([CTLESC] :: v :: w, r) := by
      rw [extractUnits, if_pos ⟨rfl, Or.inl rfl⟩]
    rw [unquoted, if_pos rfl, hstep]
    rcases ih with ⟨hall, hno⟩ | ⟨w, x, r, rfl, hmem, hsplit, hx, hstop⟩
    · rw [hall]
      exact Or.inl ⟨rfl, hno⟩
    · refine Or.inr ⟨[CTLESC] :: v :: w, x, r, rfl, hmem, ?_, hx, ?_⟩
      · rw [hsplit, unquoted, if_pos rfl]
      · rcases hstop with ⟨hsep, hstop⟩ | ⟨hsep, hstop⟩
        · exact Or.inl ⟨hsep, by rw [hstop]; rfl⟩
        · exact Or.inr ⟨hsep, by rw [hstop]; rfl⟩
  | case5 u v us hu ih =>
    have hunq : unquoted (u :: v :: us) = u :: unquoted (v :: us) := by
      rw [unquoted, if_neg hu]
    have hfirst : u ∈ unquoted (u :: v :: us) := by
      rw [hunq]
      exact List.mem_cons_self ..
    cases hsep : isSeparator K ifs u with
    | none =>
      refine Or.inr ⟨[], u, v :: us, rfl, hfirst, rfl, hu, Or.inr ⟨hsep, ?_⟩⟩
      rw [extractUnits, if_neg fun h => hu h.1, hsep]
      rfl
    | some stop =>
      cases stop with
      | true =>
        refine Or.inr ⟨[], u, v :: us, rfl, hfirst, rfl, hu, Or.inl ⟨hsep, ?_⟩⟩
        rw [extractUnits, if_neg fun h => hu h.1, hsep]
        rfl
      | false =>
        have hstep : extractUnits K ifs false false (u :: v :: us) =
            (extractUnits K ifs false false (v :: us)).map fun (w, r) => (u :: w, r) := by
          rw [extractUnits, if_neg fun h => hu h.1, hsep]
          rfl
        rw [hstep, hunq]
        rcases ih with ⟨hall, hno⟩ | ⟨w, x, r, heq, hmem, hsplit, hx, hstop⟩
        · rw [hall]
          exact Or.inl ⟨rfl, List.forall_mem_cons.mpr ⟨hsep, hno⟩⟩
        · refine Or.inr ⟨u :: w, x, r, by rw [heq]; rfl, List.mem_cons_of_mem _ hmem, ?_, hx, ?_⟩
          · rw [hsplit]
            cases w with
            | nil =>
              rw [List.nil_append] at heq
              simp [unquoted, hu]
            | cons y w =>
              have hcons : unquoted (u :: y :: w) = u :: unquoted (y :: w) := by
                rw [unquoted, if_neg hu]
              rw [hcons]
              rfl
          · rcases hstop with ⟨hsep', hstop⟩ | ⟨hsep', hstop⟩
            · exact Or.inl ⟨hsep', by rw [hstop]; rfl⟩
            · exact Or.inr ⟨hsep', by rw [hstop]; rfl⟩

/-! ## The loop -/

/-- One round of the loop. -/
theorem listLoop_round {s : List Nat} (hs : s ≠ []) (fuel : Nat) (quoted : Bool) :
    listLoop K ifs quoted (fuel + 1) s =
      (stringExtractVerbatim K ifs (decide (CTLESC ∈ ifs)) (decide (CTLNUL ∈ ifs)) s).bind
        fun cut => (listLoop K ifs quoted fuel (skipSeparator K ifs cut.2)).bind fun more =>
          some (makeWords K ifs quoted cut.1 cut.2 ++ more) := by
  obtain ⟨c, s, rfl⟩ := List.exists_cons_of_ne_nil hs
  rfl

theorem listLoop_nil (fuel : Nat) (quoted : Bool) : listLoop K ifs quoted fuel [] = some [] := by
  cases fuel with
  | zero => rfl
  | succ fuel => rfl

end Basht.Words
