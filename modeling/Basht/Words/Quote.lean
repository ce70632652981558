import Basht.Library.Coding

/-!
# Quoted characters

`subst.c`: `CTLESC` before a character says that it was quoted, and `CTLNUL` alone is a quoted
null string. Strings are lists of bytes without the null byte at their end. The loops
go from character to character (`ADVANCE_CHAR`, `COPY_CHAR_P`), so that they are written over
the units of the string; those of `dequote_string`, `quote_escapes`, `dequote_escapes` and
`remove_quoted_nulls` do what loops over the bytes would do.
-/

namespace Basht.Words

/-- The C locale, and a UTF-8 locale. -/
inductive Locale where
  | c
  | utf8

def Locale.coding : Locale → Coding
  | .c => Coding.bytes
  | .utf8 => Coding.utf8

/-- `'\001'`. -/
def CTLESC : Nat := 1

/-- `'\177'`. -/
def CTLNUL : Nat := 127

/-- `QUOTED_NULL`. -/
def quotedNull (string : List Nat) : Bool := string = [CTLNUL]

variable (K : Coding)

/-- `quote_string`. -/
def quoteString (string : List Nat) : List Nat :=
  if string = [] then [CTLNUL] else (K.units string).flatMap (CTLESC :: ·)

/-- The loop of `dequote_string`. -/
def dequoteUnits : List (List Nat) → List Nat
  | [] => []
  | [u] => u
  | u :: v :: us => if u = [CTLESC] then v ++ dequoteUnits us else u ++ dequoteUnits (v :: us)

/-- `dequote_string`. -/
def dequoteString (string : List Nat) : List Nat :=
  if quotedNull string then []
  else if CTLESC ∉ string then string
  else dequoteUnits (K.units string)

/-- `quote_escapes_internal`; `ifs` is `ifs_value`, and `nosplit` is `flags & PF_NOSPLIT2`. -/
def quoteEscapesInternal (ifs : List Nat) (nosplit : Bool) (string : List Nat) : List Nat :=
  let quoteSpaces := ifs = []
  let skipCtlesc := nosplit = false ∧ CTLESC ∈ ifs
  let skipCtlnul := nosplit = false ∧ CTLNUL ∈ ifs
  (K.units string).flatMap fun u =>
    if (¬skipCtlesc ∧ u = [CTLESC]) ∨ (¬skipCtlnul ∧ u = [CTLNUL]) ∨ (quoteSpaces ∧ u = [32])
    then CTLESC :: u else u

/-- `quote_escapes`. -/
def quoteEscapes (ifs string : List Nat) : List Nat := quoteEscapesInternal K ifs false string

/-- The loop of `dequote_escapes`. -/
def dequoteEscapesUnits (quoteSpaces : Bool) : List (List Nat) → List Nat
  | [] => []
  | [u] => u
  | u :: v :: us =>
    if u = [CTLESC] ∧ (v = [CTLESC] ∨ v = [CTLNUL] ∨ (quoteSpaces ∧ v = [32])) then
      v ++ dequoteEscapesUnits quoteSpaces us
    else u ++ dequoteEscapesUnits quoteSpaces (v :: us)

/-- `dequote_escapes`. -/
def dequoteEscapes (ifs string : List Nat) : List Nat :=
  if CTLESC ∉ string then string else dequoteEscapesUnits (ifs = []) (K.units string)

/-- The loop of `remove_quoted_nulls`. -/
def removeNullUnits : List (List Nat) → List Nat
  | [] => []
  | [u] => if u = [CTLNUL] then [] else u
  | u :: v :: us =>
    if u = [CTLESC] then CTLESC :: (v ++ removeNullUnits us)
    else if u = [CTLNUL] then removeNullUnits (v :: us)
    else u ++ removeNullUnits (v :: us)

/-- `remove_quoted_nulls`. -/
def removeQuotedNulls (string : List Nat) : List Nat :=
  if CTLNUL ∉ string then string else removeNullUnits (K.units string)

/-! ## The loops over bytes -/

/-- What is left of a string without the `CTLESC`s that quote a byte with the property `p`. -/
def unescape (p : Nat → Bool) : List Nat → List Nat
  | [] => []
  | [b] => [b]
  | b :: c :: s => if b = CTLESC ∧ p c then c :: unescape p s else b :: unescape p (c :: s)

/-- What is left without the `CTLNUL`s that are not quoted. -/
def dropNulls : List Nat → List Nat
  | [] => []
  | [b] => if b = CTLNUL then [] else [b]
  | b :: c :: s =>
    if b = CTLESC then b :: c :: dropNulls s
    else if b = CTLNUL then dropNulls (c :: s)
    else b :: dropNulls (c :: s)

theorem unescape_cons_of_ne {p : Nat → Bool} {b : Nat} (hb : b ≠ CTLESC) (s : List Nat) :
    unescape p (b :: s) = b :: unescape p s := by
  cases s with
  | nil => rfl
  | cons c s => rw [unescape, if_neg fun h => hb h.1]

theorem unescape_append {p : Nat → Bool} {u : List Nat} (hu : ∀ b ∈ u, b ≠ CTLESC) (s : List Nat) :
    unescape p (u ++ s) = u ++ unescape p s := by
  induction u with
  | nil => rfl
  | cons b u ih =>
    obtain ⟨hb, hu⟩ := List.forall_mem_cons.mp hu
    rw [List.cons_append, unescape_cons_of_ne hb, ih hu]
    rfl

theorem dropNulls_cons_of_ne {b : Nat} (hesc : b ≠ CTLESC) (hnul : b ≠ CTLNUL) (s : List Nat) :
    dropNulls (b :: s) = b :: dropNulls s := by
  cases s with
  | nil => simp [dropNulls, hnul]
  | cons c s => rw [dropNulls, if_neg hesc, if_neg hnul]

theorem dropNulls_nul (s : List Nat) : dropNulls (CTLNUL :: s) = dropNulls s := by
  cases s with
  | nil => simp [dropNulls]
  | cons c s => rw [dropNulls, if_neg (by decide), if_pos rfl]

theorem dropNulls_append {u : List Nat} (hu : ∀ b ∈ u, b ≠ CTLESC ∧ b ≠ CTLNUL) (s : List Nat) :
    dropNulls (u ++ s) = u ++ dropNulls s := by
  induction u with
  | nil => rfl
  | cons b u ih =>
    obtain ⟨hb, hu⟩ := List.forall_mem_cons.mp hu
    rw [List.cons_append, dropNulls_cons_of_ne hb.1 hb.2, ih hu]
    rfl

theorem unescape_self {p : Nat → Bool} {s : List Nat} (hs : CTLESC ∉ s) : unescape p s = s := by
  have happend := unescape_append (p := p) (fun b hb heq => hs (heq ▸ hb)) (u := s) []
  rwa [List.append_nil, unescape, List.append_nil] at happend

theorem dropNulls_self {s : List Nat} (hs : CTLNUL ∉ s) : dropNulls s = s := by
  induction s using dropNulls.induct with
  | case1 => rfl
  | case2 => exact absurd (List.mem_singleton_self _) hs
  | case3 b hb => rw [dropNulls, if_neg hb]
  | case4 c s ih =>
    rw [dropNulls, if_pos rfl, ih fun h => hs (List.mem_cons_of_mem _ (List.mem_cons_of_mem _ h))]
  | case5 c s => exact absurd (List.mem_cons_self ..) hs
  | case6 b c s hesc hnul ih =>
    rw [dropNulls, if_neg hesc, if_neg hnul, ih fun h => hs (List.mem_cons_of_mem _ h)]

/-! ## The loops over characters do the same -/

variable {K} {u : List Nat} {us : List (List Nat)}

/-- A piece of a string: an ASCII character, or bytes without ASCII characters behind the
first of them. -/
structure Piece (u : List Nat) : Prop where
  ne_nil : u ≠ []
  tail : ∀ b ∈ u.tail, 128 ≤ b
  ascii : ∀ b ∈ u, b < 128 → u = [b]

theorem piece_of_mem_units {s : List Nat} (hu : u ∈ K.units s) : Piece u := by
  have htail := fun b hb => (K.trail_of_mem_units hu b hb).1
  refine ⟨K.ne_nil_of_mem_units hu, htail, fun b hb hlt => ?_⟩
  obtain ⟨c, t, rfl⟩ := List.exists_cons_of_ne_nil (K.ne_nil_of_mem_units hu)
  rcases List.mem_cons.mp hb with rfl | hb
  · have hstep := K.step_of_mem_units hu
    rw [Coding.step, K.ascii b t hlt, if_neg Nat.one_ne_zero, List.length_cons] at hstep
    have hnil : t = [] := List.length_eq_zero_iff.mp (by omega)
    rw [hnil]
  · exact absurd (htail b hb) (Nat.not_le.mpr hlt)

namespace Piece

/-- A piece that is not a certain ASCII character does not contain it. -/
theorem ne (h : Piece u) {c : Nat} (hc : c < 128) (hne : u ≠ [c]) : ∀ b ∈ u, b ≠ c := by
  rintro b hb rfl
  exact hne (h.ascii b hb hc)

/-- A piece that is quoted: its first byte, and bytes that are no markers. -/
theorem split (h : Piece u) : ∃ b t, u = b :: t ∧ ∀ c ∈ t, c ≠ CTLESC ∧ c ≠ CTLNUL := by
  obtain ⟨b, t, rfl⟩ := List.exists_cons_of_ne_nil h.ne_nil
  refine ⟨b, t, rfl, fun c hc => ?_⟩
  have hge : 128 ≤ c := h.tail c hc
  unfold CTLESC CTLNUL
  omega

end Piece

/-- A quoted piece loses its `CTLESC`. -/
theorem unescape_quoted {p : Nat → Bool} (h : Piece u) (hp : p (u.headD 0) = true) (s : List Nat) :
    unescape p (CTLESC :: (u ++ s)) = u ++ unescape p s := by
  obtain ⟨b, t, rfl, ht⟩ := h.split
  rw [List.cons_append, unescape, if_pos ⟨rfl, hp⟩, unescape_append fun c hc => (ht c hc).1]
  rfl

theorem dropNulls_quoted (h : Piece u) (s : List Nat) :
    dropNulls (CTLESC :: (u ++ s)) = CTLESC :: (u ++ dropNulls s) := by
  obtain ⟨b, t, rfl, ht⟩ := h.split
  rw [List.cons_append, dropNulls, if_pos rfl, dropNulls_append ht]
  rfl

theorem unescape_piece {p : Nat → Bool} (h : Piece u) : unescape p u = u := by
  by_cases hu : u = [CTLESC]
  · subst hu
    rfl
  · exact unescape_self fun hmem => h.ne (by decide) hu _ hmem rfl

theorem dequoteUnits_eq (h : ∀ u ∈ us, Piece u) :
    dequoteUnits us = unescape (fun _ => true) us.flatten := by
  induction us using dequoteUnits.induct with
  | case1 => rfl
  | case2 u =>
    rw [dequoteUnits, List.flatten_singleton, unescape_piece (h u (List.mem_singleton_self u))]
  | case3 v us ih =>
    have hv := h v (by simp)
    rw [dequoteUnits, if_pos rfl, ih fun w hw => h w (by simp [hw])]
    exact (unescape_quoted hv rfl us.flatten).symm
  | case4 u v us hu ih =>
    have hpiece := h u (by simp)
    rw [dequoteUnits, if_neg hu, ih fun w hw => h w (List.mem_cons_of_mem _ hw)]
    exact (unescape_append (hpiece.ne (by decide) hu) _).symm

theorem dequoteEscapesUnits_eq {q : Bool} (h : ∀ u ∈ us, Piece u) :
    dequoteEscapesUnits q us =
      unescape (fun c => c = CTLESC ∨ c = CTLNUL ∨ (q ∧ c = 32)) us.flatten := by
  induction us using dequoteEscapesUnits.induct q with
  | case1 => rfl
  | case2 u =>
    rw [dequoteEscapesUnits, List.flatten_singleton,
      unescape_piece (h u (List.mem_singleton_self u))]
  | case3 u v us hv ih =>
    obtain ⟨rfl, hspecial⟩ := hv
    rw [dequoteEscapesUnits, if_pos ⟨rfl, hspecial⟩, ih fun w hw => h w (by simp [hw])]
    refine (unescape_quoted (h v (by simp)) ?_ us.flatten).symm
    rcases hspecial with rfl | rfl | ⟨hq, rfl⟩
    · rfl
    · rfl
    · simp [hq]
  | case4 u v us hv ih =>
    have hpiece := h u (by simp)
    have hrest := ih fun w hw => h w (List.mem_cons_of_mem _ hw)
    rw [dequoteEscapesUnits, if_neg hv, hrest]
    by_cases hu : u = [CTLESC]
    · subst hu
      obtain ⟨b, t, rfl⟩ := List.exists_cons_of_ne_nil (h v (by simp)).ne_nil
      have hb : ¬(b = CTLESC ∨ b = CTLNUL ∨ (q ∧ b = 32)) := by
        intro hspecial
        have hlt : b < 128 := by
          rcases hspecial with rfl | rfl | ⟨-, rfl⟩
          · decide
          · decide
          · decide
        have hone := (h (b :: t) (by simp)).ascii b (List.mem_cons_self ..) hlt
        rw [hone] at hv
        refine hv ⟨rfl, ?_⟩
        simpa using hspecial
      have hflat : ([CTLESC] :: (b :: t) :: us).flatten = CTLESC :: b :: (t ++ us.flatten) := rfl
      rw [hflat, unescape, if_neg fun hp => hb (of_decide_eq_true hp.2)]
      rfl
    · exact (unescape_append (hpiece.ne (by decide) hu) _).symm

theorem removeNullUnits_eq (h : ∀ u ∈ us, Piece u) : removeNullUnits us = dropNulls us.flatten := by
  induction us using removeNullUnits.induct with
  | case1 => rfl
  | case2 => rfl
  | case3 u hu =>
    have hpiece := h u (List.mem_singleton_self u)
    rw [removeNullUnits, if_neg hu, List.flatten_singleton,
      dropNulls_self fun hmem => hpiece.ne (by decide) hu _ hmem rfl]
  | case4 v us ih =>
    rw [removeNullUnits, if_pos rfl, ih fun w hw => h w (by simp [hw])]
    exact (dropNulls_quoted (h v (by simp)) us.flatten).symm
  | case5 v us hne ih =>
    rw [removeNullUnits, if_neg hne, if_pos rfl, ih fun w hw => h w (List.mem_cons_of_mem _ hw)]
    exact (dropNulls_nul _).symm
  | case6 u v us hesc hnul ih =>
    have hpiece := h u (by simp)
    rw [removeNullUnits, if_neg hesc, if_neg hnul, ih fun w hw => h w (List.mem_cons_of_mem _ hw)]
    exact (dropNulls_append (fun b hb =>
      ⟨hpiece.ne (by decide) hesc b hb, hpiece.ne (by decide) hnul b hb⟩) _).symm

/-! ## What the functions compute -/

variable (K) (string : List Nat)

theorem dequoteString_eq : dequoteString K string =
    if quotedNull string then [] else unescape (fun _ => true) string := by
  unfold dequoteString
  by_cases hnull : quotedNull string = true
  · rw [if_pos hnull, if_pos hnull]
  · rw [if_neg hnull, if_neg hnull]
    by_cases hesc : CTLESC ∉ string
    · rw [if_pos hesc, unescape_self hesc]
    · rw [if_neg hesc, dequoteUnits_eq fun u hu => piece_of_mem_units hu, K.flatten_units]

theorem dequoteEscapes_eq (ifs : List Nat) : dequoteEscapes K ifs string =
    unescape (fun c => c = CTLESC ∨ c = CTLNUL ∨ (decide (ifs = []) = true ∧ c = 32)) string := by
  unfold dequoteEscapes
  by_cases hesc : CTLESC ∉ string
  · rw [if_pos hesc, unescape_self hesc]
  · rw [if_neg hesc, dequoteEscapesUnits_eq fun u hu => piece_of_mem_units hu, K.flatten_units]

theorem removeQuotedNulls_eq : removeQuotedNulls K string = dropNulls string := by
  unfold removeQuotedNulls
  by_cases hnul : CTLNUL ∉ string
  · rw [if_pos hnul, dropNulls_self hnul]
  · rw [if_neg hnul, removeNullUnits_eq fun u hu => piece_of_mem_units hu, K.flatten_units]

/-- `dequote_escapes` takes back what `quote_escapes` does, whatever `IFS` is, as long as it has
no markers. -/
theorem dequoteEscapes_quoteEscapes {ifs : List Nat} (hesc : CTLESC ∉ ifs) (hnul : CTLNUL ∉ ifs) :
    dequoteEscapes K ifs (quoteEscapes K ifs string) = string := by
  rw [dequoteEscapes_eq, quoteEscapes, quoteEscapesInternal]
  simp only [hesc, hnul, and_false, not_false_eq_true, true_and]
  have hpieces : ∀ us : List (List Nat), (∀ u ∈ us, Piece u) →
      unescape (fun c => c = CTLESC ∨ c = CTLNUL ∨ (decide (ifs = []) = true ∧ c = 32))
        (us.flatMap fun u =>
          if u = [CTLESC] ∨ u = [CTLNUL] ∨ (ifs = [] ∧ u = [32]) then CTLESC :: u else u) =
        us.flatten := by
    intro us h
    induction us with
    | nil => rfl
    | cons u us ih =>
      obtain ⟨hu, hus⟩ := List.forall_mem_cons.mp h
      rw [List.flatMap_cons, List.flatten_cons]
      by_cases hspecial : u = [CTLESC] ∨ u = [CTLNUL] ∨ (ifs = [] ∧ u = [32])
      · rw [if_pos hspecial, List.cons_append, unescape_quoted hu, ih hus]
        rcases hspecial with rfl | rfl | ⟨hifs, rfl⟩
        · rfl
        · rfl
        · simp [hifs]
      · rw [if_neg hspecial, unescape_append, ih hus]
        exact hu.ne (by decide) fun heq => hspecial (Or.inl heq)
  rw [hpieces _ fun u hu => piece_of_mem_units hu, K.flatten_units]

/-- Quoting adds a `CTLESC` to each character, or stands for the empty string. -/
theorem unescape_quoteString {s : List Nat} (hs : s ≠ []) (r : List Nat) :
    unescape (fun _ => true) (dropNulls (quoteString K s ++ r)) =
      s ++ unescape (fun _ => true) (dropNulls r) := by
  have hpieces : ∀ us : List (List Nat), (∀ u ∈ us, Piece u) →
      unescape (fun _ => true) (dropNulls (us.flatMap (CTLESC :: ·) ++ r)) =
        us.flatten ++ unescape (fun _ => true) (dropNulls r) := by
    intro us h
    induction us with
    | nil => rfl
    | cons u us ih =>
      obtain ⟨hu, hus⟩ := List.forall_mem_cons.mp h
      rw [List.flatMap_cons, List.cons_append, List.cons_append, List.append_assoc,
        dropNulls_quoted hu, unescape_quoted hu rfl, ih hus, List.flatten_cons, List.append_assoc]
  rw [quoteString, if_neg hs, hpieces _ fun u hu => piece_of_mem_units hu, K.flatten_units]

end Basht.Words
