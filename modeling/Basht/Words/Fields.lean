import Mathlib.Data.List.Chain
import Basht.Library.Splitting
import Basht.Words.ListString

/-!
# The fields of a string

`list_string` against the splitting of the characters of a string into fields. Its words are
found character by character, but what lies between two words is skipped byte by byte. White
space is ASCII, so that skipping it goes right; the one other separator that may follow it is
skipped as a single byte, and only its first byte is compared with `IFS`.
-/

namespace Basht.Words

open Splitting

variable (K : Coding) (ifs : List Nat)

/-- A character of `IFS`. -/
def sepChar (u : List Nat) : Bool := (K.units ifs).contains u

/-- IFS white space. -/
def spaceChar (u : List Nat) : Bool := sepChar K ifs u && isspace (u.headD 0)

/-- A string that consists of characters. -/
def Valid (s : List Nat) : Prop := ∀ u ∈ K.units s, K.len u ≠ 0

/-- The characters of a string without markers. -/
structure Text (us : List (List Nat)) : Prop where
  units : K.units us.flatten = us
  valid : ∀ u ∈ us, K.len u ≠ 0
  plain : ∀ u ∈ us, u ≠ [CTLESC] ∧ u ≠ [CTLNUL]

variable {K ifs} {us vs r : List (List Nat)} {u v : List Nat} {c : Nat}

/-! ## Characters and bytes -/

namespace Text

theorem drop (us : List (List Nat)) (h : Text K (us ++ vs)) : Text K vs := by
  have hunits : K.units vs.flatten = vs := K.units_flatten_of_append h.units.symm
  exact ⟨hunits, fun u hu => h.valid u (List.mem_append_right _ hu),
    fun u hu => h.plain u (List.mem_append_right _ hu)⟩

theorem suffix (h : Text K us) (hsuf : vs <:+ us) : Text K vs := by
  obtain ⟨pre, rfl⟩ := hsuf
  exact h.drop pre

theorem mem_units (h : Text K us) (hu : u ∈ us) : u ∈ K.units us.flatten := by
  rw [h.units]
  exact hu

/-- An ASCII character, or a longer one that begins with no ASCII byte. -/
theorem cases (h : Text K us) (hu : u ∈ us) :
    (∃ c, u = [c] ∧ K.len [c] = 1) ∨
      ∃ c d t, u = c :: d :: t ∧ 128 ≤ c ∧ ∀ b ∈ d :: t, 128 ≤ b ∧ ∀ s, K.len (b :: s) = 0 := by
  have hmem := h.mem_units hu
  have hstep := K.step_of_mem_units hmem
  rw [Coding.step, if_neg (h.valid u hu)] at hstep
  obtain ⟨c, t, rfl⟩ := List.exists_cons_of_ne_nil (K.ne_nil_of_mem_units hmem)
  cases t with
  | nil => exact Or.inl ⟨c, rfl, hstep⟩
  | cons d t =>
    refine Or.inr ⟨c, d, t, rfl, ?_, K.trail_of_mem_units hmem⟩
    by_contra hlt
    rw [K.ascii c (d :: t) (by omega)] at hstep
    cases hstep

theorem step (h : Text K (u :: us)) : K.step (u :: us).flatten = u.length := by
  have hne : (u :: us).flatten ≠ [] := by
    intro hnil
    have hunits := h.units
    rw [hnil] at hunits
    cases hunits
  have hunits := h.units
  rw [K.units_of_ne_nil hne, List.cons.injEq] at hunits
  have hlen := congrArg List.length hunits.1
  rwa [List.length_take, Nat.min_eq_left (K.step_le hne)] at hlen

end Text

theorem sepChar_eq (K : Coding) (ifs u : List Nat) :
    sepChar K ifs u = decide (u ∈ K.units ifs) := by
  unfold sepChar
  exact List.contains_eq_mem u _

/-- Is a byte of `IFS`, or one that is not ASCII, white space? -/
theorem ifsWhitesep_eq (h : c ∈ ifs ∨ 128 ≤ c) : ifsWhitesep ifs c = isspace c := by
  unfold ifsWhitesep
  split
  · rename_i hstyle
    have hifs : ifs = [32, 9, 10] := of_decide_eq_true hstyle
    subst hifs
    simp only [List.mem_cons, List.not_mem_nil, or_false] at h
    rw [spctabnl, isspace, decide_eq_decide]
    omega
  · rfl

theorem skipped_eq (c : Nat) :
    (ifsWhitesep ifs c && issep ifs c) = (decide (c ∈ ifs) && isspace c) := by
  rw [issep_eq, Bool.and_comm]
  by_cases hc : c ∈ ifs
  · rw [ifsWhitesep_eq (Or.inl hc)]
  · rw [decide_eq_false hc, Bool.false_and, Bool.false_and]

theorem skipAdjacent_false (s : List Nat) : skipAdjacent ifs false s = s := by
  cases s with
  | nil => rfl
  | cons d s => rfl

/-- Behind white space, a byte of `IFS` that is no white space is skipped. -/
theorem skipAdjacent_true (d : Nat) (s : List Nat) : skipAdjacent ifs true (d :: s) =
    if d ∈ ifs ∧ isspace d = false then
      s.dropWhile fun c => ifsWhitesep ifs c && issep ifs c
    else d :: s := by
  have hcond : (true && issep ifs d && !ifsWhitesep ifs d) =
      decide (d ∈ ifs ∧ isspace d = false) := by
    rw [issep_eq, Bool.true_and]
    by_cases hd : d ∈ ifs
    · rw [ifsWhitesep_eq (Or.inl hd), decide_eq_true hd, Bool.true_and]
      cases isspace d with
      | false => simp [hd]
      | true => simp
    · simp [hd]
  have hisifs : (fun c => ifsWhitesep ifs c && isifs ifs c) =
      fun c => ifsWhitesep ifs c && issep ifs c := by
    funext c
    rw [issep_eq]
    rfl
  rw [skipAdjacent, hcond, hisifs]
  by_cases hd : d ∈ ifs ∧ isspace d = false
  · rw [decide_eq_true hd, if_pos hd, if_pos rfl]
  · rw [decide_eq_false hd, if_neg hd]
    rfl

/-- Does the code end a word before `u`? -/
def stops (K : Coding) (ifs u : List Nat) : Bool :=
  if K.len u > 1 then sepChar K ifs u else u.headD 0 ∈ ifs

theorem isSeparator_valid (hifs : Valid K ifs) (u : List Nat) :
    isSeparator K ifs u = some (stops K ifs u) := by
  unfold isSeparator stops
  split
  · have hall : (K.units ifs).all (fun u => K.len u ≠ 0) = true :=
      List.all_eq_true.mpr fun u hu => decide_eq_true (hifs u hu)
    rw [wcschr, mbstowcs, if_pos hall, sepChar_eq]
  · rfl

/-- Without `CTLESC`s, a word goes up to the first separator, whatever the flags are. -/
theorem extractUnits_valid (hifs : Valid K ifs) (h : [CTLESC] ∉ us) (noctlesc noescctlnul : Bool) :
    extractUnits K ifs noctlesc noescctlnul us =
      some (us.takeWhile (fun u => !stops K ifs u), us.dropWhile fun u => !stops K ifs u) := by
  induction us with
  | nil => rfl
  | cons u us ih =>
    rw [List.mem_cons, not_or] at h
    have hu : u ≠ [CTLESC] := Ne.symm h.1
    cases us with
    | nil =>
      rw [extractUnits, if_neg fun hboth => hu hboth.2, isSeparator_valid hifs]
      cases hstop : stops K ifs u with
      | false => simp [hstop]
      | true => simp [hstop]
    | cons v us =>
      rw [extractUnits, if_neg fun hboth => hu hboth.1, isSeparator_valid hifs, ih h.2]
      cases hstop : stops K ifs u with
      | false =>
        rw [takeWhile_of_not_sep hstop, dropWhile_of_not_sep hstop]
        rfl
      | true =>
        rw [takeWhile_of_sep hstop, dropWhile_of_sep hstop]
        rfl

theorem makeWords_plain {s : List Nat} (hs : s ≠ []) (hnul : CTLNUL ∉ s) (rest : List Nat) :
    makeWords K ifs false s rest = [⟨s, false, false, false⟩] := by
  have hnull : quotedNull s = false := by
    refine decide_eq_false ?_
    rintro rfl
    exact hnul (List.mem_singleton_self _)
  have hremove : removeQuotedNulls K s = s := by
    rw [removeQuotedNulls_eq, dropNulls_self hnul]
  rw [makeWords, hnull, if_neg Bool.false_ne_true, if_pos hs, hremove]
  simp [hs]

/-- Before a separator that is no white space there is a quoted null argument at least. -/
theorem makeWords_null {rest : List Nat} (hc : c ∈ ifs) (hspace : isspace c = false) :
    makeWords K ifs false [] (c :: rest) = [Word.null] := by
  have hstyle : shStyleSplit ifs = false := by
    refine decide_eq_false ?_
    rintro rfl
    rw [isspace, decide_eq_false_iff_not] at hspace
    simp only [List.mem_cons, List.not_mem_nil, or_false] at hc
    omega
  have hnull : quotedNull [] = false := rfl
  rw [makeWords, hnull, if_neg Bool.false_ne_true, if_neg fun h => h rfl, if_pos]
  exact ⟨hstyle, hspace⟩

/-- The characters behind the first field and its delimiter. -/
abbrev behind (K : Coding) (ifs : List Nat) (us : List (List Nat)) : List (List Nat) :=
  afterDelimiter (sepChar K ifs) (spaceChar K ifs) (us.dropWhile fun u => !sepChar K ifs u)

end Basht.Words
