import Mathlib.Data.List.ReduceOption
import Mathlib.Data.Nat.Find

/-!
# Slots

A table of slots is a list of options: a slot is free or holds an entry. A slot is set, the
entries of some kind are counted, and the entries are moved together in their order.
-/

namespace Basht.SlotTable

variable {α : Type*}

/-- What slot `i` holds; there is nothing beyond the end. -/
def slot (l : List (Option α)) (i : Nat) : Option α := l[i]?.join

variable {l : List (Option α)} {i j : Nat} {a : α} {o : Option α}

theorem lt_of_slot (h : slot l i = some a) : i < l.length := by
  unfold slot at h
  by_contra hge
  rw [List.getElem?_eq_none (Nat.le_of_not_lt hge)] at h
  exact absurd h (by simp)

theorem lt_of_isSome (h : (slot l i).isSome) : i < l.length := by
  obtain ⟨a, ha⟩ := Option.isSome_iff_exists.mp h
  exact lt_of_slot ha

theorem slot_eq_getElem (h : i < l.length) : slot l i = l[i] := by
  unfold slot
  rw [List.getElem?_eq_getElem h]
  rfl

theorem slot_of_le (h : l.length ≤ i) : slot l i = none := by
  unfold slot
  rw [List.getElem?_eq_none h]
  rfl

/-! ## Setting a slot -/

theorem slot_set_self (h : i < l.length) : slot (l.set i o) i = o := by
  unfold slot
  rw [List.getElem?_set_self h]
  rfl

theorem slot_set_ne (h : i ≠ j) : slot (l.set i o) j = slot l j := by
  unfold slot
  rw [List.getElem?_set_ne h]

theorem slot_append_free (n : Nat) : slot (l ++ List.replicate n none) i = slot l i := by
  unfold slot
  rcases Nat.lt_or_ge i l.length with h | h
  · rw [List.getElem?_append_left h]
  · rw [List.getElem?_append_right h, List.getElem?_eq_none h, List.getElem?_replicate]
    split
    · rfl
    · rfl

/-! ## The first and the last entry -/

theorem exists_first (h : (slot l i).isSome) :
    ∃ k, (slot l k).isSome ∧ ∀ m, (slot l m).isSome → k ≤ m := by
  classical
  have hex : ∃ k, (slot l k).isSome := ⟨i, h⟩
  exact ⟨Nat.find hex, Nat.find_spec hex, fun m hm => Nat.find_min' hex hm⟩

theorem exists_last (h : (slot l i).isSome) :
    ∃ k, (slot l k).isSome ∧ ∀ m, (slot l m).isSome → m ≤ k := by
  have hlast := Nat.findGreatest_spec (P := fun k => (slot l k).isSome)
    (Nat.le_of_lt (lt_of_isSome h)) h
  exact ⟨_, hlast, fun m hm => Nat.le_findGreatest (Nat.le_of_lt (lt_of_isSome hm)) hm⟩

/-! ## Counting -/

/-- Setting a slot changes a count by what is there before and after. -/
theorem countP_set (p : Option α → Bool) (h : i < l.length) :
    (l.set i o).countP p + (if p (slot l i) then 1 else 0) =
      l.countP p + (if p o then 1 else 0) := by
  have hpos : (if p l[i] then 1 else 0) ≤ l.countP p := by
    split
    · rename_i hp
      exact List.countP_pos_iff.mpr ⟨l[i], List.getElem_mem h, hp⟩
    · exact Nat.zero_le _
  rw [List.countP_set h, slot_eq_getElem h]
  omega

theorem countP_append_free {p : Option α → Bool} (hp : p none = false) (n : Nat) :
    (l ++ List.replicate n none).countP p = l.countP p := by
  rw [List.countP_append, List.countP_replicate, hp]
  rfl

theorem countP_isSome_eq_zero : l.countP Option.isSome = 0 ↔ ∀ i, slot l i = none := by
  constructor
  · intro h i
    rcases Nat.lt_or_ge i l.length with hi | hi
    · have hnone := List.countP_eq_zero.mp h l[i] (List.getElem_mem hi)
      rw [slot_eq_getElem hi]
      simpa using hnone
    · exact slot_of_le hi
  · intro h
    refine List.countP_eq_zero.mpr ?_
    intro o ho
    obtain ⟨i, hi, rfl⟩ := List.getElem_of_mem ho
    rw [← slot_eq_getElem hi, h i]
    simp

/-! ## Moving the entries together -/

/-- How many entries stand before slot `i`. -/
def rank (l : List (Option α)) (i : Nat) : Nat := (l.take i).countP Option.isSome

theorem length_reduceOption : l.reduceOption.length = l.countP Option.isSome := by
  induction l with
  | nil => rfl
  | cons o l ih =>
    cases o with
    | none => simpa using ih
    | some a => simpa using ih

theorem countP_reduceOption {p : Option α → Bool} (hp : p none = false) :
    (l.reduceOption.map some).countP p = l.countP p := by
  induction l with
  | nil => rfl
  | cons o l ih =>
    cases o with
    | none => rw [List.reduceOption_cons_of_none, ih, List.countP_cons, hp]; rfl
    | some a =>
      rw [List.reduceOption_cons_of_some, List.map_cons, List.countP_cons, List.countP_cons, ih]

/-- The entry of slot `i` becomes entry number `rank l i`. -/
theorem getElem?_rank (h : slot l i = some a) : l.reduceOption[rank l i]? = some a := by
  induction l generalizing i with
  | nil => exact absurd (lt_of_slot h) (Nat.not_lt_zero i)
  | cons o l ih =>
    cases i with
    | zero =>
      have ho : o = some a := h
      subst ho
      rfl
    | succ i =>
      have hrest : l.reduceOption[rank l i]? = some a := ih h
      cases o with
      | none => simpa [rank] using hrest
      | some b => simpa [rank] using hrest

theorem slot_packed (entries : List α) (n : Nat) :
    slot (entries.map some ++ List.replicate n none) i = entries[i]? := by
  rw [slot_append_free]
  unfold slot
  rw [List.getElem?_map]
  cases entries[i]? with
  | none => rfl
  | some a => rfl

end Basht.SlotTable
