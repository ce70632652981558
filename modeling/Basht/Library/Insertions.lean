import Mathlib.Data.List.Basic

/-!
# Blocks inserted into a list

`Inserted P xs ys`: `ys` is `xs` with blocks inserted that satisfy `P`, each of them in one
piece.
-/

namespace Basht

/-- `ys` is `xs` with blocks of `P` inserted. -/
inductive Inserted {α : Type} (P : List α → Prop) : List α → List α → Prop where
  | nil : Inserted P [] []
  | keep (a : α) {xs ys : List α} : Inserted P xs ys → Inserted P (a :: xs) (a :: ys)
  | block {b xs ys : List α} : P b → Inserted P xs ys → Inserted P xs (b ++ ys)

namespace Inserted

variable {α : Type} {P : List α → Prop} {xs ys zs : List α}

theorem refl (xs : List α) : Inserted P xs xs := by
  induction xs with
  | nil => exact nil
  | cons a xs ih => exact keep a ih

theorem prepend (zs : List α) (h : Inserted P xs ys) : Inserted P (zs ++ xs) (zs ++ ys) := by
  induction zs with
  | nil => exact h
  | cons a zs ih => exact keep a ih

/-- Nothing is inserted, or there is a first block. -/
theorem eq_or_first (h : Inserted P xs ys) :
    ys = xs ∨ ∃ us vs b zs, xs = us ++ vs ∧ P b ∧ ys = us ++ (b ++ zs) := by
  induction h with
  | nil => exact Or.inl rfl
  | keep a _ ih =>
    rcases ih with rfl | ⟨us, vs, b, zs, rfl, hb, rfl⟩
    · exact Or.inl rfl
    · exact Or.inr ⟨a :: us, vs, b, zs, rfl, hb, rfl⟩
  | @block b xs ys hb _ _ => exact Or.inr ⟨[], xs, b, ys, rfl, hb, rfl⟩

/-- Two counts that agree on every block differ by the same before and after. -/
theorem countP (h : Inserted P xs ys) {p q : α → Bool}
    (hP : ∀ b, P b → b.countP p = b.countP q) :
    ys.countP p + xs.countP q = xs.countP p + ys.countP q := by
  induction h with
  | nil => rfl
  | keep a _ ih =>
    rw [List.countP_cons, List.countP_cons, List.countP_cons, List.countP_cons]
    omega
  | block hb _ ih =>
    have hblock := hP _ hb
    rw [List.countP_append, List.countP_append]
    omega

end Inserted

end Basht
