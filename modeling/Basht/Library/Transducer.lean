import Mathlib.Data.List.Basic

/-!
# Transducers

A transducer reads its input one symbol at a time and emits a list of symbols for
each of them. Programs that filter a byte stream with a small state (an escape
stripper, a line-ending recognizer) and systems that take one operation after
another and write to an output are transducers in this sense.

* `final`, `output`: the state after a whole input, and what was emitted on the way;
  both split at any point of the input (`final_append`, `output_append`), so how an
  input is cut into calls does not matter.
* `output_induction`: the invariant rule.
* `Along P s xs`: every step of the run meets `P` in the state before it.
-/

namespace Basht

/-- A deterministic machine with states `σ` that reads symbols of `α` and emits
symbols of `β`. -/
structure Transducer (σ α β : Type) where
  step : σ → α → σ × List β

namespace Transducer

variable {σ τ α β γ : Type} (T : Transducer σ α β)

/-- The state after the input `xs`. -/
def final : σ → List α → σ
  | s, [] => s
  | s, x :: xs => final (T.step s x).1 xs

/-- What is emitted while the input `xs` is read. -/
def output : σ → List α → List β
  | _, [] => []
  | s, x :: xs => (T.step s x).2 ++ output (T.step s x).1 xs

@[simp] theorem final_nil (s : σ) : T.final s [] = s := rfl

@[simp] theorem final_cons (s : σ) (x : α) (xs : List α) :
    T.final s (x :: xs) = T.final (T.step s x).1 xs := rfl

@[simp] theorem output_nil (s : σ) : T.output s [] = [] := rfl

@[simp] theorem output_cons (s : σ) (x : α) (xs : List α) :
    T.output s (x :: xs) = (T.step s x).2 ++ T.output (T.step s x).1 xs := rfl

theorem final_append (s : σ) (xs ys : List α) :
    T.final s (xs ++ ys) = T.final (T.final s xs) ys := by
  induction xs generalizing s with
  | nil => rfl
  | cons x xs ih => exact ih _

theorem output_append (s : σ) (xs ys : List α) :
    T.output s (xs ++ ys) = T.output s xs ++ T.output (T.final s xs) ys := by
  induction xs generalizing s with
  | nil => rfl
  | cons x xs ih => simp only [List.cons_append, output_cons, final_cons, ih, List.append_assoc]

/-! ## Invariants -/

/-- If every step keeps `I` and emits only symbols of `P` from states of `I`, whole runs
emit only symbols of `P`. -/
theorem output_induction {I : σ → Prop} {P : β → Prop} (hstep : ∀ s x, I s → I (T.step s x).1)
    (hout : ∀ s x, I s → ∀ y ∈ (T.step s x).2, P y) {s : σ} (h : I s) (xs : List α) :
    ∀ y ∈ T.output s xs, P y := by
  induction xs generalizing s with
  | nil => simp
  | cons x xs ih =>
    intro y hy
    rcases List.mem_append.mp hy with hy | hy
    · exact hout s x h y hy
    · exact ih (hstep s x h) y hy

/-- Every step of the run on `xs` from `s` meets `P` in the state before it. -/
def Along (P : σ → α → Prop) : σ → List α → Prop
  | _, [] => True
  | s, x :: xs => P s x ∧ Along P (T.step s x).1 xs

@[simp] theorem along_nil (P : σ → α → Prop) (s : σ) : T.Along P s [] := trivial

@[simp] theorem along_cons (P : σ → α → Prop) (s : σ) (x : α) (xs : List α) :
    T.Along P s (x :: xs) ↔ P s x ∧ T.Along P (T.step s x).1 xs := Iff.rfl

theorem along_append (P : σ → α → Prop) (s : σ) (xs ys : List α) :
    T.Along P s (xs ++ ys) ↔ T.Along P s xs ∧ T.Along P (T.final s xs) ys := by
  induction xs generalizing s with
  | nil => exact (and_iff_right trivial).symm
  | cons x xs ih =>
    rw [List.cons_append, along_cons, along_cons, ih, and_assoc]
    rfl

theorem along_of_forall {P : σ → α → Prop} {xs : List α} (h : ∀ s, ∀ x ∈ xs, P s x) (s : σ) :
    T.Along P s xs := by
  induction xs generalizing s with
  | nil => trivial
  | cons x xs ih =>
    exact ⟨h s x (by simp), ih (fun s y hy => h s y (List.mem_cons_of_mem _ hy)) _⟩

end Transducer

end Basht
