import Basht.Library.Fallible
import Basht.Library.Transducer

/-!
# Machines that may fail against transducers

A machine that may fail follows a transducer if, related states given, each step that the guard
allows succeeds, emits what the transducer emits and relates the states again. Then so does every
run whose steps the guard allows; the guard is looked at in the states of the transducer.
-/

namespace Basht.Fallible

variable {ε σ τ α β : Type} {f : σ → α → Except ε (σ × List β)} {T : Transducer τ α β}
  {R : σ → τ → Prop} {P : τ → α → Prop}

/-- The rule for runs. -/
theorem exec_follows
    (hstep : ∀ s t x, R s t → P t x → ∃ s', f s x = .ok (s', (T.step t x).2) ∧ R s' (T.step t x).1)
    {s : σ} {t : τ} (h : R s t) {xs : List α} (hP : T.Along P t xs) :
    ∃ s', exec f s xs = .ok (s', T.output t xs) ∧ R s' (T.final t xs) := by
  induction xs generalizing s t with
  | nil => exact ⟨s, rfl, h⟩
  | cons x xs ih =>
    obtain ⟨s₁, hf, h₁⟩ := hstep s t x h hP.1
    obtain ⟨s₂, hrun, h₂⟩ := ih h₁ hP.2
    exact ⟨s₂, andThen_eq_ok.2 ⟨s₁, _, s₂, _, hf, hrun, rfl⟩, h₂⟩

end Basht.Fallible
