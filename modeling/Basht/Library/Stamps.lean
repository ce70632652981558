import Mathlib.Data.List.Nodup
import Mathlib.Order.Basic
import Basht.Library.Fallible

/-!
# Numbers handed out

A machine hands out numbers to names. Each name has a mark that never falls, and the numbers
it is given lie above its mark of before (`Stamped`). Steps that do this compose to runs that
do (`exec_stamped`), so no run hands out a pair twice.
-/

namespace Basht

variable {κ ν : Type} [Preorder ν]

/-- The pairs `ps` are new between the marks `m` and `m'`. -/
structure Stamped (m : κ → ν) (ps : List (κ × ν)) (m' : κ → ν) : Prop where
  mono : ∀ k, m k ≤ m' k
  above : ∀ p ∈ ps, m p.1 < p.2
  below : ∀ p ∈ ps, p.2 ≤ m' p.1
  nodup : ps.Nodup

namespace Stamped

theorem nil {m m' : κ → ν} (h : ∀ k, m k ≤ m' k) : Stamped m [] m' :=
  ⟨h, by simp, by simp, List.nodup_nil⟩

theorem singleton {m m' : κ → ν} {k : κ} {n : ν} (h : ∀ k, m k ≤ m' k) (habove : m k < n)
    (hbelow : n ≤ m' k) : Stamped m [(k, n)] m' :=
  ⟨h, by simpa using habove, by simpa using hbelow, List.nodup_singleton _⟩

theorem append {m m' m'' : κ → ν} {ps qs : List (κ × ν)} (h : Stamped m ps m')
    (h' : Stamped m' qs m'') : Stamped m (ps ++ qs) m'' := by
  refine ⟨fun k => (h.mono k).trans (h'.mono k), fun p hp => ?_, fun p hp => ?_, ?_⟩
  · rcases List.mem_append.mp hp with hp | hp
    · exact h.above p hp
    · exact (h.mono p.1).trans_lt (h'.above p hp)
  · rcases List.mem_append.mp hp with hp | hp
    · exact (h.below p hp).trans (h'.mono p.1)
    · exact h'.below p hp
  · rw [List.nodup_append]
    refine ⟨h.nodup, h'.nodup, ?_⟩
    rintro p hp q hq rfl
    exact absurd (h.below p hp) (not_le_of_gt (h'.above p hq))

end Stamped

/-- If the steps from states of an invariant keep it and hand out new pairs, so do runs. -/
theorem Fallible.exec_stamped {ε σ α β : Type} {f : σ → α → Except ε (σ × List β)}
    {I : σ → Prop} {m : σ → κ → ν} (stamp : β → κ × ν)
    (hstep : ∀ s x s' ys, I s → f s x = .ok (s', ys) →
      Stamped (m s) (ys.map stamp) (m s') ∧ I s')
    {s s' : σ} {xs : List α} {ys : List β} (h : I s) (hrun : Fallible.exec f s xs = .ok (s', ys)) :
    Stamped (m s) (ys.map stamp) (m s') ∧ I s' := by
  refine Fallible.exec_law
    (Q := fun s ys s' => I s → Stamped (m s) (ys.map stamp) (m s') ∧ I s')
    (fun s hs => ⟨.nil fun _ => le_refl _, hs⟩) (fun s ys t zs u h h' hs => ?_)
    (fun x _ s s' ys hf hs => hstep s x s' ys hs hf) hrun h
  rw [List.map_append]
  exact ⟨(h hs).1.append (h' (h hs).2).1, (h' (h hs).2).2⟩

end Basht
