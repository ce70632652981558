import Mathlib.FieldTheory.Finite.Basic
import Mathlib.GroupTheory.SpecificGroups.Cyclic

/-!
# Congruential generators

The states `a ^ n * x` modulo a prime `m`. If `m` divides neither `a - 1` nor `x`, each state
differs from the one before it; if `a` is a primitive root, the states that are not zero form
one cycle (`exists_pow_mul_mod`).
-/

namespace Basht.Congruential

variable {m : ℕ} {a x y : ℕ}

/-- The state behind `x`. -/
def next (a m x : ℕ) : ℕ := a * x % m

theorem next_pow_mul (a m x n : ℕ) : next a m (a ^ n * x % m) = a ^ (n + 1) * x % m := by
  unfold next
  rw [Nat.mul_mod_mod, ← Nat.mul_assoc, ← Nat.pow_succ']

theorem next_mod (a m x : ℕ) : next a m (x % m) = next a m x := Nat.mul_mod_mod a x m

theorem not_dvd_mod (hx : ¬m ∣ x) : 0 < x % m :=
  Nat.pos_of_ne_zero fun hzero => hx (Nat.dvd_of_mod_eq_zero hzero)

theorem not_dvd_pow_mul (hm : m.Prime) (ha : ¬m ∣ a) (hx : ¬m ∣ x) (n : ℕ) :
    ¬m ∣ a ^ n * x := by
  intro hdvd
  rcases (Nat.Prime.dvd_mul hm).mp hdvd with hpow | hdvd
  · exact ha (hm.dvd_of_dvd_pow hpow)
  · exact hx hdvd

theorem next_ne_self (hm : m.Prime) (ha : ¬m ∣ a - 1) (hx : ¬m ∣ x) : next a m x ≠ x := by
  intro hfix
  have hsub : m ∣ a * x - x := by
    have hdiv := Nat.div_add_mod (a * x) m
    unfold next at hfix
    rw [hfix] at hdiv
    exact ⟨a * x / m, by omega⟩
  rw [← Nat.sub_one_mul] at hsub
  exact ((Nat.Prime.dvd_mul hm).mp hsub).elim ha hx

/-- The powers of a primitive root are all units. -/
theorem exists_pow_eq [Fact m.Prime] {u : (ZMod m)ˣ} (hu : orderOf u = m - 1) (v : (ZMod m)ˣ) :
    ∃ n : ℕ, u ^ n = v := by
  have hcard : Nat.card (Subgroup.zpowers u) = Nat.card (ZMod m)ˣ := by
    rw [Nat.card_zpowers, hu, Nat.card_eq_fintype_card, ZMod.card_units]
  have htop : Subgroup.zpowers u = ⊤ := Subgroup.eq_top_of_card_eq _ hcard
  have hv : v ∈ Subgroup.zpowers u := htop ▸ Subgroup.mem_top v
  exact mem_powers_iff_mem_zpowers.mpr hv

/-- With a primitive root, every state is reached from every other. -/
theorem exists_pow_mul_mod (hm : m.Prime) (ha : orderOf (a : ZMod m) = m - 1) (hx : ¬m ∣ x)
    (hy : ¬m ∣ y) : ∃ n : ℕ, 0 < n ∧ a ^ n * y % m = x % m := by
  have : Fact m.Prime := ⟨hm⟩
  have hcast : ∀ z : ℕ, ¬m ∣ z → (z : ZMod m) ≠ 0 := fun z hz hzero =>
    hz ((ZMod.natCast_eq_zero_iff z m).mp hzero)
  have hne : (a : ZMod m) ≠ 0 := by
    intro hzero
    rw [hzero, orderOf_zero] at ha
    have := hm.two_le
    omega
  have hunit : orderOf (Units.mk0 (a : ZMod m) hne) = m - 1 := by
    rw [← orderOf_units]
    exact ha
  obtain ⟨n, hn⟩ := exists_pow_eq hunit
    (Units.mk0 (x : ZMod m) (hcast x hx) * (Units.mk0 (y : ZMod m) (hcast y hy))⁻¹)
  have hpow : (a : ZMod m) ^ n * y = x := by
    have hval := congrArg Units.val (eq_mul_inv_iff_mul_eq.mp hn)
    simpa using hval
  refine ⟨n + (m - 1), by have := hm.two_le; omega, ?_⟩
  have hperiod : (a : ZMod m) ^ (n + (m - 1)) * y = x := by
    rw [pow_add, ← ha, pow_orderOf_eq_one, mul_one, hpow]
  apply (ZMod.natCast_eq_natCast_iff' _ _ m).mp
  push_cast
  exact hperiod

end Basht.Congruential
