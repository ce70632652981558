import Mathlib.Algebra.Order.Round
import Mathlib.Data.Rat.Floor
import Mathlib.Data.Nat.Digits.Defs
import Mathlib.Tactic.Ring
import Mathlib.Tactic.Linarith
import Mathlib.Tactic.FieldSimp

/-!
# Decimal fractions

The number that decimal digits make (`number`), the fraction that they make behind a point
(`fraction`), and its rounding to some digits, which looks at one more digit only
(`round_fraction`).
-/

namespace Basht.Decimals

/-- The number of a list of decimal digits, the most significant one first. -/
def number (ds : List Nat) : Nat := Nat.ofDigits 10 ds.reverse

theorem number_nil : number [] = 0 := rfl

theorem number_append (ds es : List Nat) :
    number (ds ++ es) = number ds * 10 ^ es.length + number es := by
  rw [number, number, number, List.reverse_append, Nat.ofDigits_append, List.length_reverse]
  ring

theorem number_singleton (d : Nat) : number [d] = d := Nat.ofDigits_singleton

theorem number_cons (d : Nat) (ds : List Nat) :
    number (d :: ds) = d * 10 ^ ds.length + number ds := by
  rw [← List.singleton_append, number_append, number_singleton]

theorem number_concat (ds : List Nat) (d : Nat) : number (ds ++ [d]) = number ds * 10 + d := by
  rw [number_append, number_singleton]
  rfl

theorem number_lt {ds : List Nat} (h : ∀ d ∈ ds, d < 10) : number ds < 10 ^ ds.length := by
  rw [← List.length_reverse]
  apply Nat.ofDigits_lt_base_pow_length (by decide)
  intro d hd
  exact h d (List.mem_reverse.mp hd)

/-- The fraction of a list of digits behind the point. -/
def fraction (ds : List Nat) : ℚ := number ds / 10 ^ ds.length

theorem fraction_nonneg (ds : List Nat) : 0 ≤ fraction ds := by
  unfold fraction
  positivity

/-- Rounding of the halves away from zero. -/
def roundAway (x : ℚ) : ℤ := if x < 0 then -round (-x) else round x

/-- A remainder of at least one half rounds up. -/
theorem round_div {a b n : Nat} (h : b < n) :
    round ((a * n + b : ℚ) / n) = ((a + if n ≤ 2 * b then 1 else 0 : Nat) : Int) := by
  have hn : (0 : ℚ) < n := by exact_mod_cast Nat.lt_of_le_of_lt (Nat.zero_le b) h
  rw [round_eq_iff, Set.mem_Ico, le_div_iff₀ hn, div_lt_iff₀ hn]
  split
  · rename_i hhalf
    have hb : (b : ℚ) < n := by exact_mod_cast h
    have hhalf' : (n : ℚ) ≤ 2 * b := by exact_mod_cast hhalf
    push_cast
    constructor
    · linarith
    · linarith
  · rename_i hhalf
    have hhalf' : (2 : ℚ) * b < n := by exact_mod_cast Nat.not_le.mp hhalf
    have hb : (0 : ℚ) ≤ b := by exact_mod_cast Nat.zero_le b
    push_cast
    constructor
    · linarith
    · linarith

/-- Nothing is rounded off if there are enough digits. -/
theorem round_fraction_of_le {ds : List Nat} {k : Nat} (h : ds.length ≤ k) :
    round (fraction ds * 10 ^ k) = ((number ds * 10 ^ (k - ds.length) : Nat) : Int) := by
  have hpow : (10 : ℚ) ^ k = 10 ^ ds.length * 10 ^ (k - ds.length) := by
    rw [← pow_add, Nat.add_sub_cancel' h]
  have hval : fraction ds * 10 ^ k = ((number ds * 10 ^ (k - ds.length) : Nat) : ℚ) := by
    rw [fraction, hpow]
    push_cast
    field_simp
  rw [hval, round_natCast]

/-- The first digit that is rounded off decides. -/
theorem round_fraction (ds : List Nat) {d : Nat} {es : List Nat} (hd : d < 10) (hes : ∀ e ∈ es, e < 10) :
    round (fraction (ds ++ d :: es) * 10 ^ ds.length) =
      ((number ds + if 5 ≤ d then 1 else 0 : Nat) : Int) := by
  have hlt : number es < 10 ^ es.length := number_lt hes
  have hval : fraction (ds ++ d :: es) * 10 ^ ds.length =
      (number ds * (10 ^ (es.length + 1) : Nat) + (d * 10 ^ es.length + number es : Nat) : ℚ) /
        (10 ^ (es.length + 1) : Nat) := by
    rw [fraction, number_append, number_cons, List.length_append, List.length_cons, pow_add]
    push_cast
    field_simp
    ring
  have hrest : d * 10 ^ es.length + number es < 10 ^ (es.length + 1) := by
    calc d * 10 ^ es.length + number es < d * 10 ^ es.length + 10 ^ es.length :=
          Nat.add_lt_add_left hlt _
      _ = (d + 1) * 10 ^ es.length := by ring
      _ ≤ 10 * 10 ^ es.length := Nat.mul_le_mul_right _ hd
      _ = 10 ^ (es.length + 1) := by ring
  have hhalf : 10 ^ (es.length + 1) ≤ 2 * (d * 10 ^ es.length + number es) ↔ 5 ≤ d := by
    rw [pow_succ]
    constructor
    · intro h
      by_contra hlow
      have hle : (d + 1) * 10 ^ es.length ≤ 5 * 10 ^ es.length :=
        Nat.mul_le_mul_right _ (by omega)
      rw [Nat.add_mul, Nat.one_mul] at hle
      omega
    · intro h
      have hle := Nat.mul_le_mul_right (10 ^ es.length) h
      omega
  rw [hval, round_div hrest]
  simp only [hhalf]

end Basht.Decimals
