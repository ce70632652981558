import Mathlib.NumberTheory.LucasPrimality
import Mathlib.Tactic.NormNum.Prime
import Mathlib.Tactic.ReduceModChar
import Basht.Library.Congruential

/-!
# The random generator of 32 bits (`random.c`)

`intrand32` steps the generator of Park and Miller, `x ↦ 16807 * x mod 2147483647`, in signed
32-bit arithmetic, and `get_urandom32` falls back on it. Each operation of `intrand32` is checked
here, so a result means that none overflows. Since `16807` is a primitive root, the states below
the modulus, zero apart, form one cycle. A seed from the modulus on stays as it is until the first
call, which reduces it.
-/

namespace Basht.Random

open Congruential

/-- A signed 32-bit operation, by its result over the integers. -/
def bits32 (i : Int) : Option Int := if -2 ^ 31 ≤ i ∧ i < 2 ^ 31 then some i else none

/-- The last operation of `intrand32`. -/
def reduce (t : Int) : Option Int := if t < 0 then bits32 (t + 0x7fffffff) else some t

/-- `intrand32`. -/
def intrand32 (last : UInt32) : Option UInt32 := do
  let ret := if last = 0 then 123459876 else last
  let h ← bits32 (ret / 127773).toNat
  let l ← bits32 (ret % 127773).toNat
  let al ← bits32 (16807 * l)
  let rh ← bits32 (2836 * h)
  let t ← bits32 (al - rh)
  let ret ← reduce t
  return UInt32.ofInt ret

/-- The state that `n` calls of `intrand32` reach. -/
def calls : Nat → UInt32 → Option UInt32
  | 0, x => some x
  | n + 1, x => (calls n x).bind intrand32

/-- `rseed32` and `last_rand32`; the latter is an `int` that holds the bits of an unsigned. -/
structure Rand32 where
  rseed32 : UInt32
  last_rand32 : UInt32

/-- `brand32`, with the state that it stores. -/
def brand32 (rseed32 : UInt32) : Option (UInt32 × UInt32) := do
  let rseed32 ← intrand32 rseed32
  return (rseed32, rseed32 &&& 0x7fffffff)

/-- The loop of `get_urandom32`. -/
def newValue (last_rand32 : UInt32) : Nat → UInt32 → Option (UInt32 × UInt32)
  | 0, _ => none
  | fuel + 1, rseed32 => do
    let (rseed32, ret) ← brand32 rseed32
    if ret = last_rand32 then newValue last_rand32 fuel rseed32 else return (rseed32, ret)

/-- `get_urandom32` without `arc4random`: the value with the state behind it. `getrandom` is what
the system call stored, if it did, and `genseed` the value of `genseed`. -/
def getUrandom32 (getrandom : Option UInt32) (subshell_environment : Bool) (genseed : UInt32)
    (fuel : Nat) (s : Rand32) : Option (UInt32 × Rand32) :=
  match getrandom with
  | some ret => some (ret, { s with last_rand32 := ret })
  | none => do
    let rseed32 := if subshell_environment then s.rseed32 ^^^ genseed else s.rseed32
    let (rseed32, ret) ← newValue s.last_rand32 fuel rseed32
    return (ret, { rseed32, last_rand32 := ret })

/-! ## One call -/

/-- The modulus of the generator. -/
def modulus : Nat := 2147483647

/-- A state between zero and the modulus. -/
def InCycle (x : UInt32) : Prop := 0 < x.toNat ∧ x.toNat < modulus

theorem bits32_eq {i : Int} (hlow : -2 ^ 31 ≤ i) (hhigh : i < 2 ^ 31) : bits32 i = some i :=
  if_pos ⟨hlow, hhigh⟩

/-- The seed, `123459876` in place of zero. -/
def effective (x : UInt32) : UInt32 := if x = 0 then 123459876 else x

theorem schrage (x : Nat) : (16807 * x : Int) =
    16807 * (x % 127773 : Nat) - 2836 * (x / 127773 : Nat)
      + 2147483647 * (x / 127773 : Nat) := by
  have hsplit := Nat.div_add_mod x 127773
  omega

theorem reduce_eq {t : Int} (h : Int) (hlow : -0x7fffffff ≤ t) (hhigh : t < 0x7fffffff) :
    reduce t = some ((t + 2147483647 * h) % modulus) := by
  unfold reduce modulus
  split
  · rw [bits32_eq (by omega) (by omega),
      show t + 2147483647 * h = t + 0x7fffffff + 2147483647 * (h - 1) by omega]
    congr 1
    exact ((Int.add_mul_emod_self_left ..).trans (Int.emod_eq_of_lt (by omega) (by omega))).symm
  · congr 1
    exact ((Int.add_mul_emod_self_left ..).trans (Int.emod_eq_of_lt (by omega) hhigh)).symm

theorem ofInt_natCast {n : Nat} (hlt : n < 2 ^ 32) : UInt32.ofInt n = UInt32.ofNat n := by
  have hmod : ((n : Int) % 2 ^ 32).toNat = n := by omega
  exact congrArg UInt32.ofNat hmod

theorem intrand32_eq (x : UInt32) :
    ∃ s, intrand32 x = some s ∧ s.toNat = next 16807 modulus (effective x).toNat := by
  have hlt := (effective x).toNat_lt
  have hl := Nat.mod_lt (effective x).toNat (show 0 < 127773 by decide)
  have hnext : next 16807 modulus (effective x).toNat < modulus := Nat.mod_lt _ (by decide)
  have hquot : (effective x / 127773).toNat = (effective x).toNat / 127773 := UInt32.toNat_div ..
  have hrem : (effective x % 127773).toNat = (effective x).toNat % 127773 := UInt32.toNat_mod ..
  refine ⟨UInt32.ofNat (next 16807 modulus (effective x).toNat), ?_, ?_⟩
  · unfold intrand32
    rw [show (if x = 0 then 123459876 else x) = effective x from rfl]
    dsimp only [Option.bind_eq_bind]
    rw [hquot, hrem, bits32_eq (by omega) (by omega), Option.bind_some,
      bits32_eq (by omega) (by omega), Option.bind_some, bits32_eq (by omega) (by omega),
      Option.bind_some, bits32_eq (by omega) (by omega), Option.bind_some,
      bits32_eq (by omega) (by omega), Option.bind_some,
      reduce_eq ((effective x).toNat / 127773 : Nat) (by omega) (by omega), Option.bind_some,
      ← schrage]
    exact congrArg some (ofInt_natCast (hnext.trans (by decide)))
  · exact UInt32.toNat_ofNat_of_lt' (hnext.trans (by decide))

theorem eq_of_prime_dvd {p : ℕ} (hp : p.Prime) (hdvd : p ∣ modulus - 1) :
    p = 2 ∨ p = 3 ∨ p = 7 ∨ p = 11 ∨ p = 31 ∨ p = 151 ∨ p = 331 := by
  have hfactors : modulus - 1 = [2, 3, 3, 7, 11, 31, 151, 331].prod := rfl
  rw [hfactors, hp.prime.dvd_prod_iff] at hdvd
  obtain ⟨q, hq, hdvd⟩ := hdvd
  have hprime : ∀ q ∈ [2, 3, 3, 7, 11, 31, 151, 331], q.Prime := by norm_num
  have heq := (Nat.prime_dvd_prime_iff_eq hp (hprime q hq)).mp hdvd
  subst heq
  simpa using hq

theorem multiplier_pow : (16807 : ZMod modulus) ^ (modulus - 1) = 1 := by
  unfold modulus
  reduce_mod_char

theorem multiplier_pow_ne {p : ℕ} (hp : p.Prime) (hdvd : p ∣ modulus - 1) :
    (16807 : ZMod modulus) ^ ((modulus - 1) / p) ≠ 1 := by
  rcases eq_of_prime_dvd hp hdvd with rfl | rfl | rfl | rfl | rfl | rfl | rfl <;>
    unfold modulus <;> norm_num <;> reduce_mod_char <;> decide

theorem modulus_prime : modulus.Prime :=
  lucas_primality modulus 16807 multiplier_pow fun _ => multiplier_pow_ne

theorem orderOf_multiplier : orderOf ((16807 : ℕ) : ZMod modulus) = modulus - 1 :=
  orderOf_eq_of_pow_and_pow_div_prime (by decide) multiplier_pow fun _ => multiplier_pow_ne

/-! ## Sequences of calls -/

theorem effective_of_not_dvd {x : UInt32} (hx : ¬modulus ∣ x.toNat) : effective x = x := by
  refine if_neg fun hzero => hx ?_
  rw [hzero]
  exact dvd_zero modulus

theorem InCycle.not_dvd {x : UInt32} (hx : InCycle x) : ¬modulus ∣ x.toNat := fun hdvd =>
  absurd (Nat.le_of_dvd hx.1 hdvd) (Nat.not_le.mpr hx.2)

theorem inCycle_of_eq {s : UInt32} {y n : Nat} (hy : ¬modulus ∣ y)
    (hs : s.toNat = 16807 ^ n * y % modulus) : InCycle s := by
  have hpos := not_dvd_mod (not_dvd_pow_mul modulus_prime (by decide : ¬modulus ∣ 16807) hy n)
  have hlt : 16807 ^ n * y % modulus < modulus := Nat.mod_lt _ (by decide)
  exact ⟨hs ▸ hpos, hs ▸ hlt⟩

theorem calls_succ {x s : UInt32} {n : Nat} (hs : calls n x = some s) :
    calls (n + 1) x = intrand32 s := by
  unfold calls
  rw [hs, Option.bind_some]

/-- The first call reduces the seed; from then on, the states are the powers. -/
theorem calls_eq {x : UInt32} (hx : ¬modulus ∣ x.toNat) (n : Nat) :
    ∃ s, calls n x = some s ∧ ¬modulus ∣ s.toNat ∧
      s.toNat = if n = 0 then x.toNat else 16807 ^ n * x.toNat % modulus := by
  induction n with
  | zero => exact ⟨x, rfl, hx, rfl⟩
  | succ n ih =>
    obtain ⟨s, hs, hdvd, hval⟩ := ih
    obtain ⟨s', hs', hval'⟩ := intrand32_eq s
    rw [effective_of_not_dvd hdvd, hval] at hval'
    have hnext : s'.toNat = 16807 ^ (n + 1) * x.toNat % modulus := by
      rw [hval']
      split
      next hzero =>
        rw [hzero, Nat.zero_add, Nat.pow_one]
        unfold next
        rfl
      next => exact next_pow_mul ..
    refine ⟨s', ?_, (inCycle_of_eq hx hnext).not_dvd, hnext⟩
    rw [calls_succ hs, hs']

example : calls 2 1 = some 282475249 := by decide

/-- A state in the cycle is reached from every seed that is no multiple of the modulus. -/
theorem calls_reach {x s : UInt32} (hx : ¬modulus ∣ x.toNat) (hs : InCycle s) :
    ∃ n, calls n x = some s := by
  obtain ⟨n, hpos, hn⟩ := exists_pow_mul_mod modulus_prime orderOf_multiplier hs.not_dvd hx
  obtain ⟨s', hcalls, -, hval⟩ := calls_eq hx n
  rw [if_neg (by omega), hn, Nat.mod_eq_of_lt hs.2] at hval
  exact ⟨n, UInt32.toNat_inj.mp hval ▸ hcalls⟩

theorem effective_zero : ¬modulus ∣ (effective 0).toNat := by decide

theorem intrand32_inCycle {x : UInt32} (hx : ¬modulus ∣ (effective x).toNat) :
    ∃ s, intrand32 x = some s ∧ InCycle s := by
  obtain ⟨s, hs, hval⟩ := intrand32_eq x
  refine ⟨s, hs, inCycle_of_eq hx (?_ : _ = 16807 ^ 1 * _ % modulus)⟩
  rw [hval, Nat.pow_one]
  unfold next
  rfl

/-- A multiple of the modulus, zero apart, is followed by zero. -/
theorem intrand32_zero {x : UInt32} (hx : modulus ∣ (effective x).toNat) :
    intrand32 x = some 0 := by
  obtain ⟨s, hs, hval⟩ := intrand32_eq x
  unfold next at hval
  rw [Nat.mod_eq_zero_of_dvd (hx.mul_left 16807)] at hval
  rw [hs, UInt32.toNat_inj.mp (hval.trans UInt32.toNat_zero.symm)]

theorem calls_two (x : UInt32) : ∃ n ≤ 2, ∃ s, calls n x = some s ∧ InCycle s := by
  by_cases hx : modulus ∣ (effective x).toNat
  · obtain ⟨s, hs, hcycle⟩ := intrand32_inCycle effective_zero
    refine ⟨2, le_rfl, s, ?_, hcycle⟩
    have hone : calls 1 x = some 0 := (calls_succ rfl).trans (intrand32_zero hx)
    rw [calls_succ hone, hs]
  · obtain ⟨s, hs, hcycle⟩ := intrand32_inCycle hx
    exact ⟨1, by decide, s, (calls_succ rfl).trans hs, hcycle⟩

theorem intrand32_ne {x s : UInt32} (hs : intrand32 x = some s) : s ≠ x := by
  rintro rfl
  by_cases hx : modulus ∣ (effective s).toNat
  · rw [intrand32_zero hx] at hs
    obtain rfl := Option.some.inj hs
    exact effective_zero hx
  · obtain ⟨s', hs', hval⟩ := intrand32_eq s
    obtain rfl := Option.some.inj (hs.symm.trans hs')
    obtain ⟨s', hs'', hcycle⟩ := intrand32_inCycle hx
    obtain rfl := Option.some.inj (hs.symm.trans hs'')
    rw [effective_of_not_dvd hcycle.not_dvd] at hval
    exact next_ne_self modulus_prime (by decide) hcycle.not_dvd hval.symm

/-! ## The loop for a new value -/

theorem brand32_eq (x : UInt32) : ∃ s, intrand32 x = some s ∧ brand32 x = some (s, s) := by
  obtain ⟨s, hs, hval⟩ := intrand32_eq x
  have hlt : s.toNat < modulus := hval ▸ Nat.mod_lt _ (by decide)
  have hand : s &&& 0x7fffffff = s := by
    apply UInt32.toNat_inj.mp
    rw [UInt32.toNat_and]
    exact (Nat.and_two_pow_sub_one_eq_mod _ 31).trans
      (Nat.mod_eq_of_lt (hlt.trans (by decide)))
  refine ⟨s, hs, ?_⟩
  unfold brand32
  rw [hs]
  exact congrArg (fun r => some (s, r)) hand

/-- Two rounds are enough: the value of the second is not that of the first. -/
theorem newValue_isSome (last_rand32 rseed32 : UInt32) :
    (newValue last_rand32 2 rseed32).isSome := by
  obtain ⟨s, -, hs⟩ := brand32_eq rseed32
  obtain ⟨s', hs', hbrand⟩ := brand32_eq s
  have hne := intrand32_ne hs'
  unfold newValue
  rw [hs]
  dsimp only [Option.bind_eq_bind, Option.bind_some]
  split
  next heq =>
    unfold newValue
    rw [hbrand]
    dsimp only [Option.bind_eq_bind, Option.bind_some]
    rw [if_neg (heq ▸ hne)]
    rfl
  next => rfl

/-- The generator is the sequence of Park and Miller. -/
theorem park_miller :
    (∀ x : UInt32, ¬modulus ∣ x.toNat → ∀ n, 0 < n ∨ x.toNat < modulus →
      ∃ s, calls n x = some s ∧ s.toNat = 16807 ^ n * x.toNat % modulus ∧ InCycle s) ∧
    (∀ x, (intrand32 x).isSome) ∧
    (∀ x : UInt32, modulus ∣ x.toNat → ∃ n ≤ 2, ∃ s, calls n x = some s ∧ InCycle s ∧
      ∀ y, InCycle y → (∃ k, calls k s = some y) ∧ ∃ k, calls k y = some s) ∧
    (∀ x s, intrand32 x = some s → s ≠ x) ∧
    ∀ getrandom subshell_environment genseed s,
      ∃ fuel, (getUrandom32 getrandom subshell_environment genseed fuel s).isSome := by
  refine ⟨fun x hx n hn => ?_, fun x => ?_, fun x hx => ?_, fun x s => intrand32_ne, ?_⟩
  · obtain ⟨s, hs, -, hval⟩ := calls_eq hx n
    have hmod : s.toNat = 16807 ^ n * x.toNat % modulus := by
      rw [hval]
      split
      next hzero =>
        rw [hzero, Nat.pow_zero, Nat.one_mul, Nat.mod_eq_of_lt (hn.resolve_left (by omega))]
      next => rfl
    exact ⟨s, hs, hmod, inCycle_of_eq hx hmod⟩
  · obtain ⟨s, hs, -⟩ := intrand32_eq x
    rw [hs]
    rfl
  · obtain ⟨n, hle, s, hs, hcycle⟩ := calls_two x
    exact ⟨n, hle, s, hs, hcycle, fun y hy =>
      ⟨calls_reach hcycle.not_dvd hy, calls_reach hy.not_dvd hcycle⟩⟩
  · intro getrandom subshell_environment genseed s
    refine ⟨2, ?_⟩
    cases getrandom with
    | some ret => rfl
    | none =>
      obtain ⟨r, hr⟩ := Option.isSome_iff_exists.mp (newValue_isSome s.last_rand32
        (if subshell_environment then s.rseed32 ^^^ genseed else s.rseed32))
      unfold getUrandom32
      dsimp only
      rw [hr]
      rfl

/-- A seed beyond the modulus is not reduced before the first call. -/
theorem unreduced_seed : ¬∀ x : UInt32, ¬modulus ∣ x.toNat → ∀ n, ∃ s, calls n x = some s ∧
    s.toNat = 16807 ^ n * x.toNat % modulus ∧ InCycle s := by
  intro hall
  obtain ⟨s, hs, -, hcycle⟩ := hall 2147483648 (by decide) 0
  obtain rfl := Option.some.inj hs
  exact absurd hcycle.2 (by decide)

end Basht.Random
