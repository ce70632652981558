import Mathlib.Data.List.TakeWhile
import Basht.Library.Decimals
import Basht.Library.Fallible

/-!
# Decimal timeouts (`uconvert.c`)

`uconvert` reads a decimal number as a whole part and millionths, rounded at the seventh decimal
(`uconvert_parts`). A minus is put on the whole part, or on the millionths if the whole part is
zero, so a negative number that has both is not the sum of its parts (`uconvert_not_sum`).
-/

namespace Basht.Numbers

open Decimals Fallible

/-! ## `uconvert` -/

/-- A result outside of the range of its type. -/
inductive Fault where
  | overflow
deriving DecidableEq

/-- `LONG_MAX`. -/
def longMax : Int := 9223372036854775807

/-- The result of an operation on `long`. -/
def long (n : Int) : Except Fault Int :=
  if -longMax - 1 ≤ n ∧ n ≤ longMax then .ok n else .error .overflow

/-- `DIGIT`. -/
def DIGIT (c : UInt8) : Bool := 0x30 ≤ c && c ≤ 0x39

/-- `*p - '0'`. -/
def digitValue (c : UInt8) : Int := (c.toNat : Int) - 0x30

/-- `DECIMAL`. -/
def DECIMAL : UInt8 := 0x2e

def multiplier : List Int := [1, 100000, 10000, 1000, 100, 10, 1]

/-- What `uconvert` returns and stores; the position is the rest of the string from there. -/
structure Converted where
  ret : Bool
  ip : Int
  up : Int
  ep : Option (List UInt8)
deriving DecidableEq

/-- `RETURN`; `ep` says that there is a place for the position `p`. -/
def RETURN (ipart upart mult : Int) (ep x : Bool) (p : List UInt8) : Except Fault Converted := do
  let i ← long (ipart * mult)
  let u ← long (upart * if ipart = 0 then mult else 1)
  .ok ⟨x, i, u, if ep then some p else none⟩

/-- The loop over the whole part, up to the decimal point, to a character that is not a digit, or
to the end. -/
def wholeLoop (ipart : Int) : List UInt8 → Except Fault (Int × List UInt8)
  | [] => .ok (ipart, [])
  | c :: p =>
    if c = DECIMAL ∨ DIGIT c = false then .ok (ipart, c :: p)
    else do
      let ten ← long (ipart * 10)
      let ipart ← long (ten + digitValue c)
      wholeLoop ipart p

/-- The loop over the decimals, which stops at the same places and after six of them: their
number, `upart`, and `p + n`. -/
def microLoop (n : Nat) (upart : Int) : List UInt8 → Except Fault (Nat × Int × List UInt8)
  | [] => .ok (n, upart, [])
  | c :: p =>
    if 6 ≤ n ∨ DIGIT c = false then .ok (n, upart, c :: p)
    else do
      let ten ← long (upart * 10)
      let upart ← long (ten + digitValue c)
      microLoop (n + 1) upart p

/-- `p[6] >= '5' && p[6] <= '9'`. -/
def roundsUp : List UInt8 → Bool
  | [] => false
  | c :: _ => 0x35 ≤ c && c ≤ 0x39

/-- What is done behind this loop, with the number `n` of decimals, and `q` the rest of the
string. -/
def afterMicro (ipart mult : Int) (ep : Bool) (n : Nat) (upart : Int) (q : List UInt8) :
    Except Fault Converted :=
  if n < 6 ∧ q ≠ [] then
    if ep then
      long (upart * multiplier.getD n 0) >>= fun upart => RETURN ipart upart mult ep false q
    else RETURN ipart upart mult ep false q
  else
    long (upart * multiplier.getD n 0) >>= fun upart =>
      (if n = 6 ∧ roundsUp q then long (upart + 1) else .ok upart) >>= fun upart =>
        RETURN ipart upart mult ep true (q.dropWhile DIGIT)

/-- What is done behind the decimal point. -/
def fractional (ipart mult : Int) (ep : Bool) (p : List UInt8) : Except Fault Converted := do
  let r ← microLoop 0 0 p
  afterMicro ipart mult ep r.1 r.2.1 r.2.2

/-- The sign, and the string behind it. -/
def signOf (s : List UInt8) : Int × List UInt8 :=
  match s with
  | [] => (1, [])
  | c :: p => if c = 0x2d then (-1, p) else if c = 0x2b then (1, p) else (1, c :: p)

/-- `uconvert`. -/
def uconvert (s : List UInt8) (ep : Bool) : Except Fault Converted := do
  let r ← wholeLoop 0 (signOf s).2
  match r.2 with
  | [] => RETURN r.1 0 (signOf s).1 ep true []
  | c :: p =>
    if c = DECIMAL then fractional r.1 (signOf s).1 ep p
    else RETURN r.1 0 (signOf s).1 ep false (c :: p)

example : uconvert [0x31, 0x2e, 0x35] true = .ok ⟨true, 1, 500000, some []⟩ := by decide
example : uconvert [0x2d, 0x31, 0x2e, 0x35] true = .ok ⟨true, -1, 500000, some []⟩ := by decide
example : uconvert [0x2d, 0x2e, 0x35, 0x78] true = .ok ⟨false, 0, -500000, some [0x78]⟩ := by decide

/-! ## What a string denotes -/

def digits (s : List UInt8) : List Nat := s.map fun c => c.toNat - 0x30

/-- An optional sign, which is a minus if it is true, digits, and maybe a point and digits. -/
structure Decimal where
  sign : Option Bool
  whole : List UInt8
  point : Option (List UInt8)
  whole_digits : ∀ c ∈ whole, DIGIT c = true
  point_digits : ∀ ds, point = some ds → ∀ c ∈ ds, DIGIT c = true

/-- The sign as it is written. -/
def signText : Option Bool → List UInt8
  | none => []
  | some true => [0x2d]
  | some false => [0x2b]

def pointText : Option (List UInt8) → List UInt8
  | none => []
  | some ds => DECIMAL :: ds

namespace Decimal

def text (d : Decimal) : List UInt8 := signText d.sign ++ (d.whole ++ pointText d.point)

/-- The digits behind the point. -/
def decimals (d : Decimal) : List UInt8 := d.point.getD []

def signum (d : Decimal) : Int := if d.sign = some true then -1 else 1

/-- The value, without the sign. -/
def magnitude (d : Decimal) : ℚ := number (digits d.whole) + fraction (digits d.decimals)

def value (d : Decimal) : ℚ := d.signum * d.magnitude

end Decimal

/-- The digits that a string starts with, behind a sign. -/
def wholeDigits (s : List UInt8) : List UInt8 := (signOf s).2.takeWhile DIGIT

/-- What follows these digits. -/
def behindWhole (s : List UInt8) : List UInt8 := (signOf s).2.dropWhile DIGIT

/-- The characters behind the point. -/
def decimalsOf (s : List UInt8) : List UInt8 :=
  if (behindWhole s).head? = some DECIMAL then (behindWhole s).tail else []

/-- With six digits behind the point, what follows them are digits. -/
def Checked (s : List UInt8) : Prop :=
  (∀ c ∈ (decimalsOf s).take 6, DIGIT c = true) → ∀ c ∈ (decimalsOf s).drop 6, DIGIT c = true

/-- The string goes on with `t` behind the longest number that it starts with. -/
def IsBehind (s t : List UInt8) : Prop :=
  (∃ d : Decimal, s = d.text ++ t) ∧
    ∀ (d : Decimal) (t' : List UInt8), s = d.text ++ t' → t.length ≤ t'.length

/-! ## Digits -/

theorem DIGIT_iff (c : UInt8) : DIGIT c = true ↔ 0x30 ≤ c.toNat ∧ c.toNat ≤ 0x39 := by
  rw [DIGIT, Bool.and_eq_true, decide_eq_true_eq, decide_eq_true_eq, UInt8.le_iff_toNat_le,
    UInt8.le_iff_toNat_le]
  rfl

theorem digitValue_eq {c : UInt8} (h : DIGIT c = true) :
    digitValue c = ((c.toNat - 0x30 : Nat) : Int) := by
  have hc := (DIGIT_iff c).mp h
  unfold digitValue
  omega

theorem digits_lt {s : List UInt8} (h : ∀ c ∈ s, DIGIT c = true) : ∀ d ∈ digits s, d < 10 := by
  intro d hd
  obtain ⟨c, hc, rfl⟩ := List.mem_map.mp hd
  have hdigit := (DIGIT_iff c).mp (h c hc)
  omega

theorem digits_append (s t : List UInt8) : digits (s ++ t) = digits s ++ digits t :=
  List.map_append

theorem length_digits (s : List UInt8) : (digits s).length = s.length := List.length_map _

/-- The step of both loops. -/
theorem number_digits_concat {c : UInt8} (hc : DIGIT c = true) (s : List UInt8) :
    (number (digits (s ++ [c])) : Int) = (number (digits s) : Int) * 10 + digitValue c := by
  rw [digits_append, show digits [c] = [c.toNat - 0x30] from rfl, number_concat,
    digitValue_eq hc]
  push_cast
  rfl

theorem long_of_le {n : Int} (h₁ : -longMax - 1 ≤ n) (h₂ : n ≤ longMax) : long n = .ok n :=
  if_pos ⟨h₁, h₂⟩

theorem long_of_nonneg {n : Int} (h₁ : 0 ≤ n) (h₂ : n ≤ longMax) : long n = .ok n := by
  unfold longMax at h₂
  apply long_of_le
  · unfold longMax
    omega
  · exact h₂

/-- Neither operation of the step overflows if the result does not. -/
theorem long_step {c : UInt8} (hc : DIGIT c = true) {s : List UInt8}
    (h : (number (digits (s ++ [c])) : Int) ≤ longMax) :
    long ((number (digits s) : Int) * 10) = .ok ((number (digits s) : Int) * 10) ∧
      long ((number (digits s) : Int) * 10 + digitValue c) =
        .ok (number (digits (s ++ [c])) : Int) := by
  have hc' := digitValue_eq hc
  rw [number_digits_concat hc] at h ⊢
  exact ⟨long_of_nonneg (by omega) (by omega), long_of_nonneg (by omega) h⟩

theorem number_digits_mono (s t : List UInt8) :
    number (digits s) ≤ number (digits (s ++ t)) := by
  rw [digits_append, number_append]
  calc number (digits s) = number (digits s) * 1 := (Nat.mul_one _).symm
    _ ≤ number (digits s) * 10 ^ (digits t).length :=
        Nat.mul_le_mul_left _ (Nat.one_le_pow _ _ (by decide))
    _ ≤ _ := Nat.le_add_right _ _

/-! ## The loops -/

theorem not_DIGIT_DECIMAL : DIGIT DECIMAL = false := rfl

/-- Where both loops stop. -/
theorem takeWhile_cons_of_not {c : UInt8} (hc : DIGIT c = false) (p : List UInt8) :
    (c :: p).takeWhile DIGIT = [] ∧ (c :: p).dropWhile DIGIT = c :: p := by
  have hc' : ¬DIGIT c = true := by
    rw [hc]
    exact Bool.false_ne_true
  exact ⟨List.takeWhile_cons_of_neg hc', List.dropWhile_cons_of_neg hc'⟩

/-- Behind the digits `ds`, the loop reads the others. -/
theorem wholeLoop_eq (ds p : List UInt8)
    (h : (number (digits (ds ++ p.takeWhile DIGIT)) : Int) ≤ longMax) :
    wholeLoop (number (digits ds)) p =
      .ok ((number (digits (ds ++ p.takeWhile DIGIT)) : Int), p.dropWhile DIGIT) := by
  induction p generalizing ds with
  | nil =>
    rw [wholeLoop, List.takeWhile_nil, List.append_nil]
    rfl
  | cons c p ih =>
    cases hc : DIGIT c with
    | false =>
      obtain ⟨htake, hdrop⟩ := takeWhile_cons_of_not hc p
      rw [wholeLoop, if_pos (Or.inr hc), htake, hdrop, List.append_nil]
    | true =>
      have hne : ¬(c = DECIMAL ∨ DIGIT c = false) := by
        rw [hc]
        intro h
        rcases h with rfl | h
        · cases hc
        · cases h
      rw [List.takeWhile_cons_of_pos hc, List.append_cons] at h ⊢
      have hle : (number (digits (ds ++ [c])) : Int) ≤ longMax := by
        have hmono := number_digits_mono (ds ++ [c]) (p.takeWhile DIGIT)
        omega
      obtain ⟨hten, hstep⟩ := long_step hc hle
      rw [wholeLoop, if_neg hne, hten, List.dropWhile_cons_of_pos hc, ← ih (ds ++ [c]) h]
      change (long _ >>= fun ipart => wholeLoop ipart p) = _
      rw [hstep]
      rfl

/-- Behind the decimals `ds`, the loop reads the others of the first six. -/
theorem microLoop_split (ds p : List UInt8) (hds : ∀ c ∈ ds, DIGIT c = true)
    (hlen : ds.length ≤ 6) :
    ∃ es q, p = es ++ q ∧ (∀ c ∈ ds ++ es, DIGIT c = true) ∧ (ds ++ es).length ≤ 6 ∧
      ((ds ++ es).length < 6 → ∀ c ∈ q.head?, DIGIT c = false) ∧
      microLoop ds.length (number (digits ds)) p =
        .ok ((ds ++ es).length, (number (digits (ds ++ es)) : Int), q) := by
  induction p generalizing ds with
  | nil =>
    refine ⟨[], [], rfl, ?_, ?_, ?_, ?_⟩
    · rwa [List.append_nil]
    · rwa [List.append_nil]
    · intro _ c hc
      cases hc
    · rw [List.append_nil]
      rfl
  | cons c p ih =>
    by_cases hstop : 6 ≤ ds.length ∨ DIGIT c = false
    · refine ⟨[], c :: p, rfl, ?_, ?_, ?_, ?_⟩
      · rwa [List.append_nil]
      · rwa [List.append_nil]
      · intro hlt x hx
        rw [List.append_nil] at hlt
        cases hx
        exact hstop.resolve_left (Nat.not_le.mpr hlt)
      · rw [List.append_nil, microLoop, if_pos hstop]
    · have hc : DIGIT c = true := by
        rw [← Bool.not_eq_false]
        exact fun h => hstop (Or.inr h)
      have hlt : ds.length < 6 := Nat.not_le.mp fun h => hstop (Or.inl h)
      have hall : ∀ x ∈ ds ++ [c], DIGIT x = true := by
        intro x hx
        rcases List.mem_append.mp hx with hx | hx
        · exact hds x hx
        · rw [List.mem_singleton.mp hx]
          exact hc
      have hlen' : (ds ++ [c]).length ≤ 6 := by
        rw [List.length_append, List.length_singleton]
        exact hlt
      have hle : (number (digits (ds ++ [c])) : Int) ≤ longMax := by
        have hbound := number_lt (digits_lt hall)
        rw [length_digits] at hbound
        have hpow : 10 ^ (ds ++ [c]).length ≤ 10 ^ 6 := Nat.pow_le_pow_right (by decide) hlen'
        unfold longMax
        omega
      obtain ⟨es, q, hp, hes, hlen6, hhead, hloop⟩ := ih (ds ++ [c]) hall hlen'
      obtain ⟨hten, hstep⟩ := long_step hc hle
      refine ⟨c :: es, q, ?_, ?_, ?_, ?_, ?_⟩
      · rw [hp, List.cons_append]
      · rwa [List.append_cons]
      · rwa [List.append_cons]
      · rwa [List.append_cons]
      · rw [List.append_cons, ← hloop, microLoop, if_neg hstop, hten, List.length_append]
        change (long _ >>= fun upart => microLoop (ds.length + 1) upart p) = _
        rw [hstep]
        rfl

/-! ## The parts -/

/-- The millionths: six decimals, and the seventh rounded off. -/
def micros (p : List UInt8) : Nat :=
  number (digits (p.take 6)) * 10 ^ (6 - (p.take 6).length) +
    if roundsUp (p.drop 6) then 1 else 0

theorem multiplier_eq {n : Nat} (h : n ≤ 6) (hzero : n ≠ 0) :
    multiplier.getD n 0 = ((10 ^ (6 - n) : Nat) : Int) := by
  obtain rfl | rfl | rfl | rfl | rfl | rfl : n = 1 ∨ n = 2 ∨ n = 3 ∨ n = 4 ∨ n = 5 ∨ n = 6 := by
    omega
  all_goals rfl

theorem scaled_eq {ds : List UInt8} (hds : ∀ c ∈ ds, DIGIT c = true) (h : ds.length ≤ 6) :
    (number (digits ds) : Int) * multiplier.getD ds.length 0 =
        ((number (digits ds) * 10 ^ (6 - ds.length) : Nat) : Int) ∧
      number (digits ds) * 10 ^ (6 - ds.length) < 1000000 := by
  have hlt := number_lt (digits_lt hds)
  rw [length_digits] at hlt
  constructor
  · cases ds with
    | nil => rfl
    | cons c ds =>
      rw [multiplier_eq h (Nat.succ_ne_zero _)]
      push_cast
      rfl
  · calc number (digits ds) * 10 ^ (6 - ds.length)
        < 10 ^ ds.length * 10 ^ (6 - ds.length) :=
          Nat.mul_lt_mul_of_pos_right hlt (Nat.pow_pos (by decide))
      _ = 10 ^ 6 := by rw [← pow_add, Nat.add_sub_cancel' h]

theorem RETURN_eq {ipart upart mult : Int} (hipart : 0 ≤ ipart ∧ ipart ≤ longMax)
    (hupart : 0 ≤ upart ∧ upart ≤ longMax) (hmult : mult = 1 ∨ mult = -1) (ep x : Bool)
    (p : List UInt8) :
    RETURN ipart upart mult ep x p =
      .ok ⟨x, ipart * mult, upart * if ipart = 0 then mult else 1, if ep then some p else none⟩ := by
  have hlong : ∀ n : Int, 0 ≤ n ∧ n ≤ longMax → ∀ m : Int, m = 1 ∨ m = -1 →
      long (n * m) = .ok (n * m) := by
    intro n hn m hm
    rcases hm with rfl | rfl
    · exact long_of_le (by omega) (by omega)
    · exact long_of_le (by omega) (by omega)
  have hsign : (if ipart = 0 then mult else 1) = 1 ∨ (if ipart = 0 then mult else 1) = -1 := by
    split
    · exact hmult
    · exact Or.inl rfl
  unfold RETURN
  rw [hlong ipart hipart mult hmult, hlong upart hupart _ hsign]
  rfl

/-- A character among the first six decimals that is not a digit. -/
theorem afterMicro_stopped {ipart mult : Int} (hipart : 0 ≤ ipart ∧ ipart ≤ longMax)
    (hmult : mult = 1 ∨ mult = -1) (ep : Bool) {es q : List UInt8} {c : UInt8}
    (hes : ∀ c ∈ es, DIGIT c = true) (hlt : es.length < 6) :
    ∃ r, afterMicro ipart mult ep es.length (number (digits es)) (c :: q) = .ok r ∧
      r.ep = (if ep then some (c :: q) else none) ∧ r.ret = false := by
  obtain ⟨hscaled, hbound⟩ := scaled_eq hes (Nat.le_of_lt hlt)
  have hlongMax : (1000000 : Int) ≤ longMax := by decide
  have hnumber : number (digits es) ≤ number (digits es) * 10 ^ (6 - es.length) :=
    Nat.le_mul_of_pos_right _ (Nat.pow_pos (by decide))
  unfold afterMicro
  rw [if_pos ⟨hlt, List.cons_ne_nil c q⟩]
  cases ep with
  | true =>
    rw [if_pos rfl, hscaled, long_of_nonneg (Int.natCast_nonneg _) (by omega)]
    exact ⟨_, RETURN_eq hipart ⟨Int.natCast_nonneg _, by omega⟩ hmult true false _, rfl, rfl⟩
  | false =>
    rw [if_neg Bool.false_ne_true]
    exact ⟨_, RETURN_eq hipart ⟨Int.natCast_nonneg _, by omega⟩ hmult false false _, rfl, rfl⟩

/-- The first six decimals, or all of fewer, are digits. -/
theorem afterMicro_read {ipart mult : Int} (hipart : 0 ≤ ipart ∧ ipart ≤ longMax)
    (hmult : mult = 1 ∨ mult = -1) (ep : Bool) {es q : List UInt8}
    (hes : ∀ c ∈ es, DIGIT c = true) (hlen : es.length ≤ 6) (hq : es.length < 6 → q = []) :
    afterMicro ipart mult ep es.length (number (digits es)) q =
      .ok ⟨true, ipart * mult, (micros (es ++ q) : Int) * if ipart = 0 then mult else 1,
        if ep then some (q.dropWhile DIGIT) else none⟩ := by
  obtain ⟨hscaled, hbound⟩ := scaled_eq hes hlen
  have hlongMax : (1000000 : Int) ≤ longMax := by decide
  have hstop : ¬(es.length < 6 ∧ q ≠ []) := fun h => h.2 (hq h.1)
  have htake : (es ++ q).take 6 = es ∧ ((es.length = 6 ∧ roundsUp q = true) ↔
      roundsUp ((es ++ q).drop 6) = true) := by
    by_cases hsix : es.length = 6
    · rw [← hsix, List.take_left, List.drop_left]
      exact ⟨rfl, and_iff_right rfl⟩
    · rw [hq (Nat.lt_of_le_of_ne hlen hsix), List.append_nil, List.take_of_length_le hlen,
        List.drop_of_length_le hlen]
      exact ⟨rfl, and_iff_right_of_imp fun h => absurd h Bool.false_ne_true⟩
  have hmicros : micros (es ++ q) = number (digits es) * 10 ^ (6 - es.length) +
      if es.length = 6 ∧ roundsUp q = true then 1 else 0 := by
    rw [micros, htake.1]
    simp only [htake.2]
  generalize number (digits es) * 10 ^ (6 - es.length) = scaled at hscaled hbound hmicros
  have hlong : long (scaled : Int) = .ok (scaled : Int) :=
    long_of_nonneg (Int.natCast_nonneg _) (by omega)
  unfold afterMicro
  rw [if_neg hstop, hscaled, hlong, hmicros, ok_bind]
  by_cases hup : es.length = 6 ∧ roundsUp q = true
  · have hlong' : long ((scaled : Int) + 1) = .ok ((scaled + 1 : Nat) : Int) :=
      long_of_nonneg (by omega) (by omega)
    rw [if_pos hup, if_pos hup, hlong']
    exact RETURN_eq hipart ⟨Int.natCast_nonneg _, by omega⟩ hmult ep true _
  · rw [if_neg hup, if_neg hup, Nat.add_zero]
    exact RETURN_eq hipart ⟨Int.natCast_nonneg _, by omega⟩ hmult ep true _

/-- What is done behind the point. -/
theorem fractional_eq {ipart mult : Int} (hipart : 0 ≤ ipart ∧ ipart ≤ longMax)
    (hmult : mult = 1 ∨ mult = -1) (ep : Bool) (p : List UInt8) :
    ∃ r, fractional ipart mult ep p = .ok r ∧
      r.ep = (if ep then some (p.dropWhile DIGIT) else none) ∧
      (r.ret = true ↔ ∀ c ∈ p.take 6, DIGIT c = true) ∧
      (r.ret = true → r.ip = ipart * mult ∧
        r.up = (micros p : Int) * if ipart = 0 then mult else 1) := by
  obtain ⟨es, q, rfl, hes, hlen, hhead, hloop⟩ := microLoop_split [] p (by simp) (by simp)
  rw [List.nil_append] at hes hlen hhead hloop
  have hdrop : (es ++ q).dropWhile DIGIT = q.dropWhile DIGIT :=
    List.dropWhile_append_of_pos hes
  unfold fractional
  rw [show microLoop 0 0 (es ++ q) = _ from hloop, hdrop]
  change ∃ r, afterMicro ipart mult ep es.length (number (digits es)) q = .ok r ∧ _
  by_cases hstop : es.length < 6 ∧ q ≠ []
  · obtain ⟨hlt, hne⟩ := hstop
    obtain ⟨c, q, rfl⟩ := List.exists_cons_of_ne_nil hne
    have hc : DIGIT c = false := hhead hlt c rfl
    have hmem : c ∈ (es ++ c :: q).take 6 := by
      obtain ⟨k, hk⟩ := Nat.exists_eq_add_of_lt hlt
      rw [hk, Nat.add_assoc, List.take_length_add_append, List.take_succ_cons]
      exact List.mem_append_right _ List.mem_cons_self
    obtain ⟨r, hr, hep, hret⟩ := afterMicro_stopped (q := q) (c := c) hipart hmult ep hes hlt
    refine ⟨r, hr, ?_, ?_, ?_⟩
    · rw [hep, (takeWhile_cons_of_not hc q).2]
    · rw [hret]
      refine iff_of_false Bool.false_ne_true ?_
      intro h
      rw [h c hmem] at hc
      cases hc
    · rw [hret]
      intro h
      cases h
  · have hq : es.length < 6 → q = [] := by
      intro hlt
      by_contra hne
      exact hstop ⟨hlt, hne⟩
    refine ⟨_, afterMicro_read hipart hmult ep hes hlen hq, rfl, iff_of_true rfl ?_, ?_⟩
    · intro c hc
      rcases List.mem_append.mp (List.mem_of_mem_take hc) with hmem | hmem
      · exact hes c hmem
      · have hlen6 : es.length = 6 := by
          by_contra hne
          rw [hq (Nat.lt_of_le_of_ne hlen hne)] at hmem
          cases hmem
        rw [← hlen6, List.take_left] at hc
        exact hes c hc
    · intro _
      exact ⟨rfl, rfl⟩

/-- What follows the number that a string starts with. -/
def behind (s : List UInt8) : List UInt8 :=
  if (behindWhole s).head? = some DECIMAL then (behindWhole s).tail.dropWhile DIGIT
  else behindWhole s

theorem signOf_text (s : List UInt8) :
    ∃ sign, s = signText sign ++ (signOf s).2 ∧
      (signOf s).1 = if sign = some true then -1 else 1 := by
  unfold signOf
  cases s with
  | nil => exact ⟨none, rfl, rfl⟩
  | cons c p =>
    by_cases hminus : c = 0x2d
    · simp only [if_pos hminus]
      exact ⟨some true, congrArg (· :: p) hminus, rfl⟩
    · by_cases hplus : c = 0x2b
      · simp only [if_neg hminus, if_pos hplus]
        exact ⟨some false, congrArg (· :: p) hplus, rfl⟩
      · simp only [if_neg hminus, if_neg hplus]
        exact ⟨none, rfl, rfl⟩

theorem signOf_sign (s : List UInt8) : (signOf s).1 = 1 ∨ (signOf s).1 = -1 := by
  obtain ⟨sign, -, hsign⟩ := signOf_text s
  rw [hsign]
  split
  · exact Or.inr rfl
  · exact Or.inl rfl

theorem uconvert_eq {s : List UInt8} (h : (number (digits (wholeDigits s)) : Int) ≤ longMax)
    (ep : Bool) :
    ∃ r, uconvert s ep = .ok r ∧ r.ep = (if ep then some (behind s) else none) ∧
      (r.ret = true ↔ (behindWhole s = [] ∨ (behindWhole s).head? = some DECIMAL) ∧
        ∀ c ∈ (decimalsOf s).take 6, DIGIT c = true) ∧
      (r.ret = true → r.ip = number (digits (wholeDigits s)) * (signOf s).1 ∧
        r.up = (micros (decimalsOf s) : Int) *
          if (number (digits (wholeDigits s)) : Int) = 0 then (signOf s).1 else 1) := by
  have hloop : wholeLoop 0 (signOf s).2 =
      .ok ((number (digits (wholeDigits s)) : Int), behindWhole s) := wholeLoop_eq [] _ h
  have hnonneg : (0 : Int) ≤ number (digits (wholeDigits s)) := Int.natCast_nonneg _
  have hzero : (0 : Int) ≤ 0 ∧ (0 : Int) ≤ longMax := by decide
  have hsign := signOf_sign s
  unfold uconvert
  rw [hloop, ok_bind]
  unfold behind decimalsOf
  cases hbehind : behindWhole s with
  | nil =>
    refine ⟨_, RETURN_eq ⟨hnonneg, h⟩ hzero hsign ep true [], rfl, ?_, ?_⟩
    · refine iff_of_true rfl ⟨Or.inl rfl, ?_⟩
      intro c hc
      cases hc
    · intro _
      exact ⟨rfl, rfl⟩
  | cons c p =>
    simp only [List.head?_cons, Option.some.injEq, List.tail_cons]
    by_cases hc : c = DECIMAL
    · obtain ⟨r, hr, hep, hret, hparts⟩ := fractional_eq ⟨hnonneg, h⟩ hsign ep p
      simp only [if_pos hc, hr]
      refine ⟨r, rfl, hep, ?_, hparts⟩
      rw [hret]
      exact (and_iff_right (Or.inr hc)).symm
    · simp only [if_neg hc]
      refine ⟨_, RETURN_eq ⟨hnonneg, h⟩ hzero hsign ep false (c :: p), rfl, ?_, ?_⟩
      · refine iff_of_false Bool.false_ne_true ?_
        intro h
        rcases h.1 with h | h
        · cases h
        · exact hc h
      · intro h
        cases h

/-! ## The numbers that a string starts with -/

theorem mem_takeWhile_DIGIT (p : List UInt8) : ∀ c ∈ p.takeWhile DIGIT, DIGIT c = true :=
  fun _ => List.mem_takeWhile_imp

theorem behind_text (s : List UInt8) : ∃ d : Decimal, s = d.text ++ behind s := by
  obtain ⟨sign, hsign, -⟩ := signOf_text s
  have hsplit : (signOf s).2 = wholeDigits s ++ behindWhole s :=
    (List.takeWhile_append_dropWhile).symm
  unfold behind
  by_cases hpoint : (behindWhole s).head? = some DECIMAL
  · obtain ⟨p, hp⟩ := List.head?_eq_some_iff.mp hpoint
    refine ⟨⟨sign, wholeDigits s, some (p.takeWhile DIGIT), mem_takeWhile_DIGIT _, ?_⟩, ?_⟩
    · intro ds hds
      rw [← Option.some.inj hds]
      exact mem_takeWhile_DIGIT p
    · rw [if_pos hpoint, hp]
      change s = (signText sign ++ (wholeDigits s ++ DECIMAL :: p.takeWhile DIGIT)) ++
        p.dropWhile DIGIT
      rw [List.append_assoc, List.append_assoc, List.cons_append,
        List.takeWhile_append_dropWhile, ← hp, ← hsplit]
      exact hsign
  · refine ⟨⟨sign, wholeDigits s, none, mem_takeWhile_DIGIT _, ?_⟩, ?_⟩
    · intro ds hds
      cases hds
    · rw [if_neg hpoint]
      change s = (signText sign ++ (wholeDigits s ++ [])) ++ behindWhole s
      rw [List.append_nil, List.append_assoc, ← hsplit]
      exact hsign

/-- The string starts with no sign. -/
def Unsigned (s : List UInt8) : Prop := s.head? ≠ some 0x2d ∧ s.head? ≠ some 0x2b

theorem signOf_append {sign : Option Bool} {x : List UInt8} (h : sign = none → Unsigned x) :
    signOf (signText sign ++ x) = (if sign = some true then -1 else 1, x) := by
  cases sign with
  | some minus =>
    cases minus with
    | true => rfl
    | false => rfl
  | none =>
    obtain ⟨hminus, hplus⟩ := h rfl
    cases x with
    | nil => rfl
    | cons c p =>
      have hminus' : ¬c = 0x2d := fun hc => hminus (congrArg some hc)
      have hplus' : ¬c = 0x2b := fun hc => hplus (congrArg some hc)
      change signOf (c :: p) = _
      simp only [signOf, if_neg hminus', if_neg hplus']
      rfl

theorem unsigned_of_DIGIT {c : UInt8} (hc : DIGIT c = true) (p : List UInt8) :
    Unsigned (c :: p) := by
  have hdigit := (DIGIT_iff c).mp hc
  constructor
  · intro h
    rw [Option.some.inj h] at hdigit
    exact absurd hdigit.1 (by decide)
  · intro h
    rw [Option.some.inj h] at hdigit
    exact absurd hdigit.1 (by decide)

namespace Decimal

/-- Behind its sign, a number starts with none. -/
theorem unsigned (d : Decimal) {t : List UInt8}
    (h : d.whole = [] → d.point = none → Unsigned t) :
    Unsigned (d.whole ++ (pointText d.point ++ t)) := by
  cases hwhole : d.whole with
  | cons c p =>
    apply unsigned_of_DIGIT
    apply d.whole_digits
    rw [hwhole]
    exact List.mem_cons_self
  | nil =>
    cases hpoint : d.point with
    | some ds =>
      constructor
      · intro hc
        cases hc
      · intro hc
        cases hc
    | none => exact h hwhole hpoint

theorem text_append (d : Decimal) (t : List UInt8) :
    d.text ++ t = signText d.sign ++ (d.whole ++ (pointText d.point ++ t)) := by
  rw [text, List.append_assoc, List.append_assoc]

end Decimal

theorem dropWhile_length_le (p : List UInt8) : (p.dropWhile DIGIT).length ≤ p.length :=
  (List.dropWhile_sublist DIGIT).length_le

/-- No number that a string starts with is longer. -/
theorem behind_le (d : Decimal) (t : List UInt8) : (behind (d.text ++ t)).length ≤ t.length := by
  by_cases hbare : d.sign = none ∧ d.whole = [] ∧ d.point = none
  · obtain ⟨hsign, hwhole, hpoint⟩ := hbare
    have ht : d.text ++ t = t := by
      rw [Decimal.text_append, hsign, hwhole, hpoint]
      rfl
    obtain ⟨d', hd'⟩ := behind_text t
    have hlen := congrArg List.length hd'
    rw [List.length_append] at hlen
    rw [ht]
    omega
  · have hunsigned : d.sign = none → Unsigned (d.whole ++ (pointText d.point ++ t)) := by
      intro hsign
      apply d.unsigned
      intro hwhole hpoint
      exact absurd ⟨hsign, hwhole, hpoint⟩ hbare
    have hwhole : behindWhole (d.text ++ t) = (pointText d.point ++ t).dropWhile DIGIT := by
      rw [behindWhole, Decimal.text_append, signOf_append hunsigned]
      exact List.dropWhile_append_of_pos d.whole_digits
    unfold behind
    rw [hwhole]
    cases hpoint : d.point with
    | none =>
      change (if (t.dropWhile DIGIT).head? = some DECIMAL then _ else _ : List UInt8).length ≤ _
      split
      · calc ((t.dropWhile DIGIT).tail.dropWhile DIGIT).length
            ≤ (t.dropWhile DIGIT).tail.length := dropWhile_length_le _
          _ ≤ (t.dropWhile DIGIT).length := by
            rw [List.length_tail]
            exact Nat.sub_le _ _
          _ ≤ t.length := dropWhile_length_le t
      · exact dropWhile_length_le t
    | some ds =>
      have hdrop : (pointText (some ds) ++ t).dropWhile DIGIT = DECIMAL :: (ds ++ t) :=
        (takeWhile_cons_of_not not_DIGIT_DECIMAL _).2
      rw [hdrop, if_pos (List.head?_cons ..), List.tail_cons,
        List.dropWhile_append_of_pos (d.point_digits ds hpoint)]
      exact dropWhile_length_le t

/-- The whole string is a number if nothing follows the one that it starts with. -/
theorem behind_eq_nil_iff (s : List UInt8) : behind s = [] ↔ ∃ d : Decimal, d.text = s := by
  constructor
  · intro h
    obtain ⟨d, hd⟩ := behind_text s
    rw [h, List.append_nil] at hd
    exact ⟨d, hd.symm⟩
  · intro h
    obtain ⟨d, rfl⟩ := h
    have hle := behind_le d []
    rw [List.append_nil] at hle
    exact List.eq_nil_of_length_eq_zero (Nat.le_zero.mp hle)

/-- With the characters behind six decimals checked, the test of the code is that for a number. -/
theorem returns_iff {s : List UInt8} (h : Checked s) :
    ((behindWhole s = [] ∨ (behindWhole s).head? = some DECIMAL) ∧
      ∀ c ∈ (decimalsOf s).take 6, DIGIT c = true) ↔ behind s = [] := by
  unfold Checked decimalsOf at h
  unfold behind decimalsOf
  by_cases hpoint : (behindWhole s).head? = some DECIMAL
  · rw [if_pos hpoint] at h
    rw [if_pos hpoint, if_pos hpoint, and_iff_right (Or.inr hpoint), List.dropWhile_eq_nil_iff]
    constructor
    · intro htake c hc
      rw [← List.take_append_drop 6 (behindWhole s).tail] at hc
      rcases List.mem_append.mp hc with hc | hc
      · exact htake c hc
      · exact h htake c hc
    · intro hall c hc
      exact hall c (List.mem_of_mem_take hc)
  · rw [if_neg hpoint, if_neg hpoint, or_iff_left hpoint]
    apply and_iff_left
    intro c hc
    cases hc

/-! ## Rounding -/

theorem roundsUp_iff {c : UInt8} (hc : DIGIT c = true) (p : List UInt8) :
    roundsUp (c :: p) = true ↔ 5 ≤ c.toNat - 0x30 := by
  have hdigit := (DIGIT_iff c).mp hc
  rw [roundsUp, Bool.and_eq_true, decide_eq_true_eq, decide_eq_true_eq, UInt8.le_iff_toNat_le,
    UInt8.le_iff_toNat_le]
  change 53 ≤ c.toNat ∧ c.toNat ≤ 57 ↔ _
  omega

/-- The millionths are those of the fraction. -/
theorem round_micros {ds : List UInt8} (hds : ∀ c ∈ ds, DIGIT c = true) :
    round (fraction (digits ds) * 1000000) = (micros ds : Int) := by
  have hpow : (1000000 : ℚ) = 10 ^ 6 := by norm_num
  rw [hpow]
  by_cases hlen : ds.length ≤ 6
  · rw [micros, List.take_of_length_le hlen, List.drop_of_length_le hlen,
      round_fraction_of_le (by rw [length_digits]; exact hlen), length_digits,
      if_neg (show ¬roundsUp [] = true from Bool.false_ne_true), Nat.add_zero]
  · obtain ⟨c, es, hces⟩ : ∃ c es, ds.drop 6 = c :: es := by
      apply List.exists_cons_of_ne_nil
      intro hnil
      exact hlen (List.drop_eq_nil_iff.mp hnil)
    have htake : (ds.take 6).length = 6 := by
      rw [List.length_take]
      omega
    have hc : DIGIT c = true := by
      apply hds
      apply List.mem_of_mem_drop (i := 6)
      rw [hces]
      exact List.mem_cons_self
    have hes : ∀ e ∈ es, DIGIT e = true := by
      intro e he
      apply hds
      apply List.mem_of_mem_drop (i := 6)
      rw [hces]
      exact List.mem_cons_of_mem c he
    have hsplit : digits ds = digits (ds.take 6) ++ (c.toNat - 0x30) :: digits es := by
      rw [show (c.toNat - 0x30) :: digits es = digits (c :: es) from rfl, ← digits_append, ← hces,
        List.take_append_drop]
    have hdigit := (DIGIT_iff c).mp hc
    have hround := round_fraction (digits (ds.take 6)) (show c.toNat - 0x30 < 10 by omega)
      (digits_lt hes)
    rw [length_digits, htake, ← hsplit] at hround
    rw [hround, micros, htake, hces]
    simp only [roundsUp_iff hc, Nat.sub_self, pow_zero, Nat.mul_one]

namespace Decimal

theorem signOf_eq (d : Decimal) :
    signOf d.text = (d.signum, d.whole ++ pointText d.point) := by
  have hunsigned : Unsigned (d.whole ++ (pointText d.point ++ [])) := by
    apply d.unsigned
    intro _ _
    exact ⟨Option.some_ne_none _ ∘ Eq.symm, Option.some_ne_none _ ∘ Eq.symm⟩
  rw [List.append_nil] at hunsigned
  exact signOf_append fun _ => hunsigned

theorem pointText_head (d : Decimal) : (pointText d.point).takeWhile DIGIT = [] ∧
    (pointText d.point).dropWhile DIGIT = pointText d.point := by
  cases d.point with
  | none => exact ⟨rfl, rfl⟩
  | some ds => exact takeWhile_cons_of_not not_DIGIT_DECIMAL ds

theorem wholeDigits_eq (d : Decimal) : wholeDigits d.text = d.whole := by
  rw [wholeDigits, d.signOf_eq, List.takeWhile_append_of_pos d.whole_digits, d.pointText_head.1,
    List.append_nil]

theorem behindWhole_eq (d : Decimal) : behindWhole d.text = pointText d.point := by
  rw [behindWhole, d.signOf_eq, List.dropWhile_append_of_pos d.whole_digits, d.pointText_head.2]

theorem decimalsOf_eq (d : Decimal) : decimalsOf d.text = d.decimals := by
  rw [decimalsOf, d.behindWhole_eq, decimals]
  cases d.point with
  | none => rfl
  | some ds => rfl

theorem decimals_digits (d : Decimal) : ∀ c ∈ d.decimals, DIGIT c = true := by
  unfold decimals
  cases hpoint : d.point with
  | none =>
    intro c hc
    cases hc
  | some ds => exact d.point_digits ds hpoint

/-- The rounded magnitude, by its parts. -/
theorem round_magnitude (d : Decimal) : round (d.magnitude * 1000000) =
    (number (digits d.whole) : Int) * 1000000 + micros d.decimals := by
  rw [← round_micros d.decimals_digits, magnitude, add_mul]
  have hcast : (number (digits d.whole) : ℚ) * 1000000 =
      ((number (digits d.whole) * 1000000 : Nat) : ℚ) := by
    push_cast
    rfl
  rw [hcast, round_natCast_add]
  push_cast
  rfl

/-- No carry into the whole part. -/
theorem micros_lt (d : Decimal) (h : fraction (digits d.decimals) < 9999995 / 10000000) :
    micros d.decimals < 1000000 := by
  have hround : round (fraction (digits d.decimals) * 1000000) < 1000000 := by
    rw [round_eq, Int.floor_lt]
    push_cast
    linarith
  rw [round_micros d.decimals_digits] at hround
  exact_mod_cast hround

end Decimal

/-! ## The whole conversion -/

/-- With a whole part that fits in a `long`, nothing overflows and the position is that behind the
number. If what follows six decimals are digits, exactly the numbers are converted, and if the
fraction does not round up to one, the parts are those of the rounded magnitude, and the first that
is not zero has the sign. -/
theorem uconvert_parts {s : List UInt8}
    (h : (number (digits (wholeDigits s)) : Int) ≤ longMax) :
    ∃ r r', uconvert s false = .ok r ∧ uconvert s true = .ok r' ∧
      (∃ t, r'.ep = some t ∧ IsBehind s t) ∧
      (Checked s → (r.ret = true ↔ ∃ d : Decimal, d.text = s)) ∧
      ∀ d : Decimal, d.text = s → fraction (digits d.decimals) < 9999995 / 10000000 →
        r.ret = true ∧ ∃ m : Int, 0 ≤ m ∧ m < 1000000 ∧
          round (d.magnitude * 1000000) = (number (digits d.whole) : Int) * 1000000 + m ∧
          r.ip = d.signum * number (digits d.whole) ∧
          r.up = (if number (digits d.whole) = 0 then d.signum else 1) * m := by
  obtain ⟨r, hr, -, hret, hparts⟩ := uconvert_eq h false
  obtain ⟨r', hr', hep, -, -⟩ := uconvert_eq h true
  refine ⟨r, r', hr, hr', ⟨behind s, hep, behind_text s, ?_⟩, ?_, ?_⟩
  · intro d t hs
    rw [hs]
    exact behind_le d t
  · intro hchecked
    rw [hret, returns_iff hchecked, behind_eq_nil_iff]
  · intro d hd hcarry
    have hchecked : Checked s := by
      rw [← hd]
      intro _ c hc
      rw [d.decimalsOf_eq] at hc
      exact d.decimals_digits c (List.mem_of_mem_drop hc)
    have hone : r.ret = true := by
      rw [hret, returns_iff hchecked, behind_eq_nil_iff]
      exact ⟨d, hd⟩
    obtain ⟨hip, hup⟩ := hparts hone
    rw [← hd, d.wholeDigits_eq, d.signOf_eq] at hip hup
    rw [d.decimalsOf_eq] at hup
    refine ⟨hone, micros d.decimals, Int.natCast_nonneg _, ?_, d.round_magnitude, ?_, ?_⟩
    · exact_mod_cast d.micros_lt hcarry
    · rw [hip, Int.mul_comm]
    · rw [hup, Int.mul_comm]
      simp only [Int.natCast_eq_zero]

/-- `-1.5`. -/
def minusOneAndHalf : Decimal where
  sign := some true
  whole := [0x31]
  point := some [0x35]
  whole_digits := by
    intro c hc
    rw [List.mem_singleton.mp hc]
    decide
  point_digits := by
    intro ds hds c hc
    rw [← Option.some.inj hds, List.mem_singleton] at hc
    rw [hc]
    decide

theorem uconvert_parts_half :
    ∃ r r', uconvert minusOneAndHalf.text false = .ok r ∧
      uconvert minusOneAndHalf.text true = .ok r' ∧
      (∃ t, r'.ep = some t ∧ IsBehind minusOneAndHalf.text t) ∧
      (Checked minusOneAndHalf.text → (r.ret = true ↔
        ∃ d : Decimal, d.text = minusOneAndHalf.text)) ∧
      ∀ d : Decimal, d.text = minusOneAndHalf.text →
        fraction (digits d.decimals) < 9999995 / 10000000 →
        r.ret = true ∧ ∃ m : Int, 0 ≤ m ∧ m < 1000000 ∧
          round (d.magnitude * 1000000) = (number (digits d.whole) : Int) * 1000000 + m ∧
          r.ip = d.signum * number (digits d.whole) ∧
          r.up = (if number (digits d.whole) = 0 then d.signum else 1) * m :=
  uconvert_parts (by decide)

/-- The parts of `-1.5` are `-1` and `500000`. -/
theorem uconvert_not_sum : ¬∀ d : Decimal, (number (digits d.whole) : Int) ≤ longMax →
    ∃ r, uconvert d.text false = .ok r ∧ r.ret = true ∧
      r.ip * 1000000 + r.up = roundAway (d.value * 1000000) := by
  intro hsum
  obtain ⟨r, hr, -, hvalue⟩ := hsum minusOneAndHalf (by decide)
  have hr' : uconvert minusOneAndHalf.text false = .ok ⟨true, -1, 500000, none⟩ := by decide
  rw [hr'] at hr
  cases hr
  have hmagnitude : minusOneAndHalf.value * 1000000 = -((1500000 : Int) : ℚ) := by
    have hwhole : number (digits minusOneAndHalf.whole) = 1 := by decide
    have hpoint : number (digits minusOneAndHalf.decimals) = 5 := by decide
    have hlength : (digits minusOneAndHalf.decimals).length = 1 := rfl
    rw [Decimal.value, Decimal.magnitude, fraction, hwhole, hpoint, hlength]
    change ((-1 : Int) : ℚ) * _ * _ = _
    norm_num
  rw [hmagnitude, roundAway, if_pos (by norm_num), neg_neg, round_intCast] at hvalue
  exact absurd hvalue (by decide)

end Basht.Numbers
