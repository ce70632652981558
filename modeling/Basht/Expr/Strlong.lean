import Mathlib.Tactic.Ring
import Basht.Library.Numerals

/-!
# Integer constants (`strlong` of `expr.c`)

`strlong` reads the constants of arithmetic expressions: decimal, octal and hexadecimal numbers, and
`base#number`. Values wrap at 64 bits, and the base is read as such a value too. So the constant
means what it says unless its base is beyond 64 bits and wraps to a base (`strlong_constant_iff`).
-/

namespace Basht.Expr

open Numerals

/-- `isalnum` in the current locale; of ASCII it accepts the letters and the digits. -/
structure Ctype where
  isalnum : UInt8 → Bool
  ascii : ∀ c : UInt8, c < 0x80 → isalnum c =
    decide (0x30 ≤ c ∧ c ≤ 0x39 ∨ 0x61 ≤ c ∧ c ≤ 0x7a ∨ 0x41 ≤ c ∧ c ≤ 0x5a)

variable (L : Ctype)

/-- `VALID_NUMCHAR`. -/
def validNumchar (c : UInt8) : Bool := L.isalnum c || c == 0x5f || c == 0x40

/-- The value of a character in `strlong`. -/
def charValue (base : Int) (c : UInt8) : UInt8 :=
  if 0x30 ≤ c ∧ c ≤ 0x39 then c - 0x30
  else if 0x61 ≤ c ∧ c ≤ 0x7a then c - (0x61 - 10)
  else if 0x41 ≤ c ∧ c ≤ 0x5a then c - (0x41 - (if base ≤ 36 then 10 else 36))
  else if c = 0x40 then 62
  else if c = 0x5f then 63
  else c

/-- The loop of `strlong`. -/
def strlongLoop (base : Int) (foundbase : Bool) (val : Int64) :
    List UInt8 → Except String Int64
  | [] => .ok val
  | c :: s =>
    if c = 0x23 then
      if foundbase then .error "invalid number"
      else if val < 2 ∨ 64 < val then .error "invalid arithmetic base"
      else if s.head?.all (fun c => !validNumchar L c) then .error "invalid integer constant"
      else strlongLoop val.toInt true 0 s
    else if validNumchar L c then
      if base ≤ (charValue base c).toNat then .error "value too great for base"
      else strlongLoop base foundbase
        (val * Int64.ofInt base + Int64.ofNat (charValue base c).toNat) s
    else .ok val

/-- `strlong`. -/
def strlong (num : List UInt8) : Except String Int64 :=
  match num with
  | 0x30 :: s =>
    match s with
    | [] => .ok 0
    | x :: t =>
      if x = 0x78 ∨ x = 0x58 then strlongLoop L 16 true 0 t else strlongLoop L 8 true 0 s
  | s => strlongLoop L 10 false 0 s

/-! ## What a constant denotes -/

/-- The digits in a base: up to base 36, letters of either case follow the decimal digits; beyond
it, the lower case letters, the upper case letters, `@` and `_` do. -/
def digitOf (base : Nat) (c : UInt8) : Option Nat :=
  if 0x30 ≤ c ∧ c ≤ 0x39 then some (c.toNat - 0x30)
  else if 0x61 ≤ c ∧ c ≤ 0x7a then some (c.toNat - 0x61 + 10)
  else if 0x41 ≤ c ∧ c ≤ 0x5a then some (c.toNat - 0x41 + if base ≤ 36 then 10 else 36)
  else if base ≤ 36 then none
  else if c = 0x40 then some 62
  else if c = 0x5f then some 63
  else none

def number (base : Nat) (s : List UInt8) : Option Nat := value (digitOf base) base s

/-- `base#number`, where the base is `base b` for the decimal number `b`. -/
def basedNumber (base : Nat → Nat) (p s : List UInt8) : Option Nat :=
  match number 10 p with
  | none => none
  | some b => if 2 ≤ base b ∧ base b ≤ 64 ∧ s ≠ [] then number (base b) s else none

/-- The number that a constant denotes. -/
def constant (base : Nat → Nat) : List UInt8 → Option Nat
  | 0x30 :: s =>
    match s with
    | [] => some 0
    | x :: t => if x = 0x78 ∨ x = 0x58 then number 16 t else number 8 s
  | s =>
    if 0x23 ∈ s then
      basedNumber base (s.takeWhile (· ≠ 0x23)) (s.dropWhile (· ≠ 0x23)).tail
    else number 10 s

/-- What `readtok` hands to `strlong`. -/
def IsToken (s : List UInt8) : Prop := ∀ c ∈ s, c = 0x23 ∨ validNumchar L c = true

/-- The constant is accepted if it denotes a number, and has the value of this number modulo
`2 ^ 64`, as a signed integer. -/
def Agrees : Except String Int64 → Option Nat → Prop
  | .ok v, some n => v = Int64.ofNat n
  | .error _, none => True
  | .ok _, none | .error _, some _ => False

/-- The base of the constant does not fit in 64 bits and wraps to one that the constant is
written in. -/
def Wraps (s : List UInt8) : Prop :=
  ∃ p t b, s = p ++ 0x23 :: t ∧ p.head? ≠ some 0x30 ∧ number 10 p = some b ∧
    18446744073709551616 ≤ b ∧ 2 ≤ b % 18446744073709551616 ∧ b % 18446744073709551616 ≤ 64 ∧
    t ≠ [] ∧ (number (b % 18446744073709551616) t).isSome

variable {L}

/-! ## Digits -/

theorem not_validNumchar_hash : validNumchar L 0x23 = false := by
  rw [validNumchar, L.ascii 0x23 (by decide)]
  decide

/-- The letters, the digits, `_`, `@`, and whatever the locale adds beyond ASCII. -/
theorem validNumchar_cases {c : UInt8} (h : validNumchar L c = true) :
    (0x30 ≤ c ∧ c ≤ 0x39) ∨ (0x61 ≤ c ∧ c ≤ 0x7a) ∨ (0x41 ≤ c ∧ c ≤ 0x5a) ∨ c = 0x40 ∨ c = 0x5f ∨
      0x80 ≤ c := by
  by_cases hc : c < 0x80
  · simp only [validNumchar, L.ascii c hc, Bool.or_eq_true, decide_eq_true_eq, beq_iff_eq] at h
    tauto
  · have : 0x80 ≤ c := UInt8.not_lt.mp hc
    tauto

theorem charValue_of_digitOf {base : Nat} {c : UInt8} {d : Nat} (h : digitOf base c = some d) :
    (charValue base c).toNat = d := by
  unfold digitOf at h
  unfold charValue
  split
  · rename_i hc
    rw [if_pos hc] at h
    rw [← Option.some.inj h, UInt8.toNat_sub_of_le _ _ hc.1]
    rfl
  rename_i h0
  rw [if_neg h0] at h
  split
  · rename_i hc
    have h1 : 97 ≤ c.toNat := hc.1
    have h2 : (0x57 : UInt8) ≤ c := by
      change 87 ≤ c.toNat
      omega
    rw [if_pos hc] at h
    rw [← Option.some.inj h]
    change (c - 0x57).toNat = c.toNat - 97 + 10
    rw [UInt8.toNat_sub_of_le _ _ h2]
    change c.toNat - 87 = _
    omega
  rename_i h1
  rw [if_neg h1] at h
  split
  · rename_i hc
    have h2 : 65 ≤ c.toNat := hc.1
    rw [if_pos hc] at h
    rw [← Option.some.inj h]
    by_cases hb : base ≤ 36
    · have h3 : (0x37 : UInt8) ≤ c := by
        change 55 ≤ c.toNat
        omega
      rw [if_pos hb, if_pos (by omega)]
      change (c - 0x37).toNat = c.toNat - 65 + 10
      rw [UInt8.toNat_sub_of_le _ _ h3]
      change c.toNat - 55 = _
      omega
    · have h3 : (0x1d : UInt8) ≤ c := by
        change 29 ≤ c.toNat
        omega
      rw [if_neg hb, if_neg (by omega)]
      change (c - 0x1d).toNat = c.toNat - 65 + 36
      rw [UInt8.toNat_sub_of_le _ _ h3]
      change c.toNat - 29 = _
      omega
  rename_i h2
  rw [if_neg h2] at h
  split at h
  · cases h
  · split
    · rename_i h3
      rw [if_pos h3] at h
      exact Option.some.inj h
    rename_i h3
    rw [if_neg h3] at h
    split
    · rename_i h4
      rw [if_pos h4] at h
      exact Option.some.inj h
    · rename_i h4
      rw [if_neg h4] at h
      cases h

/-- A character without a digit is one of `_` and `@` in a base that does not have them, or is
beyond ASCII. -/
theorem le_charValue_of_digitOf {base : Nat} {c : UInt8} (hb : base ≤ 64)
    (hc : validNumchar L c = true) (h : digitOf base c = none) :
    base ≤ (charValue base c).toNat := by
  unfold digitOf at h
  split at h
  · cases h
  rename_i h0
  split at h
  · cases h
  rename_i h1
  split at h
  · cases h
  rename_i h2
  unfold charValue
  rw [if_neg h0, if_neg h1, if_neg h2]
  obtain hc | hc | hc | rfl | rfl | hc := validNumchar_cases hc
  · exact absurd hc h0
  · exact absurd hc h1
  · exact absurd hc h2
  · split at h
    · exact Nat.le_trans ‹base ≤ 36› (by decide)
    · cases h
  · split at h
    · exact Nat.le_trans ‹base ≤ 36› (by decide)
    · cases h
  · have h3 : 128 ≤ c.toNat := hc
    rw [if_neg, if_neg]
    · omega
    · rintro rfl
      exact absurd h3 (by decide)
    · rintro rfl
      exact absurd h3 (by decide)

/-! ## The loop -/

theorem ofNat_digit (n base d : Nat) :
    Int64.ofNat n * Int64.ofInt base + Int64.ofNat d = Int64.ofNat (n * base + d) := by
  rw [Int64.ofInt_eq_ofNat, Int64.ofNat_add, Int64.ofNat_mul]

/-- The step of the loop at a character of the number. -/
theorem strlongLoop_cons {base : Nat} (hb : base ≤ 64) {c : UInt8} (hc : validNumchar L c = true)
    (fb : Bool) (n : Nat) (s : List UInt8) :
    strlongLoop L base fb (Int64.ofNat n) (c :: s) =
      match digitOf base c with
      | none => .error "value too great for base"
      | some d =>
        if d < base then strlongLoop L base fb (Int64.ofNat (n * base + d)) s
        else .error "value too great for base" := by
  have h0 : c ≠ 0x23 := by
    rintro rfl
    rw [not_validNumchar_hash] at hc
    cases hc
  rw [strlongLoop, if_neg h0, if_pos hc]
  cases h : digitOf base c with
  | none =>
    have := le_charValue_of_digitOf hb hc h
    rw [if_pos (by exact_mod_cast this)]
  | some d =>
    rw [charValue_of_digitOf h]
    dsimp only
    by_cases hd : d < base
    · rw [if_neg (by omega), if_pos hd, ofNat_digit]
    · rw [if_pos (by omega), if_neg hd]

theorem digitOf_hash (base : Nat) : digitOf base 0x23 = none := by
  rw [digitOf, if_neg (by decide), if_neg (by decide), if_neg (by decide)]
  split
  · rfl
  · rw [if_neg (by decide), if_neg (by decide)]

/-- Behind the base, or the leading zero, the loop reads the number in this base. -/
theorem strlongLoop_agrees {base : Nat} (hb : base ≤ 64) {s : List UInt8} (hs : IsToken L s)
    (n : Nat) :
    Agrees (strlongLoop L base true (Int64.ofNat n) s) (readOn (digitOf base) base n s) := by
  induction s generalizing n with
  | nil => exact rfl
  | cons c s ih =>
    rw [readOn]
    rcases hs c (List.mem_cons_self ..) with rfl | hc
    · rw [strlongLoop, if_pos rfl, if_pos rfl, digitOf_hash]
      exact trivial
    · rw [strlongLoop_cons hb hc]
      cases digitOf base c with
      | none => exact trivial
      | some d =>
        dsimp only
        split
        · exact ih (fun x hx => hs x (List.mem_cons_of_mem _ hx)) _
        · exact trivial

/-- The base as the loop has it, a signed 64-bit integer, is in the range if it is as an unsigned
one. -/
theorem inRange_iff (n : Nat) : (¬(Int64.ofNat n < 2 ∨ 64 < Int64.ofNat n)) ↔
    2 ≤ n % 18446744073709551616 ∧ n % 18446744073709551616 ≤ 64 := by
  rw [Int64.lt_iff_toInt_lt, Int64.lt_iff_toInt_lt, Int64.toInt_ofNat',
    show (2 : Int64).toInt = 2 from rfl, show (64 : Int64).toInt = 64 from rfl,
    show Int64.size = 18446744073709551616 from rfl, Int.bmod_def]
  omega

theorem toInt_of_inRange {n : Nat}
    (h : 2 ≤ n % 18446744073709551616 ∧ n % 18446744073709551616 ≤ 64) :
    (Int64.ofNat n).toInt = ((n % 18446744073709551616 : Nat) : Int) := by
  rw [Int64.toInt_ofNat', show Int64.size = 18446744073709551616 from rfl, Int.bmod_def]
  omega

/-- A number whose first digits make `n`, maybe with a base in front. -/
def constantOn (base : Nat → Nat) (n : Nat) (s : List UInt8) : Option Nat :=
  if 0x23 ∈ s then
    match readOn (digitOf 10) 10 n (s.takeWhile (· ≠ 0x23)) with
    | none => none
    | some b =>
      if 2 ≤ base b ∧ base b ≤ 64 ∧ (s.dropWhile (· ≠ 0x23)).tail ≠ [] then
        number (base b) (s.dropWhile (· ≠ 0x23)).tail
      else none
  else readOn (digitOf 10) 10 n s

theorem constantOn_zero (base : Nat → Nat) (s : List UInt8) : constantOn base 0 s =
    if 0x23 ∈ s then
      basedNumber base (s.takeWhile (· ≠ 0x23)) (s.dropWhile (· ≠ 0x23)).tail
    else number 10 s := by
  rw [constantOn, basedNumber, number, number, value_eq_readOn, value_eq_readOn]

theorem constantOn_hash (base : Nat → Nat) (n : Nat) (s : List UInt8) :
    constantOn base n (0x23 :: s) =
      if 2 ≤ base n ∧ base n ≤ 64 ∧ s ≠ [] then number (base n) s else none := by
  rw [constantOn, if_pos (List.mem_cons_self ..)]
  rfl

theorem constantOn_cons (base : Nat → Nat) (n : Nat) {c : UInt8} (hc : c ≠ 0x23)
    (s : List UInt8) : constantOn base n (c :: s) =
      match digitOf 10 c with
      | none => none
      | some d => if d < 10 then constantOn base (n * 10 + d) s else none := by
  have h1 : (c :: s).takeWhile (· ≠ 0x23) = c :: s.takeWhile (· ≠ 0x23) :=
    List.takeWhile_cons_of_pos (by simpa using hc)
  have h2 : (c :: s).dropWhile (· ≠ 0x23) = s.dropWhile (· ≠ 0x23) :=
    List.dropWhile_cons_of_pos (by simpa using hc)
  have h3 : 0x23 ∈ c :: s ↔ 0x23 ∈ s := by
    rw [List.mem_cons, or_iff_right (Ne.symm hc)]
  rw [constantOn, h1, h2, readOn, readOn]
  simp only [constantOn, h3]
  cases digitOf 10 c with
  | none => simp only [ite_self]
  | some d =>
    dsimp only
    by_cases hd : d < 10
    · rw [if_pos hd, if_pos hd, if_pos hd]
    · rw [if_neg hd, if_neg hd, if_neg hd]
      simp only [ite_self]

/-- Up to `#`, the loop reads a decimal number. -/
theorem strlongLoop_ten {s : List UInt8} (hs : IsToken L s) (n : Nat) :
    Agrees (strlongLoop L 10 false (Int64.ofNat n) s)
      (constantOn (· % 18446744073709551616) n s) := by
  induction s generalizing n with
  | nil => exact rfl
  | cons c s ih =>
    have ht : IsToken L s := fun x hx => hs x (List.mem_cons_of_mem _ hx)
    rcases hs c (List.mem_cons_self ..) with rfl | hc
    · rw [strlongLoop, if_pos rfl, if_neg Bool.false_ne_true, constantOn_hash]
      by_cases hn : 2 ≤ n % 18446744073709551616 ∧ n % 18446744073709551616 ≤ 64
      · rw [if_neg ((inRange_iff n).mpr hn), toInt_of_inRange hn]
        cases s with
        | nil =>
          rw [List.head?_nil, Option.all_none, if_pos rfl, if_neg fun h => h.2.2 rfl]
          exact trivial
        | cons x t =>
          rw [List.head?_cons, Option.all_some]
          by_cases hx : validNumchar L x = true
          · rw [hx, if_neg (by decide), if_pos ⟨hn.1, hn.2, List.cons_ne_nil _ _⟩, number,
              value_eq_readOn]
            exact strlongLoop_agrees hn.2 ht 0
          · rw [(ht x (List.mem_cons_self ..)).resolve_right hx, not_validNumchar_hash,
              if_pos (by decide), if_pos ⟨hn.1, hn.2, List.cons_ne_nil _ _⟩, number,
              value_eq_readOn, readOn, digitOf_hash]
            exact trivial
      · rw [if_pos (not_not.mp (mt (inRange_iff n).mp hn)), if_neg fun h => hn ⟨h.1, h.2.1⟩]
        exact trivial
    · have h0 : c ≠ 0x23 := by
        rintro rfl
        rw [not_validNumchar_hash] at hc
        cases hc
      rw [constantOn_cons _ _ h0, show (10 : Int) = ((10 : Nat) : Int) from rfl,
        strlongLoop_cons (by decide) hc]
      cases digitOf 10 c with
      | none => exact trivial
      | some d =>
        dsimp only
        split
        · exact ih ht _
        · exact trivial

/-- `strlong` reads the constant, with a base that wraps. -/
theorem strlong_agrees {s : List UInt8} (hs : IsToken L s) :
    Agrees (strlong L s) (constant (· % 18446744073709551616) s) := by
  have tail {c : UInt8} {t : List UInt8} (h : IsToken L (c :: t)) : IsToken L t :=
    fun x hx => h x (List.mem_cons_of_mem _ hx)
  unfold strlong constant
  split
  · split
    · exact rfl
    · split
      · rw [number, value_eq_readOn]
        exact strlongLoop_agrees (by decide) (tail (tail hs)) 0
      · rw [number, value_eq_readOn]
        exact strlongLoop_agrees (by decide) (tail hs) 0
  · rw [← constantOn_zero]
    exact strlongLoop_ten hs 0

/-! ## Bases that wrap -/

theorem agrees_none_iff {r : Except String Int64} {o : Option Nat} (h : Agrees r o) :
    Agrees r none ↔ o = none := by
  cases r with
  | error e =>
    cases o with
    | none => exact iff_of_true trivial rfl
    | some n => exact h.elim
  | ok v =>
    cases o with
    | none => exact h.elim
    | some n => exact iff_of_false id (Option.some_ne_none n)

theorem constant_zero (base base' : Nat → Nat) (s : List UInt8) :
    constant base (0x30 :: s) = constant base' (0x30 :: s) := by
  cases s <;> rfl

theorem constant_of_head {base : Nat → Nat} {s : List UInt8} (h : s.head? ≠ some 0x30) :
    constant base s =
      if 0x23 ∈ s then
        basedNumber base (s.takeWhile (· ≠ 0x23)) (s.dropWhile (· ≠ 0x23)).tail
      else number 10 s := by
  unfold constant
  split
  · exact absurd rfl h
  · rfl

/-- A number ends before `#`. -/
theorem hash_not_mem {p : List UInt8} {b : Nat} (h : number 10 p = some b) : 0x23 ∉ p := by
  intro hp
  rw [number, value_eq_readOn, readOn_eq_none_of_mem hp (digitOf_hash 10)] at h
  cases h

theorem takeWhile_hash {p : List UInt8} (h : 0x23 ∉ p) (t : List UInt8) :
    (p ++ 0x23 :: t).takeWhile (· ≠ 0x23) = p ∧
      ((p ++ 0x23 :: t).dropWhile (· ≠ 0x23)).tail = t := by
  have hp : ∀ c ∈ p, decide (c ≠ 0x23) = true := by
    intro c hc
    apply decide_eq_true
    rintro rfl
    exact h hc
  constructor
  · rw [List.takeWhile_append_of_pos hp]
    exact List.append_nil p
  · rw [List.dropWhile_append_of_pos hp]
    rfl

theorem not_wraps_zero (s : List UInt8) : ¬Wraps (0x30 :: s) := by
  rintro ⟨p, t, b, h, hp, -⟩
  cases p with
  | nil => cases h
  | cons c p =>
    rw [List.cons_append] at h
    exact hp (congrArg some (List.cons.inj h).1.symm)

theorem not_wraps_of_not_mem {s : List UInt8} (h : 0x23 ∉ s) : ¬Wraps s := by
  rintro ⟨p, t, b, rfl, -⟩
  exact h (List.mem_append_right _ (List.mem_cons_self ..))

theorem basedNumber_of_wraps {p t : List UInt8} (hp : 0x23 ∉ p) (h : Wraps (p ++ 0x23 :: t)) :
    basedNumber id p t = none ∧ basedNumber (· % 18446744073709551616) p t ≠ none := by
  obtain ⟨p', t', b, he, -, hb, hle, h1, h2, h3, h4⟩ := h
  obtain ⟨rfl, rfl⟩ : p' = p ∧ t' = t := by
    have h5 := takeWhile_hash (hash_not_mem hb) t'
    have h6 := takeWhile_hash hp t
    rw [← he] at h5
    exact ⟨h5.1.symm.trans h6.1, h5.2.symm.trans h6.2⟩
  rw [basedNumber, basedNumber, hb]
  dsimp only [id]
  rw [if_neg (by omega), if_pos ⟨h1, h2, h3⟩]
  exact ⟨rfl, Option.isSome_iff_ne_none.mp h4⟩

theorem basedNumber_of_not_wraps {p t : List UInt8} (hp : (p ++ 0x23 :: t).head? ≠ some 0x30)
    (h : ¬Wraps (p ++ 0x23 :: t)) :
    basedNumber id p t = basedNumber (· % 18446744073709551616) p t := by
  have h0 : p.head? ≠ some 0x30 := by
    cases p with
    | nil => exact nofun
    | cons c p => exact hp
  rw [basedNumber, basedNumber]
  cases hb : number 10 p with
  | none => rfl
  | some b =>
    dsimp only [id]
    by_cases hle : b < 18446744073709551616
    · rw [Nat.mod_eq_of_lt hle]
    · rw [if_neg (by omega)]
      by_contra hne
      apply h
      obtain ⟨h1, hn⟩ := (ite_ne_right_iff.mp (Ne.symm hne))
      exact ⟨p, t, b, rfl, h0, hb, Nat.not_lt.mp hle, h1.1, h1.2.1, h1.2.2,
        Option.isSome_iff_ne_none.mpr hn⟩

/-- Integer constants mean what they say, unless the base wraps. -/
theorem strlong_constant_iff {s : List UInt8} (hs : IsToken L s) :
    Agrees (strlong L s) (constant id s) ↔ ¬Wraps s := by
  have h := strlong_agrees hs
  by_cases h0 : s.head? = some 0x30
  · obtain ⟨t, rfl⟩ := List.head?_eq_some_iff.mp h0
    rw [constant_zero id (· % 18446744073709551616)]
    exact iff_of_true h (not_wraps_zero t)
  by_cases h1 : 0x23 ∈ s
  · obtain ⟨p, t, rfl, hp⟩ := List.eq_append_cons_of_mem h1
    obtain ⟨h2, h3⟩ := takeWhile_hash hp t
    rw [constant_of_head h0, if_pos h1, h2, h3] at h ⊢
    by_cases hw : Wraps (p ++ 0x23 :: t)
    · obtain ⟨h4, h5⟩ := basedNumber_of_wraps hp hw
      rw [h4, agrees_none_iff h]
      exact iff_of_false h5 (not_not.mpr hw)
    · rw [basedNumber_of_not_wraps h0 hw]
      exact iff_of_true h hw
  · rw [constant_of_head h0, if_neg h1] at h ⊢
    exact iff_of_true h (not_wraps_of_not_mem h1)

/-- The C locale. -/
def cLocale : Ctype where
  isalnum c := decide (0x30 ≤ c ∧ c ≤ 0x39 ∨ 0x61 ≤ c ∧ c ≤ 0x7a ∨ 0x41 ≤ c ∧ c ≤ 0x5a)
  ascii _ _ := rfl

/-- `16#fF`. -/
theorem strlong_constant_iff_sixteen :
    Agrees (strlong cLocale [0x31, 0x36, 0x23, 0x66, 0x46])
      (constant id [0x31, 0x36, 0x23, 0x66, 0x46]) ↔ ¬Wraps [0x31, 0x36, 0x23, 0x66, 0x46] :=
  strlong_constant_iff (by
    intro c hc
    revert c
    decide +kernel)

/-- `18446744073709551618#101`: the base wraps to two. -/
theorem base_wraps :
    let s : List UInt8 := [0x31, 0x38, 0x34, 0x34, 0x36, 0x37, 0x34, 0x34, 0x30, 0x37, 0x33, 0x37,
      0x30, 0x39, 0x35, 0x35, 0x31, 0x36, 0x31, 0x38, 0x23, 0x31, 0x30, 0x31]
    number 10 (s.takeWhile (· ≠ 0x23)) = some 18446744073709551618 ∧ constant id s = none ∧
      strlong cLocale s = .ok 5 ∧ ¬Agrees (strlong cLocale s) (constant id s) := by
  intro s
  have h1 : constant id s = none := by decide +kernel
  have h2 : strlong cLocale s = .ok 5 := by decide +kernel
  refine ⟨by decide +kernel, h1, h2, ?_⟩
  rw [h1, h2]
  exact id

end Basht.Expr
