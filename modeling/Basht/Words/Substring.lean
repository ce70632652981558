import Mathlib.Data.List.Basic
import Mathlib.Tactic.Ring

/-!
# Substrings (`${name:offset:length}`)

`verify_substring_values` of `subst.c` turns an offset and a length into bounds, and `substring`
copies what is between them. Sums are `intmax_t`s, and here each of them is checked. The offset is
compared with the length of the value before anything is added to it, but the length of the
substring is not: it is added to the start first and limited after that.
-/

namespace Basht.Substring

/-- What a substring is taken of: a string, `$@` with `number_of_args`, an associative array with
its number of elements, or an array with `array_max_index` and `array_num_elements`. -/
inductive Value where
  | scalar (value : List UInt8)
  | posparms (numberOfArgs : Nat)
  | assoc (numElements : Nat)
  | array (maxIndex : Int) (numElements : Nat)

/-- The result: an expression that is no number, a failure that is reported for the text of the
length, bounds that are out of range, or bounds. -/
inductive Outcome where
  | invalid
  | negative (t : List UInt8)
  | range
  | bounds (e1 e2 : Int)
  deriving DecidableEq

/-- A sum of `intmax_t`s, if it is one. -/
def add64 (a b : Int) : Option Int :=
  if -2 ^ 63 ≤ a + b ∧ a + b < 2 ^ 63 then some (a + b) else none

namespace Value

/-- `len`, which the offset is compared with. -/
def len (v : Value) (e1 : Int) : Int :=
  match v with
  | scalar value => value.length
  | posparms numberOfArgs => numberOfArgs + 1 + if e1 = 0 then 1 else 0
  | assoc numElements => numElements + if e1 < 0 then 1 else 0
  | array maxIndex _ => maxIndex + if e1 < 0 then 1 else 0

/-- `len`, as far as the length of the substring is concerned. -/
def limit (v : Value) (len : Int) : Int :=
  match v with
  | assoc numElements => numElements
  | array _ numElements => numElements
  | _ => len

/-- The test of a negative length. -/
def noNegative : Value → Bool
  | scalar _ => false
  | _ => true

def isArray : Value → Bool
  | assoc _ => true
  | array _ _ => true
  | _ => false

end Value

/-- Negative offsets count from the end. -/
def fromEnd (e1 len : Int) : Option Int := if e1 < 0 then add64 e1 len else some e1

/-- The bounds for the length `e2`, whose text is `t`. -/
def limitLength (v : Value) (t : List UInt8) (len e1 e2 : Int) : Option Outcome :=
  if v.noNegative ∧ e2 < 0 then some (.negative t)
  else if v.isArray then some (.bounds e1 e2)
  else if e2 < 0 then do
    let e2 ← add64 e2 len
    if e2 < 0 ∨ e2 < e1 then some (.negative t)
    else some (.bounds e1 (if e2 > len then len else e2))
  else do
    let e2 ← add64 e2 e1
    some (.bounds e1 (if e2 > len then len else e2))

section

variable (skiparith : List UInt8 → List UInt8 × Option (List UInt8))
  (evalexp : List UInt8 → Option Int64)

/-- The rest of `verify_substring_values`, for the offset `e1` from the beginning. -/
def verifyLength (v : Value) (t : Option (List UInt8)) (len e1 : Int) : Option Outcome :=
  if e1 > len ∨ e1 < 0 then some .range
  else
    match t with
    | none => some (.bounds e1 (v.limit len))
    | some t =>
      match evalexp t with
      | none => some .invalid
      | some e2 => limitLength v t (v.limit len) e1 e2.toInt

/-- `verify_substring_values`; it has no result if a sum overflows. `skiparith` finds the colon
that `substr` is cut at, and `evalexp` is the value of an expanded expression. -/
def verifySubstringValues (v : Value) (substr : List UInt8) : Option Outcome :=
  match evalexp (skiparith substr).1 with
  | none => some .invalid
  | some e1 =>
    let len := v.len e1.toInt
    if len = -1 then some .range
    else do
      let e1 ← fromEnd e1.toInt len
      verifyLength evalexp v (skiparith substr).2 len e1

/-- `substring`, if all its bytes are in the string. -/
def substring (string : List UInt8) (start stop : Nat) : Option (List UInt8) :=
  if start ≤ stop ∧ stop ≤ string.length then some ((string.drop start).take (stop - start))
  else none

end

/-! ## What the bounds are -/

/-- The mathematical start. -/
def start (n : Nat) (offset : Int) : Int := if offset < 0 then n + offset else offset

/-- The mathematical end. -/
def stop (n : Nat) (offset : Int) (length : Option Int) : Int :=
  match length with
  | none => n
  | some l => if l < 0 then n + l else start n offset + l

/-- A failure, or the bounds. -/
def expected (n : Nat) (offset : Int) (length : Option Int) (t : List UInt8) : Outcome :=
  if start n offset < 0 ∨ n < start n offset then .range
  else if stop n offset length < start n offset then .negative t
  else .bounds (start n offset) (min (stop n offset length) n)

/-- `substr` is an offset, or an offset and a length. -/
def Evaluates (skiparith : List UInt8 → List UInt8 × Option (List UInt8))
    (evalexp : List UInt8 → Option Int64) (substr : List UInt8) (offset : Int64)
    (length : Option Int64) : Prop :=
  evalexp (skiparith substr).1 = some offset ∧
    (skiparith substr).2.map evalexp = length.map some

/-- The sum that is limited is in range, or there is none. -/
def Fits (n : Nat) (offset : Int) (length : Option Int) : Prop :=
  (start n offset < 0 ∨ n < start n offset) ∨
    ∀ l, length = some l → 0 ≤ l → start n offset + l < 2 ^ 63

/-! ## One step after the other -/

theorem add64_eq {a b : Int} (hlow : -2 ^ 63 ≤ a + b) (hhigh : a + b < 2 ^ 63) :
    add64 a b = some (a + b) := if_pos ⟨hlow, hhigh⟩

theorem add64_none {a b : Int} (h : 2 ^ 63 ≤ a + b) : add64 a b = none :=
  if_neg fun hboth => Int.not_le.mpr hboth.2 h

theorem fromEnd_eq {n : Nat} (hn : n < 2 ^ 63) (offset : Int64) :
    fromEnd offset.toInt n = some (start n offset.toInt) := by
  have hlow := offset.le_toInt
  unfold fromEnd start
  split
  next hneg => rw [add64_eq (by omega) (by omega), Int.add_comm]
  next => rfl

theorem limited (e2 len : Int) : (if e2 > len then len else e2) = min e2 len := by
  split <;> omega

theorem limitLength_scalar (value t : List UInt8) (len e1 e2 : Int) :
    limitLength (.scalar value) t len e1 e2 =
      if e2 < 0 then (add64 e2 len).bind fun e2 =>
        if e2 < 0 ∨ e2 < e1 then some (.negative t) else some (.bounds e1 (min e2 len))
      else (add64 e2 e1).bind fun e2 => some (.bounds e1 (min e2 len)) := by
  unfold limitLength
  have harray : ¬(Value.scalar value).isArray = true := Bool.false_ne_true
  rw [if_neg (fun h => Bool.false_ne_true h.1), if_neg harray]
  simp only [limited]
  rfl

theorem expected_of_le {n : Nat} {offset e : Int} {length : Option Int} (t : List UInt8)
    (hstart : 0 ≤ start n offset) (hend : start n offset ≤ n) (hstop : stop n offset length = e) :
    expected n offset length t =
      if e < start n offset then .negative t else .bounds (start n offset) (min e n) := by
  subst hstop
  exact if_neg (by omega)

/-- The bounds of a scalar value, for a start within it. -/
theorem limitLength_iff {value : List UInt8} (t : List UInt8) (hlen : value.length < 2 ^ 63)
    {offset l : Int} (hl : -2 ^ 63 ≤ l) (hstart : 0 ≤ start value.length offset)
    (hend : start value.length offset ≤ value.length) :
    limitLength (.scalar value) t value.length (start value.length offset) l =
        some (expected value.length offset (some l) t) ↔
      (0 ≤ l → start value.length offset + l < 2 ^ 63) := by
  rw [limitLength_scalar]
  by_cases hneg : l < 0
  · -- the end counts from the end of the value
    have hstop : stop value.length offset (some l) = l + value.length :=
      (if_pos hneg).trans (Int.add_comm ..)
    rw [expected_of_le t hstart hend hstop, if_pos hneg, add64_eq (by omega) (by omega),
      Option.bind_some]
    refine iff_of_true ?_ (fun h => absurd hneg (Int.not_lt.mpr h))
    by_cases hbefore : l + value.length < start value.length offset
    · rw [if_pos hbefore, if_pos (Or.inr hbefore)]
    · rw [if_neg hbefore, if_neg (by omega)]
  · have hstop : stop value.length offset (some l) = l + start value.length offset :=
      (if_neg hneg).trans (Int.add_comm ..)
    rw [expected_of_le t hstart hend hstop, if_neg hneg, if_neg (by omega)]
    by_cases hfits : start value.length offset + l < 2 ^ 63
    · rw [add64_eq (by omega) (by omega)]
      exact iff_of_true rfl fun _ => hfits
    · rw [add64_none (by omega)]
      exact iff_of_false nofun fun h => hfits (h (by omega))

/-- The bounds are those of a part of the value. -/
theorem bounds_of_expected {value t : List UInt8} {offset : Int} {length : Option Int} {e1 e2 : Int}
    (h : expected value.length offset length t = .bounds e1 e2) :
    e1 = start value.length offset ∧ e2 = min (stop value.length offset length) value.length ∧
      0 ≤ e1 ∧ e1 ≤ e2 ∧ e2 ≤ value.length ∧
      substring value e1.toNat e2.toNat = some ((value.take e2.toNat).drop e1.toNat) := by
  unfold expected at h
  split at h
  next => cases h
  next hin =>
    split at h
    next => cases h
    next hbefore =>
      obtain ⟨rfl, rfl⟩ := Outcome.bounds.inj h
      refine ⟨rfl, rfl, by omega, by omega, by omega, ?_⟩
      rw [substring, if_pos (by omega), List.drop_take]

theorem verify_iff (skiparith : List UInt8 → List UInt8 × Option (List UInt8))
    (evalexp : List UInt8 → Option Int64) {value substr : List UInt8} {offset : Int64}
    {length : Option Int64} (hlen : value.length < 2 ^ 63)
    (heval : Evaluates skiparith evalexp substr offset length) :
    verifySubstringValues skiparith evalexp (.scalar value) substr =
        some (expected value.length offset.toInt (length.map Int64.toInt)
          ((skiparith substr).2.getD [])) ↔
      Fits value.length offset.toInt (length.map Int64.toInt) := by
  obtain ⟨hoffset, hlength⟩ := heval
  have hlenEq : (Value.scalar value).len offset.toInt = value.length := rfl
  unfold verifySubstringValues
  rw [hoffset]
  dsimp only
  rw [hlenEq, if_neg (by omega), fromEnd_eq hlen]
  dsimp only [Option.bind_eq_bind, Option.bind_some]
  unfold verifyLength
  by_cases hout : start value.length offset.toInt < 0 ∨
      (value.length : Int) < start value.length offset.toInt
  · rw [if_pos (show start value.length offset.toInt > value.length ∨
      start value.length offset.toInt < 0 from hout.symm)]
    exact iff_of_true (congrArg some (if_pos hout).symm) (Or.inl hout)
  · rw [if_neg (show ¬(start value.length offset.toInt > value.length ∨
      start value.length offset.toInt < 0) from fun h => hout h.symm)]
    unfold Fits
    rw [or_iff_right hout]
    have hstart : 0 ≤ start value.length offset.toInt := by omega
    have hend : start value.length offset.toInt ≤ value.length := by omega
    cases hsplit : (skiparith substr).2 with
    | none =>
      rw [hsplit] at hlength
      obtain rfl : length = none := Option.map_eq_none_iff.mp hlength.symm
      refine iff_of_true ?_ (fun l => nofun)
      dsimp only [Option.map_none]
      rw [expected_of_le _ hstart hend rfl]
      unfold stop
      dsimp only
      rw [if_neg (by omega), Int.min_self]
      rfl
    | some t =>
      rw [hsplit] at hlength
      cases length with
      | none => cases hlength
      | some l =>
        have hl := Option.some.inj hlength
        dsimp only
        rw [hl]
        dsimp only [Option.map_some, Option.getD_some]
        have hlimit : (Value.scalar value).limit value.length = value.length := rfl
        rw [hlimit, limitLength_iff t hlen l.le_toInt hstart hend]
        constructor
        · rintro hfits l' hl'
          exact Option.some.inj hl' ▸ hfits
        · intro hfits
          exact hfits _ rfl

/-- The bounds of a substring are what they are to be if and only if the start is out of range, or
there is no length, or it is negative, or its sum with the start is below `2 ^ 63`. -/
theorem substring_exact (skiparith : List UInt8 → List UInt8 × Option (List UInt8))
    (evalexp : List UInt8 → Option Int64) (value substr : List UInt8) (offset : Int64)
    (length : Option Int64) (hlen : value.length < 2 ^ 63)
    (heval : Evaluates skiparith evalexp substr offset length) :
    (∃ r, verifySubstringValues skiparith evalexp (.scalar value) substr = some r ∧
      r = expected value.length offset.toInt (length.map Int64.toInt)
        ((skiparith substr).2.getD []) ∧
      ∀ e1 e2, r = .bounds e1 e2 → e1 = start value.length offset.toInt ∧
        e2 = min (stop value.length offset.toInt (length.map Int64.toInt)) value.length ∧
        0 ≤ e1 ∧ e1 ≤ e2 ∧ e2 ≤ value.length ∧
        substring value e1.toNat e2.toNat = some ((value.take e2.toNat).drop e1.toNat)) ↔
      Fits value.length offset.toInt (length.map Int64.toInt) := by
  rw [← verify_iff skiparith evalexp hlen heval]
  constructor
  · rintro ⟨r, hr, rfl, -⟩
    exact hr
  · intro h
    exact ⟨_, h, rfl, fun e1 e2 => bounds_of_expected⟩

/-! ## Decimal numbers -/

/-- A text without a `?` is cut at its first colon. -/
def cutAtColon (s : List UInt8) : List UInt8 × Option (List UInt8) :=
  if 58 ∈ s then (s.takeWhile (· ≠ 58), some ((s.dropWhile (· ≠ 58)).tail)) else (s, none)

/-- The value of a decimal number. -/
def decimal (s : List UInt8) : Option Int64 :=
  some (s.foldl (fun v c => v * 10 + Int64.ofNat (c.toNat - 48)) 0)

/-- `${name:1:2}` for `abcd`. -/
theorem substring_exact_digits : ∃ r,
    verifySubstringValues cutAtColon decimal (.scalar [97, 98, 99, 100]) [49, 58, 50] = some r ∧
      r = expected 4 1 (some 2) [50] ∧
      ∀ e1 e2, r = .bounds e1 e2 → e1 = start 4 1 ∧ e2 = min (stop 4 1 (some 2)) 4 ∧
        0 ≤ e1 ∧ e1 ≤ e2 ∧ e2 ≤ 4 ∧
        substring [97, 98, 99, 100] e1.toNat e2.toNat =
          some (([97, 98, 99, 100].take e2.toNat).drop e1.toNat) := by
  have hfits : Fits 4 1 (some 2) := Or.inr fun l hl _ => by
    obtain rfl := Option.some.inj hl
    decide
  exact (substring_exact cutAtColon decimal [97, 98, 99, 100] [49, 58, 50] 1 (some 2) (by decide)
    ⟨by decide, by decide⟩).mpr hfits

/-- `${name:1:9223372036854775807}` for `ab`. -/
theorem sum_overflows :
    Evaluates cutAtColon decimal
        [49, 58, 57, 50, 50, 51, 51, 55, 50, 48, 51, 54, 56, 53, 52, 55, 55, 53, 56, 48, 55]
        1 (some 9223372036854775807) ∧
      verifySubstringValues cutAtColon decimal (.scalar [97, 98])
          [49, 58, 57, 50, 50, 51, 51, 55, 50, 48, 51, 54, 56, 53, 52, 55, 55, 53, 56, 48, 55] =
        none ∧
      expected 2 1 (some 9223372036854775807) [] = .bounds 1 2 := by
  refine ⟨⟨by decide +kernel, by decide +kernel⟩, by decide +kernel, by decide⟩

end Basht.Substring
