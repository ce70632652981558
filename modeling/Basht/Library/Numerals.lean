import Mathlib.Data.Nat.Digits.Lemmas

/-!
# Positional numerals

The value of a numeral, whose symbols have digits in a base (`value`); none, if a symbol has no
digit below the base. A program reads it from the left, with the number that it has so far
(`readOn`, `value_eq_readOn`), and writes it from the right, dividing by the base
(`numeral_of_lt`, `numeral_step`). What is written is read back (`value_numeral`).
-/

namespace Basht.Numerals

variable {α : Type} (digit : α → Option Nat) (base : Nat)

/-- The digits of a numeral. -/
def digits : List α → Option (List Nat)
  | [] => some []
  | a :: l =>
    match digit a with
    | none => none
    | some d => if d < base then (digits l).map (d :: ·) else none

def value (l : List α) : Option Nat :=
  (digits digit base l).map fun ds => Nat.ofDigits base ds.reverse

/-- The numeral is read behind the number `n`. -/
def readOn : Nat → List α → Option Nat
  | n, [] => some n
  | n, a :: l =>
    match digit a with
    | none => none
    | some d => if d < base then readOn (n * base + d) l else none

variable {digit base}

theorem readOn_eq (n : Nat) (l : List α) : readOn digit base n l =
    (digits digit base l).map fun ds => Nat.ofDigits base (ds.reverse ++ [n]) := by
  induction l generalizing n with
  | nil =>
    rw [readOn, digits, Option.map_some, List.reverse_nil, List.nil_append, Nat.ofDigits_singleton]
  | cons a l ih =>
    rw [readOn, digits]
    cases digit a with
    | none => rfl
    | some d =>
      dsimp only
      split
      · rw [ih, Option.map_map]
        congr 1
        funext ds
        simp only [Function.comp, List.reverse_cons, Nat.ofDigits_append, List.length_append,
          List.length_singleton, Nat.ofDigits_singleton, pow_succ]
        ring
      · rfl

theorem value_eq_readOn (l : List α) : value digit base l = readOn digit base 0 l := by
  rw [readOn_eq, value]
  congr 1
  funext ds
  rw [Nat.ofDigits_append, Nat.ofDigits_singleton, Nat.mul_zero, Nat.add_zero]

theorem readOn_eq_none_of_mem {l : List α} {a : α} (h : a ∈ l) (ha : digit a = none) (n : Nat) :
    readOn digit base n l = none := by
  induction l generalizing n with
  | nil => cases h
  | cons b l ih =>
    rw [readOn]
    rcases List.mem_cons.mp h with rfl | h
    · rw [ha]
    · cases digit b with
      | none => rfl
      | some d =>
        dsimp only
        split
        · exact ih h _
        · rfl

/-! ## Writing -/

/-- The digits of a number, the most significant one first; zero has one digit. -/
def digitsOf (base n : Nat) : List Nat := if n = 0 then [0] else (Nat.digits base n).reverse

/-- The numeral of a number. -/
def numeral (symbol : Nat → α) (base n : Nat) : List α := (digitsOf base n).map symbol

theorem digitsOf_lt (hb : 1 < base) (n : Nat) : ∀ d ∈ digitsOf base n, d < base := by
  intro d hd
  unfold digitsOf at hd
  split at hd
  · rw [List.mem_singleton.mp hd]
    exact Nat.lt_trans Nat.one_pos hb
  · exact Nat.digits_lt_base hb (List.mem_reverse.mp hd)

theorem ofDigits_digitsOf (n : Nat) : Nat.ofDigits base (digitsOf base n).reverse = n := by
  unfold digitsOf
  split
  · rename_i h
    rw [h]
    exact Nat.ofDigits_singleton
  · rw [List.reverse_reverse, Nat.ofDigits_digits]

theorem digitsOf_ne_nil (base n : Nat) : digitsOf base n ≠ [] := by
  unfold digitsOf
  split
  · exact List.cons_ne_nil _ _
  · rename_i h
    rw [ne_eq, List.reverse_eq_nil_iff]
    exact Nat.digits_ne_nil_iff_ne_zero.mpr h

/-- One digit is written and nothing is left. -/
theorem digitsOf_of_lt (hb : 1 < base) {n : Nat} (h : n / base = 0) :
    digitsOf base n = [n % base] := by
  unfold digitsOf
  split
  · rename_i h0
    rw [h0, Nat.zero_mod]
  · rename_i h0
    rw [Nat.digits_eq_cons_digits_div hb h0, h, Nat.digits_zero, List.reverse_singleton]

/-- The last digit is written before the others. -/
theorem digitsOf_step (hb : 1 < base) {n : Nat} (h : n / base ≠ 0) :
    digitsOf base n = digitsOf base (n / base) ++ [n % base] := by
  have h0 : n ≠ 0 := by
    intro hn
    rw [hn, Nat.zero_div] at h
    exact h rfl
  rw [digitsOf, digitsOf, if_neg h0, if_neg h, Nat.digits_eq_cons_digits_div hb h0,
    List.reverse_cons]

theorem numeral_of_lt (symbol : Nat → α) (hb : 1 < base) {n : Nat} (h : n / base = 0) :
    numeral symbol base n = [symbol (n % base)] := by
  rw [numeral, digitsOf_of_lt hb h]
  rfl

theorem numeral_step (symbol : Nat → α) (hb : 1 < base) {n : Nat} (h : n / base ≠ 0) :
    numeral symbol base n = numeral symbol base (n / base) ++ [symbol (n % base)] := by
  rw [numeral, digitsOf_step hb h, List.map_append]
  rfl

theorem numeral_ne_nil (symbol : Nat → α) (base n : Nat) : numeral symbol base n ≠ [] :=
  mt List.map_eq_nil_iff.mp (digitsOf_ne_nil base n)

theorem numeral_length_le (symbol : Nat → α) (hb : 1 < base) {n k : Nat} (hk : 0 < k)
    (h : n < base ^ k) : (numeral symbol base n).length ≤ k := by
  rw [numeral, List.length_map, digitsOf]
  split
  · exact hk
  · rw [List.length_reverse]
    exact (Nat.digits_length_le_iff hb n).mpr h

/-- The symbols are those of digits. -/
theorem mem_numeral {symbol : Nat → α} (hb : 1 < base) {n : Nat} {a : α}
    (ha : a ∈ numeral symbol base n) : ∃ d, d < base ∧ symbol d = a := by
  obtain ⟨d, hd, rfl⟩ := List.mem_map.mp ha
  exact ⟨d, digitsOf_lt hb n d hd, rfl⟩

/-- Only zero starts with the digit zero. -/
theorem head_digitsOf (base : Nat) {n : Nat} (h : n ≠ 0) : (digitsOf base n).head? ≠ some 0 := by
  rw [digitsOf, if_neg h, List.head?_reverse,
    List.getLast?_eq_some_getLast (Nat.digits_ne_nil_iff_ne_zero.mpr h)]
  intro hlast
  exact Nat.getLast_digit_ne_zero base h (Option.some.inj hlast)

theorem digits_map {symbol : Nat → α} (h : ∀ d < base, digit (symbol d) = some d) {ds : List Nat}
    (hds : ∀ d ∈ ds, d < base) : digits digit base (ds.map symbol) = some ds := by
  induction ds with
  | nil => rfl
  | cons d ds ih =>
    have hd := hds d List.mem_cons_self
    rw [List.map_cons, digits, h d hd, ih fun e he => hds e (List.mem_cons_of_mem d he)]
    simp only [if_pos hd, Option.map_some]

/-- A number is read back from its numeral. -/
theorem value_numeral {symbol : Nat → α} (hb : 1 < base)
    (h : ∀ d < base, digit (symbol d) = some d) (n : Nat) :
    value digit base (numeral symbol base n) = some n := by
  rw [value, numeral, digits_map h (digitsOf_lt hb n), Option.map_some, ofDigits_digitsOf]

end Basht.Numerals
