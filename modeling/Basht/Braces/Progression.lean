import Basht.Braces.Sequence

/-!
# Sequence expressions are arithmetic progressions

The text `x..y` or `x..y..i` of integers expands to the arithmetic progression from `x` up to, and
not beyond, `y` (`expandSeqterm_integers`): no number on the way leaves the range of `intmax_t`, and
there is no expansion only if `i` or the distance is too large, or if memory is refused. If `x` or
`y` has a leading zero, all terms have the width of the longer of the two.
-/

namespace Basht.Braces

open Basht.Tasks (strtoimax validNumber isDigit decimalValue isSpace)

/-! ## Integers -/

/-- The text of an integer. -/
structure IntText where
  sign : Text
  digits : Text
  isSign : sign = [] ∨ sign = [0x2b] ∨ sign = [0x2d]
  ne_nil : digits ≠ []
  isDigits : ∀ c ∈ digits, isDigit c = true

namespace IntText

variable (x : IntText)

def text : Text := x.sign ++ x.digits

def value : Int :=
  if x.sign = [0x2d] then -(decimalValue x.digits : Int) else decimalValue x.digits

/-- A zero with a digit behind it, at the beginning or behind a minus sign. -/
def LeadingZero : Prop :=
  x.sign ≠ [0x2b] ∧ x.digits.head? = some 0x30 ∧ 1 < x.digits.length

instance : Decidable x.LeadingZero := inferInstanceAs (Decidable (_ ∧ _))

end IntText

/-- What follows the right hand side of a sequence expression. -/
def incrText (i : Option IntText) : Text :=
  match i with
  | none => []
  | some i => 0x2e :: 0x2e :: i.text

/-- The sequence expression, with an increment or without. -/
def seqterm (x y : IntText) (i : Option IntText) : Text :=
  x.text ++ 0x2e :: 0x2e :: (y.text ++ incrText i)

/-- The increment is 1 if there is none. -/
def incrValue (i : Option IntText) : Int := i.elim 1 IntText.value

/-! ## The progression -/

/-- The magnitude of the steps. -/
def magnitude (i : Int) : Nat := if i = 0 then 1 else i.natAbs

/-- The terms `x`, `x + s`, `x + 2 * s`, ... that do not go beyond `y`, where `s` has the magnitude
`m` and the sign of `y - x`. -/
def progression (x y : Int) (m : Nat) : List Int :=
  ((List.range ((y - x).natAbs + 1)).filter fun k => k * m ≤ (y - x).natAbs).map fun k =>
    x + (y - x).sign * (k * m : Nat)

/-- The decimal text of a number with zeros behind the sign, of at least the width `w`. -/
def padTo (w : Nat) (n : Int) : Text :=
  (if n < 0 then [0x2d] else []) ++ List.replicate (w - (itos n).length) 0x30 ++
    (Nat.toDigits 10 n.natAbs).map Char.toUInt8

/-- The text of a number between `x` and `y`. -/
def format (x y : IntText) (n : Int) : Text :=
  if x.LeadingZero ∨ y.LeadingZero then padTo (max x.text.length y.text.length) n else itos n

/-- A request for memory on the way to `n` terms is refused. -/
def Refused (mem : Memory) (n : Nat) : Prop :=
  mem.vector (n + 1) = false ∨ ∃ k < n, mem.text k = false

/-! ## Reading integers -/

theorem isDigit_ne {c : UInt8} (h : isDigit c = true) :
    c ≠ 0x2e ∧ c ≠ 0x2b ∧ c ≠ 0x2d ∧ isSpace c = false := by
  revert c
  decide +kernel

namespace IntText

variable (x : IntText)

theorem exists_digits : ∃ d ds, x.digits = d :: ds ∧ isDigit d = true := by
  obtain ⟨d, ds, hd⟩ := List.exists_cons_of_ne_nil x.ne_nil
  refine ⟨d, ds, hd, x.isDigits d ?_⟩
  rw [hd]
  exact List.mem_cons_self ..

theorem text_ne_nil : x.text ≠ [] := fun h => x.ne_nil (List.append_eq_nil_iff.mp h).2

theorem dot_not_mem : ∀ c ∈ x.text, c ≠ 0x2e := by
  intro c hc
  rcases List.mem_append.mp hc with hc | hc
  · rcases x.isSign with h | h | h
    · rw [h] at hc
      cases hc
    · rw [h] at hc
      rw [List.mem_singleton.mp hc]
      decide
    · rw [h] at hc
      rw [List.mem_singleton.mp hc]
      decide
  · exact (isDigit_ne (x.isDigits c hc)).1

/-- Digits end where no digit follows. -/
theorem takeWhile_digits {r : Text} (hr : ∀ c ∈ r.head?, isDigit c = false) :
    (x.digits ++ r).takeWhile isDigit = x.digits ∧ (x.digits ++ r).dropWhile isDigit = r := by
  rw [List.takeWhile_append_of_pos x.isDigits, List.dropWhile_append_of_pos x.isDigits]
  cases r with
  | nil => exact ⟨List.append_nil _, rfl⟩
  | cons c r =>
    have hc : isDigit c = false := hr c rfl
    constructor
    · rw [List.takeWhile_cons_of_neg (by simp [hc]), List.append_nil]
    · exact List.dropWhile_cons_of_neg (by simp [hc])

theorem strtoimax_text {r : Text} (hx : IsIntmax x.value) (hr : ∀ c ∈ r.head?, isDigit c = false) :
    strtoimax (x.text ++ r) = some (x.value, r) := by
  obtain ⟨htake, hdrop⟩ := x.takeWhile_digits hr
  have hsigned : Tasks.sign ((x.text ++ r).dropWhile isSpace) =
      (if x.sign = [0x2d] then -1 else 1, x.digits ++ r) := by
    obtain ⟨d, ds, hd, hdigit⟩ := x.exists_digits
    obtain ⟨-, hplus, hminus, hspace⟩ := isDigit_ne hdigit
    rw [text, List.append_assoc]
    rcases x.isSign with h | h | h
    · rw [h, hd, List.nil_append, List.cons_append,
        List.dropWhile_cons_of_neg (by simp [hspace]), Tasks.sign,
        if_neg (show d ≠ '-'.toUInt8 from hminus), if_neg (show d ≠ '+'.toUInt8 from hplus)]
      rfl
    · rw [h]
      rfl
    · rw [h]
      rfl
  have hvalue : (if x.sign = [0x2d] then -1 else 1) * (decimalValue x.digits : Int) = x.value := by
    rw [value]
    split
    · rw [Int.neg_one_mul]
    · rw [Int.one_mul]
  rw [strtoimax, hsigned]
  dsimp only
  rw [htake, hdrop, hvalue, if_neg]
  rintro (h | h | h)
  · exact x.ne_nil h
  · exact absurd hx.1 (Int.not_le.mpr h)
  · exact absurd hx.2 (Int.not_le.mpr h)

theorem validNumber_text (hx : IsIntmax x.value) : validNumber x.text = some x.value := by
  have h := x.strtoimax_text (r := []) hx nofun
  rw [List.append_nil] at h
  rw [validNumber, h]
  rfl

theorem startsInteger_text (r : Text) : startsInteger (x.text ++ r) = true := by
  obtain ⟨d, ds, hd, hdigit⟩ := x.exists_digits
  rw [text, List.append_assoc, hd]
  rcases x.isSign with h | h | h
  · rw [h, List.nil_append, List.cons_append, startsInteger, hdigit, Bool.true_or]
  · rw [h, List.cons_append, List.nil_append, List.cons_append, startsInteger, List.head?_cons,
      Option.any_some, hdigit]
    rfl
  · rw [h, List.cons_append, List.nil_append, List.cons_append, startsInteger, List.head?_cons,
      Option.any_some, hdigit]
    rfl

end IntText

theorem splitSpecifier_append {t : Text} (ht : ∀ c ∈ t, c ≠ 0x2e) (s : Text) :
    splitSpecifier (t ++ 0x2e :: 0x2e :: s) = some (t, s) := by
  induction t with
  | nil => rfl
  | cons c t ih =>
    obtain ⟨hc, ht⟩ := List.forall_mem_cons.mp ht
    rw [List.cons_append, splitSpecifier, if_neg fun h => hc h.1, ih ht]
    rfl

theorem incrText_head (i : Option IntText) : incrText i = [] ∨ (incrText i).head? = some 0x2e := by
  cases i with
  | none => exact Or.inl rfl
  | some i => exact Or.inr rfl

theorem rhsTerm_text (isalpha : UInt8 → Bool) (y : IntText) (hy : IsIntmax y.value)
    (i : Option IntText) :
    rhsTerm isalpha (y.text ++ incrText i) = (.int, y.value, incrText i) := by
  have hr : ∀ c ∈ (incrText i).head?, isDigit c = false := by
    cases i with
    | none => exact nofun
    | some i =>
      intro c hc
      cases hc
      rfl
  unfold rhsTerm
  rw [if_pos (y.startsInteger_text _), y.strtoimax_text hy hr]
  exact if_pos (incrText_head i)

theorem increment_text (i : Option IntText) (hi : ∀ v ∈ i, IsIntmax v.value) :
    increment (incrText i) = some (incrValue i) := by
  cases i with
  | none => rfl
  | some i =>
    obtain ⟨c, s, hc⟩ := List.exists_cons_of_ne_nil i.text_ne_nil
    have h := i.strtoimax_text (r := []) (hi i rfl) nofun
    rw [List.append_nil] at h
    rw [incrText, hc, increment, ← hc, h]
    rfl

theorem leadingZero_iff (x : IntText) (r : Text) :
    x.LeadingZero ↔ (1 < x.text.length ∧ (x.text ++ r)[0]? = some 0x30) ∨
      (2 < x.text.length ∧ (x.text ++ r)[0]? = some 0x2d ∧ (x.text ++ r)[1]? = some 0x30) := by
  obtain ⟨d, ds, hd, hdigit⟩ := x.exists_digits
  obtain ⟨-, hplus, hminus, -⟩ := isDigit_ne hdigit
  rw [IntText.LeadingZero, IntText.text, hd]
  rcases x.isSign with h | h | h
  · simp [h, hminus]
    tauto
  · simp [h]
  · simp [h]
    tauto

/-- All terms are padded if one side asks for it. -/
theorem padding_eq (s u : Text) (m : Nat) {n : Nat} (hn : 0 < n) : padding s u m n =
    if (1 < m ∧ s[0]? = some 0x30 ∨ 2 < m ∧ s[0]? = some 0x2d ∧ s[1]? = some 0x30) ∨
        (1 < n ∧ u[0]? = some 0x30 ∨ 2 < n ∧ u[0]? = some 0x2d ∧ u[1]? = some 0x30) then
      (.zint, max m n)
    else (.int, 0) := by
  -- the left side sets the width, then the right side
  have hleft : (if 2 < m ∧ s[0]? = some 0x2d ∧ s[1]? = some 0x30 then (SeqType.zint, m)
      else if 1 < m ∧ s[0]? = some 0x30 then (SeqType.zint, m) else (SeqType.int, 0)) =
      if 1 < m ∧ s[0]? = some 0x30 ∨ 2 < m ∧ s[0]? = some 0x2d ∧ s[1]? = some 0x30 then
        (SeqType.zint, m)
      else (SeqType.int, 0) := by
    split_ifs <;> tauto
  unfold padding
  dsimp only
  rw [hleft]
  by_cases hs : 1 < m ∧ s[0]? = some 0x30 ∨ 2 < m ∧ s[0]? = some 0x2d ∧ s[1]? = some 0x30
  · rw [if_pos (Or.inl hs)]
    simp only [if_pos hs]
    by_cases hmn : m < n
    · have hmax : max m n = n := Nat.max_eq_right (Nat.le_of_lt hmn)
      rw [hmax]
      by_cases h1 : 1 < n ∧ u[0]? = some 0x30
      · simp [h1, hmn, Nat.lt_asymm hmn]
      · by_cases h2 : 2 < n ∧ u[0]? = some 0x2d ∧ u[1]? = some 0x30
        · simp [h2, hmn, Nat.lt_asymm hmn]
        · have h1' : ¬(1 < n ∧ u[0]? = some 0x30 ∧ m < n) := fun h => h1 ⟨h.1, h.2.1⟩
          have h2' : ¬(2 < n ∧ u[0]? = some 0x2d ∧ u[1]? = some 0x30 ∧ m < n) :=
            fun h => h2 ⟨h.1, h.2.1, h.2.2.1⟩
          simp only [if_neg h1', if_neg h2', Nat.lt_irrefl, false_and, if_false]
          simp [hmn]
    · simp [hmn, Nat.max_eq_left (Nat.not_lt.mp hmn)]
  · simp only [if_neg hs]
    by_cases h1 : 1 < n ∧ u[0]? = some 0x30
    · by_cases hnm : n < m
      · simp [h1, hn, hnm, Nat.lt_asymm hnm, Nat.max_eq_left (Nat.le_of_lt hnm)]
      · simp [h1, hn, hnm, Nat.max_eq_right (Nat.not_lt.mp hnm)]
    · have h1' : ¬(1 < n ∧ u[0]? = some 0x30 ∧ 0 < n) := fun h => h1 ⟨h.1, h.2.1⟩
      by_cases h2 : 2 < n ∧ u[0]? = some 0x2d ∧ u[1]? = some 0x30
      · by_cases hnm : n < m
        · simp [h2, hn, hnm, Nat.lt_asymm hnm, Nat.max_eq_left (Nat.le_of_lt hnm)]
        · simp [h2, hn, hnm, Nat.max_eq_right (Nat.not_lt.mp hnm)]
      · have h2' : ¬(2 < n ∧ u[0]? = some 0x2d ∧ u[1]? = some 0x30 ∧ 0 < n) :=
          fun h => h2 ⟨h.1, h.2.1, h.2.2.1⟩
        have hu : ¬(1 < n ∧ u[0]? = some 0x30 ∨
            2 < n ∧ u[0]? = some 0x2d ∧ u[1]? = some 0x30) := fun h => h.elim h1 h2
        simp only [if_neg h1', if_neg h2', if_neg fun h => Or.elim h hs hu]
        simp

theorem padding_text (x y : IntText) (r : Text) :
    padding x.text (y.text ++ r) x.text.length y.text.length =
      if x.LeadingZero ∨ y.LeadingZero then (.zint, max x.text.length y.text.length)
      else (.int, 0) := by
  have hx := leadingZero_iff x []
  rw [List.append_nil] at hx
  rw [padding_eq _ _ _ (List.length_pos_of_ne_nil y.text_ne_nil)]
  simp only [hx, leadingZero_iff y r]

/-! ## The loop -/

theorem mkseqLoop_eq (mem : Memory) (type : SeqType) (width : Nat) {incr : Int} {k : Nat}
    {n : Int} (i : Nat) (h : ∀ j ≤ k, IsIntmax (n + incr * j)) :
    mkseqLoop mem incr type width k i n =
      .ok ((List.range (k + 1)).mapM fun j => term mem type width (i + j) (n + incr * j)) := by
  induction k generalizing i n with
  | zero =>
    unfold mkseqLoop
    rw [List.range_one, List.mapM_cons, List.mapM_nil, Nat.add_zero, Int.natCast_zero,
      Int.mul_zero, Int.add_zero]
    cases term mem type width i n <;> rfl
  | succ k ih =>
    have hstep : ∀ j : Nat, n + incr + incr * j = n + incr * (j + 1 : Nat) := by
      intro j
      push_cast
      ring
    have h1 : IsIntmax (n + incr) := by
      have := h 1 (by omega)
      rwa [Int.natCast_one, Int.mul_one] at this
    have hrec := ih (n := n + incr) (i + 1) fun j hj => by
      rw [hstep]
      exact h (j + 1) (by omega)
    unfold mkseqLoop
    rw [List.range_succ_eq_map, List.mapM_cons, Nat.add_zero, Int.natCast_zero, Int.mul_zero,
      Int.add_zero, List.mapM_map]
    cases term mem type width i n with
    | none => rfl
    | some t =>
      dsimp only
      have hterms : (fun j : Nat => term mem type width (i + 1 + j) (n + incr + incr * j)) =
          (fun j : Nat => term mem type width (i + j) (n + incr * j)) ∘ Nat.succ := by
        funext j
        rw [Function.comp, hstep, Nat.succ_eq_add_one, Nat.add_assoc, Nat.add_comm 1 j]
      rw [if_pos h1, hrec, hterms]
      cases (List.range (k + 1)).mapM
        ((fun j : Nat => term mem type width (i + j) (n + incr * j)) ∘ Nat.succ) <;> rfl

/-! ## The checks -/

/-- The increment is negated if it does not point from `start` to `stop`. -/
theorem ckdSub_incr {start stop i : Int} (h : IsIntmax i)
    (hm : IsIntmax (i.natAbs : Int)) :
    (if decide (start < stop) = decide (i < 0) then ckdSub 0 i else some i) =
      some (if start < stop then (i.natAbs : Int) else -i.natAbs) := by
  obtain ⟨hlo, hhi⟩ := h
  obtain ⟨-, hhi'⟩ := hm
  by_cases hneg : i < 0
  · have hfit : IsIntmax (0 - i) := ⟨by omega, by omega⟩
    by_cases hlt : start < stop
    · rw [if_pos (decide_eq_decide.mpr (iff_of_true hlt hneg)), if_pos hlt, ckdSub, if_pos hfit]
      congr 1
      omega
    · rw [if_neg fun h => hlt ((decide_eq_decide.mp h).mpr hneg), if_neg hlt]
      congr 1
      omega
  · have hfit : IsIntmax (0 - i) := ⟨by omega, by omega⟩
    by_cases hlt : start < stop
    · rw [if_neg fun h => hneg ((decide_eq_decide.mp h).mp hlt), if_pos hlt]
      congr 1
      omega
    · rw [if_pos (decide_eq_decide.mpr (iff_of_false hlt hneg)), if_neg hlt, ckdSub,
        if_pos hfit]
      congr 1
      omega

theorem ckdSub_abs {i : Int} (h : IsIntmax i) : (if i < 0 then ckdSub 0 i else some i) =
    if IsIntmax (i.natAbs : Int) then some (i.natAbs : Int) else none := by
  by_cases hneg : i < 0
  · rw [if_pos hneg, ckdSub, show 0 - i = (i.natAbs : Int) by omega]
  · have hi : (i.natAbs : Int) = i := by omega
    rw [if_neg hneg, hi, if_pos h]

theorem ckdSub_distance (start stop : Int) :
    (if start < stop then ckdSub stop start else ckdSub start stop) =
      if IsIntmax ((stop - start).natAbs : Int) then some ((stop - start).natAbs : Int)
      else none := by
  by_cases hlt : start < stop
  · rw [if_pos hlt, ckdSub, show stop - start = ((stop - start).natAbs : Int) by omega,
      Int.natAbs_natCast]
  · rw [if_neg hlt, ckdSub, show start - stop = ((stop - start).natAbs : Int) by omega]

/-- Room for the terms and the null pointer. -/
theorem ckdAddSize_count {d : Nat} (m : Nat) (hd : IsIntmax (d : Int)) :
    ckdAddSize ((d : Int).tdiv m) 2 = some (d / m + 2) := by
  have hle : d / m ≤ d := Nat.div_le_self d m
  have hmax : (d : Int) ≤ 9223372036854775807 := hd.2
  have hdiv : (d : Int).tdiv m = ((d / m : Nat) : Int) := rfl
  rw [hdiv]
  generalize d / m = q at *
  rw [ckdAddSize, if_pos (by omega)]
  rfl

theorem isIntmax_term {start stop : Int} (hs : IsIntmax start) (he : IsIntmax stop) {m j : Nat}
    (hj : j ≤ (stop - start).natAbs / m) :
    IsIntmax (start + (if start < stop then (m : Int) else -m) * j) := by
  have hle : j * m ≤ (stop - start).natAbs :=
    Nat.le_trans (Nat.mul_le_mul_right m hj) (Nat.div_mul_le_self _ m)
  obtain ⟨hs1, hs2⟩ := hs
  obtain ⟨he1, he2⟩ := he
  have hcast : (m : Int) * j = ((j * m : Nat) : Int) := by
    push_cast
    ring
  split
  · rw [hcast]
    exact ⟨by omega, by omega⟩
  · rw [Int.neg_mul, hcast]
    exact ⟨by omega, by omega⟩

theorem natAbs_incr (incr : Int) : (if incr = 0 then 1 else incr).natAbs = magnitude incr := by
  rw [magnitude]
  split <;> rfl

/-- `mkseq` on numbers of type `intmax_t`, if the increment and the distance fit. -/
theorem mkseq_eq (mem : Memory) {start stop incr : Int} (hs : IsIntmax start)
    (he : IsIntmax stop) (hi : IsIntmax incr) (type : SeqType) (width : Nat)
    (h1 : IsIntmax (magnitude incr : Int)) (h2 : IsIntmax ((stop - start).natAbs : Int)) :
    mkseq mem start stop incr type width =
      if mem.vector ((stop - start).natAbs / magnitude incr + 2) = true then
        .ok ((List.range ((stop - start).natAbs / magnitude incr + 1)).mapM fun j =>
          term mem type width j
            (start + (if start < stop then (magnitude incr : Int) else -magnitude incr) * j))
      else .ok none := by
  have hi' : IsIntmax (if incr = 0 then 1 else incr) := by
    split
    · exact ⟨by omega, by omega⟩
    · exact hi
  have habs := ckdSub_abs hi'
  have hincr := @ckdSub_incr start stop _ hi'
  have hdist := ckdSub_distance start stop
  have hloop := mkseqLoop_eq mem type width 0 fun j hj =>
    isIntmax_term hs he (m := magnitude incr) hj
  rw [natAbs_incr] at habs hincr
  rw [if_pos h1] at habs
  rw [if_pos h2] at hdist
  unfold mkseq
  dsimp only
  rw [habs]
  dsimp only
  rw [hincr h1]
  dsimp only
  split
  · rename_i hnone
    rw [hdist] at hnone
    cases hnone
  · rename_i prevn hsome
    rw [hdist] at hsome
    obtain rfl := Option.some.inj hsome
    rw [ckdAddSize_count _ h2]
    dsimp only
    rw [Nat.add_sub_cancel, hloop]
    simp only [Nat.zero_add]

theorem mkseq_none (mem : Memory) {start stop incr : Int} (hi : IsIntmax incr) (type : SeqType)
    (width : Nat)
    (h : ¬(IsIntmax (magnitude incr : Int) ∧ IsIntmax ((stop - start).natAbs : Int))) :
    mkseq mem start stop incr type width = .ok none := by
  have hi' : IsIntmax (if incr = 0 then 1 else incr) := by
    split
    · exact ⟨by omega, by omega⟩
    · exact hi
  have habs := ckdSub_abs hi'
  have hincr := @ckdSub_incr start stop _ hi'
  have hdist := ckdSub_distance start stop
  rw [natAbs_incr] at habs hincr
  unfold mkseq
  dsimp only
  rw [habs]
  by_cases h1 : IsIntmax (magnitude incr : Int)
  · rw [if_neg fun h2 => h ⟨h1, h2⟩] at hdist
    rw [if_pos h1]
    dsimp only
    rw [hincr h1]
    dsimp only
    rw [hdist]
  · rw [if_neg h1]

/-! ## The terms -/

/-- The multiples of `m` up to `d`. -/
theorem filter_range_mul (d : Nat) {m : Nat} (hm : 0 < m) :
    (List.range (d + 1)).filter (fun k => k * m ≤ d) = List.range (d / m + 1) := by
  have hp : ∀ k : Nat, k * m ≤ d ↔ k ≤ d / m := fun k => (Nat.le_div_iff_mul_le hm).symm
  obtain ⟨r, hr⟩ := Nat.exists_eq_add_of_le (Nat.succ_le_succ (Nat.div_le_self d m))
  rw [← Nat.succ_eq_add_one d, hr, List.range_add, List.filter_append]
  have hall : (List.range (d / m).succ).filter (fun k => k * m ≤ d) = List.range (d / m).succ := by
    apply List.filter_eq_self.mpr
    intro k hk
    exact decide_eq_true ((hp k).mpr (Nat.le_of_lt_succ (List.mem_range.mp hk)))
  have hnil : ((List.range r).map ((d / m).succ + ·)).filter (fun k => k * m ≤ d) = [] := by
    apply List.filter_eq_nil_iff.mpr
    intro k hk
    obtain ⟨j, -, rfl⟩ := List.mem_map.mp hk
    rw [decide_eq_true_iff, hp]
    omega
  rw [hall, hnil, List.append_nil]

theorem progression_eq (x y : Int) {m : Nat} (hm : 0 < m) : progression x y m =
    (List.range ((y - x).natAbs / m + 1)).map fun k : Nat =>
      x + (if x < y then (m : Int) else -m) * k := by
  rw [progression, filter_range_mul _ hm]
  apply List.map_congr_left
  intro k hk
  have hk' : k * m ≤ (y - x).natAbs := by
    have := List.mem_range.mp hk
    exact Nat.le_trans (Nat.mul_le_mul_right m (by omega)) (Nat.div_mul_le_self _ m)
  have hcast : ((k * m : Nat) : Int) = m * k := by
    push_cast
    ring
  rcases Int.lt_trichotomy x y with hlt | rfl | hgt
  · rw [if_pos hlt, Int.sign_eq_one_of_pos (by omega), Int.one_mul, hcast]
  · rw [Int.sub_self, Int.natAbs_zero] at hk'
    have hk0 : k = 0 := (Nat.mul_eq_zero.mp (Nat.le_zero.mp hk')).resolve_right (by omega)
    rw [hk0, Nat.zero_mul, Int.natCast_zero, Int.mul_zero, Int.mul_zero]
  · rw [if_neg (by omega), Int.sign_eq_neg_one_of_neg (by omega), Int.neg_mul, Int.one_mul, hcast,
      Int.neg_mul]

theorem magnitude_pos (i : Int) : 0 < magnitude i := by
  rw [magnitude]
  split
  · decide
  · exact Int.natAbs_pos.mpr ‹i ≠ 0›

theorem itos_eq (n : Int) :
    itos n = (if n < 0 then [0x2d] else []) ++ (Nat.toDigits 10 n.natAbs).map Char.toUInt8 := by
  rw [itos, Display.decimal]
  split <;> rfl

theorem padTo_of_le {w : Nat} {n : Int} (h : w ≤ (itos n).length) : padTo w n = itos n := by
  rw [padTo, Nat.sub_eq_zero_of_le h, List.replicate_zero, List.append_nil, ← itos_eq]

/-- The zeros go behind the sign. -/
theorem padTo_eq (w : Nat) (n : Int) :
    (itos n).take (if n < 0 then 1 else 0) ++ List.replicate (w - (itos n).length) 0x30 ++
      (itos n).drop (if n < 0 then 1 else 0) = padTo w n := by
  rw [padTo]
  have h := itos_eq n
  by_cases hn : n < 0
  · rw [if_pos hn] at h ⊢
    rw [if_pos hn]
    congr 1
    · rw [h]
      rfl
    · rw [h]
      rfl
  · rw [if_neg hn] at h ⊢
    rw [if_neg hn, List.take_zero, List.drop_zero, List.nil_append]
    congr 1

theorem padTo_length (w : Nat) (n : Int) : (padTo w n).length = max w (itos n).length := by
  have h := congrArg List.length (itos_eq n)
  rw [List.length_append] at h
  rw [padTo, List.length_append, List.length_append, List.length_replicate]
  omega

/-- The text of a term, if there is memory for it. -/
theorem term_eq (mem : Memory) (x y : IntText) (i : Nat) (n : Int) :
    term mem (if x.LeadingZero ∨ y.LeadingZero then SeqType.zint else .int)
        (if x.LeadingZero ∨ y.LeadingZero then max x.text.length y.text.length else 0) i n =
      some (format x y n) ∨
    term mem (if x.LeadingZero ∨ y.LeadingZero then SeqType.zint else .int)
        (if x.LeadingZero ∨ y.LeadingZero then max x.text.length y.text.length else 0) i n = none ∧
      mem.text i = false := by
  rw [format]
  split
  · rw [term]
    dsimp only
    split
    · rw [padTo_eq]
      cases mem.text i with
      | false => exact Or.inr ⟨rfl, rfl⟩
      | true => exact Or.inl rfl
    · rename_i h
      rw [padTo_of_le (Nat.not_lt.mp h)]
      exact Or.inl rfl
  · exact Or.inl rfl

theorem mapM_text {f : Nat → Option Text} {g : Nat → Text} {bad : Nat → Prop} {l : List Nat}
    (h : ∀ j, f j = some (g j) ∨ f j = none ∧ bad j) :
    l.mapM f = some (l.map g) ∨ l.mapM f = none ∧ ∃ j ∈ l, bad j := by
  induction l with
  | nil => exact Or.inl rfl
  | cons j l ih =>
    rw [List.mapM_cons]
    rcases h j with hj | ⟨hj, hbad⟩
    · rw [hj]
      rcases ih with ih | ⟨ih, k, hk, hbad⟩
      · rw [ih]
        exact Or.inl rfl
      · rw [ih]
        exact Or.inr ⟨rfl, k, List.mem_cons_of_mem _ hk, hbad⟩
    · rw [hj]
      exact Or.inr ⟨rfl, j, List.mem_cons_self .., hbad⟩

/-! ## Widths -/

theorem foldl_decimal_lt (ds : Text) (hds : ∀ c ∈ ds, isDigit c = true) (n : Nat) :
    ds.foldl (fun n c => 10 * n + (c.toNat - 48)) n < (n + 1) * 10 ^ ds.length := by
  induction ds generalizing n with
  | nil =>
    rw [List.foldl_nil, List.length_nil, Nat.pow_zero]
    omega
  | cons c ds ih =>
    obtain ⟨hc, hds⟩ := List.forall_mem_cons.mp hds
    have hd : c.toNat ≤ 57 := (of_decide_eq_true (Bool.and_eq_true_iff.mp hc).2 : c ≤ 57)
    rw [List.foldl_cons, List.length_cons, Nat.pow_succ]
    calc _ < (10 * n + (c.toNat - 48) + 1) * 10 ^ ds.length := ih hds _
      _ ≤ (10 * (n + 1)) * 10 ^ ds.length := Nat.mul_le_mul_right _ (by omega)
      _ = (n + 1) * (10 ^ ds.length * 10) := by ring

theorem toDigits_length_le (x : IntText) {n : Nat} (h : n ≤ decimalValue x.digits) :
    ((Nat.toDigits 10 n).map Char.toUInt8).length ≤ x.digits.length := by
  have hlt := foldl_decimal_lt x.digits x.isDigits 0
  rw [Nat.zero_add, Nat.one_mul] at hlt
  rw [List.length_map]
  exact (Nat.length_toDigits_le_iff (by decide) (List.length_pos_of_ne_nil x.ne_nil)).mpr
    (Nat.lt_of_le_of_lt h hlt)

/-- A number on the side of zero that the integer is on, and not beyond it, is not longer. -/
theorem itos_length_le (z : IntText) {n : Int} (h : 0 ≤ n ∧ n ≤ z.value ∨ n < 0 ∧ z.value ≤ n) :
    (itos n).length ≤ z.text.length := by
  rw [itos_eq, IntText.text, List.length_append, List.length_append]
  unfold IntText.value at h
  rcases h with ⟨h0, h1⟩ | ⟨h0, h1⟩
  · have hn : n.natAbs ≤ decimalValue z.digits := by
      split at h1 <;> omega
    have := toDigits_length_le z hn
    rw [if_neg (by omega), List.length_nil]
    omega
  · have hsign : z.sign = [0x2d] := by
      by_contra hne
      rw [if_neg hne] at h1
      omega
    rw [if_pos hsign] at h1
    have := toDigits_length_le z (n := n.natAbs) (by omega)
    rw [if_pos h0, hsign]
    exact Nat.add_le_add_left this 1

theorem mem_progression {x y : Int} {m : Nat} {n : Int} (h : n ∈ progression x y m) :
    x ≤ n ∧ n ≤ y ∨ y ≤ n ∧ n ≤ x := by
  obtain ⟨k, hk, rfl⟩ := List.mem_map.mp h
  have hk' : k * m ≤ (y - x).natAbs := of_decide_eq_true (List.mem_filter.mp hk).2
  rcases Int.lt_trichotomy x y with hlt | rfl | hgt
  · rw [Int.sign_eq_one_of_pos (by omega)]
    omega
  · rw [Int.sub_self, Int.sign_zero]
    omega
  · rw [Int.sign_eq_neg_one_of_neg (by omega)]
    omega

theorem format_length {x y : IntText} {m : Nat} {n : Int} (h : n ∈ progression x.value y.value m)
    (hz : x.LeadingZero ∨ y.LeadingZero) :
    (format x y n).length = max x.text.length y.text.length := by
  rw [format, if_pos hz, padTo_length]
  apply Nat.max_eq_left
  have hx := Nat.le_max_left x.text.length y.text.length
  have hy := Nat.le_max_right x.text.length y.text.length
  by_cases h0 : 0 ≤ n
  · rcases mem_progression h with ⟨-, h2⟩ | ⟨-, h2⟩
    · exact Nat.le_trans (itos_length_le y (Or.inl ⟨h0, h2⟩)) hy
    · exact Nat.le_trans (itos_length_le x (Or.inl ⟨h0, h2⟩)) hx
  · rcases mem_progression h with ⟨h1, -⟩ | ⟨h1, -⟩
    · exact Nat.le_trans (itos_length_le x (Or.inr ⟨by omega, h1⟩)) hx
    · exact Nat.le_trans (itos_length_le y (Or.inr ⟨by omega, h1⟩)) hy

/-! ## Sequence expressions -/

theorem expandSeqterm_eq (mem : Memory) (isalpha : UInt8 → Bool) (x y : IntText)
    (i : Option IntText) (hx : IsIntmax x.value) (hy : IsIntmax y.value)
    (hi : ∀ v ∈ i, IsIntmax v.value) :
    expandSeqterm mem isalpha (seqterm x y i) =
      mkseq mem x.value y.value (incrValue i)
        (if x.LeadingZero ∨ y.LeadingZero then SeqType.zint else .int)
        (if x.LeadingZero ∨ y.LeadingZero then max x.text.length y.text.length else 0) := by
  have hlen : (seqterm x y i).length - (incrText i).length - x.text.length - 2 = y.text.length := by
    rw [seqterm, List.length_append, List.length_cons, List.length_cons, List.length_append]
    omega
  have hne : ¬(x.text = [] ∨ y.text ++ incrText i = []) := by
    rintro (h | h)
    · exact x.text_ne_nil h
    · exact y.text_ne_nil (List.append_eq_nil_iff.mp h).1
  have hsplit : splitSpecifier (seqterm x y i) = some (x.text, y.text ++ incrText i) :=
    splitSpecifier_append x.dot_not_mem _
  unfold expandSeqterm
  rw [hsplit]
  dsimp only
  rw [if_neg hne, x.validNumber_text hx, rhsTerm_text isalpha y hy i]
  dsimp only
  rw [if_neg SeqType.noConfusion, increment_text i hi]
  dsimp only
  rw [if_neg (by decide), if_neg (by decide), hlen, padding_text]
  split <;> rfl

/-- Sequence expressions generate the exact progression, or nothing if the increment or the
distance does not fit or memory is refused. -/
theorem expandSeqterm_integers (mem : Memory) (isalpha : UInt8 → Bool) (x y : IntText)
    (i : Option IntText) (hx : IsIntmax x.value) (hy : IsIntmax y.value)
    (hi : ∀ v ∈ i, IsIntmax v.value) :
    let numbers := progression x.value y.value (magnitude (incrValue i))
    (expandSeqterm mem isalpha (seqterm x y i) = .ok (some (numbers.map (format x y))) ∨
      expandSeqterm mem isalpha (seqterm x y i) = .ok none ∧
        (¬IsIntmax ((incrValue i).natAbs : Int) ∨ ¬IsIntmax ((y.value - x.value).natAbs : Int) ∨
          Refused mem numbers.length)) ∧
    (x.LeadingZero ∨ y.LeadingZero →
      ∀ t ∈ numbers.map (format x y), t.length = max x.text.length y.text.length) := by
  intro numbers
  constructor
  · have hi' : IsIntmax (incrValue i) := by
      cases i with
      | none => exact ⟨by decide, by decide⟩
      | some v => exact hi v rfl
    rw [expandSeqterm_eq mem isalpha x y i hx hy hi]
    by_cases hfits : IsIntmax (magnitude (incrValue i) : Int) ∧
        IsIntmax ((y.value - x.value).natAbs : Int)
    · have hnumbers : numbers = _ :=
        progression_eq x.value y.value (magnitude_pos (incrValue i))
      have hlen : numbers.length =
          (y.value - x.value).natAbs / magnitude (incrValue i) + 1 := by
        rw [hnumbers, List.length_map, List.length_range]
      rw [mkseq_eq mem hx hy hi' _ _ hfits.1 hfits.2]
      split
      · rcases mapM_text fun j => term_eq mem x y j _ with h | ⟨h, j, hj, hbad⟩
        · rw [h, hnumbers, List.map_map]
          exact Or.inl rfl
        · rw [h]
          refine Or.inr ⟨rfl, Or.inr (Or.inr (Or.inr ⟨j, ?_, hbad⟩))⟩
          rw [hlen]
          exact List.mem_range.mp hj
      · rename_i h
        refine Or.inr ⟨rfl, Or.inr (Or.inr (Or.inl ?_))⟩
        rw [hlen]
        exact Bool.not_eq_true _ ▸ h
    · rw [mkseq_none mem hi' _ _ hfits]
      refine Or.inr ⟨rfl, ?_⟩
      by_cases h1 : IsIntmax (magnitude (incrValue i) : Int)
      · exact Or.inr (Or.inl fun h2 => hfits ⟨h1, h2⟩)
      · left
        intro h
        apply h1
        rw [magnitude]
        split
        · exact ⟨by decide, by decide⟩
        · exact h
  · intro hz t ht
    obtain ⟨n, hn, rfl⟩ := List.mem_map.mp ht
    exact format_length hn hz

/-- `-5`. -/
def minusFive : IntText := ⟨[0x2d], [0x35], by decide, by decide, by decide +kernel⟩

/-- `010`. -/
def zeroTen : IntText := ⟨[], [0x30, 0x31, 0x30], by decide, by decide, by decide +kernel⟩

/-- `+01`. -/
def plusOne : IntText := ⟨[0x2b], [0x30, 0x31], by decide, by decide, by decide +kernel⟩

/-- `{-5..010}`. -/
theorem expandSeqterm_padded :
    let mem : Memory := ⟨fun _ => true, fun _ => true⟩
    let numbers := progression (-5) 10 1
    (expandSeqterm mem (fun _ => false) (seqterm minusFive zeroTen none) =
        .ok (some (numbers.map (format minusFive zeroTen))) ∨
      expandSeqterm mem (fun _ => false) (seqterm minusFive zeroTen none) = .ok none ∧
        (¬IsIntmax 1 ∨ ¬IsIntmax 15 ∨ Refused mem numbers.length)) ∧
    (minusFive.LeadingZero ∨ zeroTen.LeadingZero →
      ∀ t ∈ numbers.map (format minusFive zeroTen), t.length = 3) :=
  expandSeqterm_integers ⟨fun _ => true, fun _ => true⟩ (fun _ => false) minusFive zeroTen none
    ⟨by decide, by decide⟩ ⟨by decide, by decide⟩ nofun

/-- `{+01..-5}`: a zero behind a plus sign is not looked for, and the terms are not padded. -/
theorem plus_zero : plusOne.digits.head? = some 0x30 ∧ plusOne.text.length = 3 ∧
    expandSeqterm ⟨fun _ => true, fun _ => true⟩ (fun _ => false) (seqterm plusOne minusFive none) =
      .ok (some [[0x31], [0x30], [0x2d, 0x31], [0x2d, 0x32], [0x2d, 0x33], [0x2d, 0x34],
        [0x2d, 0x35]]) := by
  decide +kernel

end Basht.Braces
