import Basht.Expr.Evaluator
import Basht.Numbers.Fmtulong
import Basht.Library.Fallible

/-!
# Printed numbers are read back

The prefix that `fmtulong` writes is one that `strlong` knows, and they share the alphabet of the
digits; so `strlong` reads the number back (`strlong_unsignedText`). The text of a negative number
is an expression, the negation of a constant (`evalexp_signed`).
-/

namespace Basht.Expr

open Fallible Numerals Numbers

/-! ## The shared alphabet -/

/-- The digits depend on the base only in the letters. -/
theorem digitOf_class (base : Nat) (c : UInt8) :
    digitOf base c = digitOf (if base ≤ 36 then 36 else 64) c := by
  by_cases hlow : base ≤ 36
  · rw [if_pos hlow, digitOf, digitOf, if_pos hlow, if_pos hlow, if_pos (Nat.le_refl 36),
      if_pos (Nat.le_refl 36)]
  · have h64 : ¬(64 : Nat) ≤ 36 := by decide
    rw [if_neg hlow, digitOf, digitOf, if_neg hlow, if_neg hlow, if_neg h64, if_neg h64]

theorem digitOf_symbol {base : Nat} (hb : base ≤ 64) (hexupper : Bool) {d : Nat} (hd : d < base) :
    digitOf base (symbol base hexupper d) = some d := by
  have hlower : ∀ d < 36, digitOf 36 (all_digs.getD d 0) = some d := by decide
  have hall : ∀ d < 64, digitOf 64 (all_digs.getD d 0) = some d := by decide
  have hupper : ∀ d < 16, digitOf 36 (X_digs.getD d 0) = some d := by decide
  rw [digitOf_class, symbol]
  by_cases hhex : base = 16 ∧ hexupper = true
  · rw [if_pos hhex, if_pos (by omega)]
    exact hupper d (by omega)
  · rw [if_neg hhex]
    split
    · exact hlower d (by omega)
    · exact hall d (by omega)

/-- `strlong` takes the same ASCII characters in all locales. -/
theorem validNumchar_ascii (L : Ctype) {c : UInt8} (hc : c < 0x80) :
    validNumchar L c = validNumchar cLocale c := by
  rw [validNumchar, validNumchar, L.ascii c hc, cLocale.ascii c hc]

/-- It takes all the digits. -/
theorem validNumchar_symbol (L : Ctype) {base : Nat} (hb : base ≤ 64) (hexupper : Bool) {d : Nat}
    (hd : d < base) : validNumchar L (symbol base hexupper d) = true := by
  have hall : ∀ d < 64, all_digs.getD d 0 < 0x80 ∧
      validNumchar cLocale (all_digs.getD d 0) = true := by decide +kernel
  have hupper : ∀ d < 16, X_digs.getD d 0 < 0x80 ∧
      validNumchar cLocale (X_digs.getD d 0) = true := by decide
  have hvalid : symbol base hexupper d < 0x80 ∧
      validNumchar cLocale (symbol base hexupper d) = true := by
    rw [symbol]
    by_cases hhex : base = 16 ∧ hexupper = true
    · rw [if_pos hhex]
      exact hupper d (by omega)
    · rw [if_neg hhex]
      exact hall d (by omega)
  rw [validNumchar_ascii L hvalid.1]
  exact hvalid.2

theorem number_numeral {base : Nat} (hb : 2 ≤ base) (hb' : base ≤ 64) (hexupper : Bool) (n : Nat) :
    number base (numeral (symbol base hexupper) base n) = some n :=
  value_numeral hb (fun _ hd => digitOf_symbol hb' hexupper hd) n

/-! ## Constants -/

/-- A decimal constant. -/
theorem constant_decimal (f : Nat → Nat) (n : Nat) :
    constant f (numeral (symbol 10 false) 10 n) = some n := by
  obtain ⟨c, t, hct, -, hc⟩ := @numeral_head 10 (by decide) (by decide) false n
  have hnumber := @number_numeral 10 (by decide) (by decide) false n
  by_cases hzero : n = 0
  · rw [hzero]
    rfl
  · have hhead : (numeral (symbol 10 false) 10 n).head? ≠ some 0x30 := by
      rw [hct, List.head?_cons]
      intro h
      exact hzero (hc.mp (Option.some.inj h))
    rw [constant_of_head hhead, if_neg (hash_not_mem hnumber), hnumber]

/-- A constant with its base. -/
theorem constant_based {base : Nat} (hb : 2 ≤ base) (hb' : base ≤ 64) (hexupper : Bool) (n : Nat) :
    constant (· % 18446744073709551616)
      (numeral (symbol 10 false) 10 base ++
        0x23 :: numeral (symbol base hexupper) base n) = some n := by
  obtain ⟨c, t, hct, -, hc⟩ := @numeral_head 10 (by decide) (by decide) false base
  have hbase := @number_numeral 10 (by decide) (by decide) false base
  have hhead : (numeral (symbol 10 false) 10 base ++
      0x23 :: numeral (symbol base hexupper) base n).head? ≠ some 0x30 := by
    rw [hct, List.cons_append, List.head?_cons]
    intro h
    have h0 := hc.mp (Option.some.inj h)
    omega
  obtain ⟨htake, hdrop⟩ := takeWhile_hash (hash_not_mem hbase)
    (numeral (symbol base hexupper) base n)
  have hmod : base % 18446744073709551616 = base := Nat.mod_eq_of_lt (by omega)
  rw [constant_of_head hhead, if_pos (List.mem_append_right _ List.mem_cons_self), htake, hdrop,
    basedNumber, hbase]
  dsimp only
  rw [hmod, if_pos ⟨hb, hb', numeral_ne_nil _ _ _⟩]
  exact number_numeral hb hb' hexupper n

/-- An octal constant. -/
theorem constant_octal (f : Nat → Nat) (hexupper : Bool) (n : Nat) :
    constant f (0x30 :: numeral (symbol 8 hexupper) 8 n) = some n := by
  obtain ⟨c, t, hct, hdigit, -⟩ := @numeral_head 8 (by decide) (by decide) hexupper n
  have hx : ¬(c = 0x78 ∨ c = 0x58) := by
    intro h
    rcases h with rfl | rfl
    · cases hdigit
    · cases hdigit
  have hnumber := @number_numeral 8 (by decide) (by decide) hexupper n
  rw [hct] at hnumber ⊢
  unfold constant
  simp only [if_neg hx]
  exact hnumber

/-- What is printed with a base, or with a prefix for the base, is a constant for the number. -/
theorem constant_unsignedText {base : Nat} (hb : 2 ≤ base) (hb' : base ≤ 64) {flags : Flags}
    (hflags : flags.flAddbase = true ∨ (flags.flPrefix = true ∧ (base = 8 ∨ base = 16)) ∨
      base = 10) (n : Nat) :
    constant (· % 18446744073709551616) (unsignedText base flags n) = some n := by
  unfold unsignedText prefixText
  by_cases hprefix : flags.flPrefix = true ∧ (base = 8 ∨ base = 16)
  · rw [if_pos hprefix]
    rcases hprefix.2 with rfl | rfl
    · rw [if_neg (by decide)]
      by_cases hn : n = 0
      · rw [hn]
        rfl
      · rw [if_pos hn]
        exact constant_octal _ flags.flHexupper n
    · rw [if_pos rfl]
      have hx : (if flags.flHexupper then 0x58 else 0x78 : UInt8) = 0x78 ∨
          (if flags.flHexupper then 0x58 else 0x78 : UInt8) = 0x58 := by
        split
        · exact Or.inr rfl
        · exact Or.inl rfl
      change constant _ (0x30 :: (if flags.flHexupper then 0x58 else 0x78) :: _) = _
      unfold constant
      simp only [if_pos hx]
      exact number_numeral hb hb' flags.flHexupper n
  · rw [if_neg hprefix]
    by_cases hten : base = 10
    · subst hten
      rw [if_neg fun h => h.2 rfl, List.nil_append, symbol_case (by decide)]
      exact constant_decimal _ n
    · have hadd : flags.flAddbase = true := by
        rcases hflags with h | h | h
        · exact h
        · exact absurd h hprefix
        · exact absurd h hten
      rw [if_pos ⟨hadd, hten⟩, List.append_assoc]
      exact constant_based hb hb' flags.flHexupper n

theorem isToken_numeral (L : Ctype) {base : Nat} (hb : 2 ≤ base) (hb' : base ≤ 64)
    (hexupper : Bool) (n : Nat) : IsToken L (numeral (symbol base hexupper) base n) := by
  intro c hc
  obtain ⟨d, hd, rfl⟩ := mem_numeral hb hc
  exact Or.inr (validNumchar_symbol L hb' hexupper hd)

theorem isToken_unsignedText (L : Ctype) {base : Nat} (hb : 2 ≤ base) (hb' : base ≤ 64)
    (flags : Flags) (n : Nat) : IsToken L (unsignedText base flags n) := by
  have hascii : ∀ c ∈ [0x30, 0x58, 0x78], validNumchar L c = true := by
    intro c hc
    have hc' : c < 0x80 ∧ validNumchar cLocale c = true := by
      simp only [List.mem_cons, List.not_mem_nil, or_false] at hc
      rcases hc with rfl | rfl | rfl <;> decide
    rw [validNumchar_ascii L hc'.1]
    exact hc'.2
  have hprefix : IsToken L (prefixText base flags n) := by
    unfold prefixText
    intro c hc
    split at hc
    · split at hc
      · apply Or.inr
        rcases List.mem_cons.mp hc with rfl | hc
        · exact hascii 0x30 (by decide)
        · rw [List.mem_singleton.mp hc]
          split
          · exact hascii 0x58 (by decide)
          · exact hascii 0x78 (by decide)
      · split at hc
        · apply Or.inr
          apply hascii
          rw [List.mem_singleton.mp hc]
          exact List.mem_cons_self
        · cases hc
    · split at hc
      · rcases List.mem_append.mp hc with hc | hc
        · exact isToken_numeral L (by decide) (by decide) false base c hc
        · exact Or.inl (List.mem_singleton.mp hc)
      · cases hc
  intro c hc
  rcases List.mem_append.mp hc with hc | hc
  · exact hprefix c hc
  · exact isToken_numeral L hb hb' flags.flHexupper n c hc

/-- `strlong` reads back what is printed, modulo `2 ^ 64`. -/
theorem strlong_unsignedText (L : Ctype) {base : Nat} (hb : 2 ≤ base) (hb' : base ≤ 64)
    {flags : Flags} (hflags : flags.flAddbase = true ∨
      (flags.flPrefix = true ∧ (base = 8 ∨ base = 16)) ∨ base = 10) (n : Nat) :
    strlong L (unsignedText base flags n) = .ok (Int64.ofNat n) := by
  have hagrees := strlong_agrees (isToken_unsignedText L hb hb' flags n)
  rw [constant_unsignedText hb hb' hflags] at hagrees
  cases hread : strlong L (unsignedText base flags n) with
  | error e =>
    rw [hread] at hagrees
    exact hagrees.elim
  | ok v =>
    rw [hread] at hagrees
    exact congrArg Except.ok hagrees

/-! ## Expressions -/

theorem readtok_end (L : Locale) {st : St} (h : st.tp = []) :
    readtok L st = .ok { st with tp := [], lasttok := st.curtok, curtok := .eof } := by
  unfold readtok
  rw [h]
  rfl

/-- A level whose operators do not follow leaves the value of its operand. -/
theorem leftLevel_of_next (L : Locale) {next : St → Except Stop Value}
    {apply : Token → Option (Int64 → Int64 → Int64)} {n : Nat} {st st' : St} {v : Int64}
    (h : next st = .ok (v, st')) (hnone : apply st'.curtok = none) :
    leftLevel L (n + 1) next apply st = .ok (v, st') := by
  rw [leftLevel, h, ok_bind]
  simp only [leftLoop, hnone]

/-- The levels above the unary operators, where nothing follows. -/
theorem expcomma_of_expunary (L : Locale) {n : Nat} {st st' : St} {v : Int64}
    (h : expunary L (expcomma L n) (n + 1) st = .ok (v, st')) (heof : st'.curtok = .eof) :
    expcomma L (n + 1) st = .ok (v, st') := by
  have hpower : exppower L (expcomma L n) (n + 1) st = .ok (v, st') := by
    rw [exppower, h, ok_bind]
    simp only [powerLoop, heof]
    rfl
  have hmuldiv : expmuldiv L (expcomma L n) (n + 1) st = .ok (v, st') := by
    rw [expmuldiv, hpower, ok_bind]
    simp only [muldivLoop, heof]
    rfl
  have haddsub : expaddsub L (expcomma L n) (n + 1) st = .ok (v, st') :=
    leftLevel_of_next L hmuldiv (by rw [heof]; rfl)
  have hshift : expshift L (expcomma L n) (n + 1) st = .ok (v, st') :=
    leftLevel_of_next L haddsub (by rw [heof]; rfl)
  have hcompare : expcompare L (expcomma L n) (n + 1) st = .ok (v, st') :=
    leftLevel_of_next L hshift (by rw [heof]; rfl)
  have heq : expeq L (expcomma L n) (n + 1) st = .ok (v, st') :=
    leftLevel_of_next L hcompare (by rw [heof]; rfl)
  have hband : expband L (expcomma L n) (n + 1) st = .ok (v, st') :=
    leftLevel_of_next L heq (by rw [heof]; rfl)
  have hbxor : expbxor L (expcomma L n) (n + 1) st = .ok (v, st') :=
    leftLevel_of_next L hband (by rw [heof]; rfl)
  have hbor : expbor L (expcomma L n) (n + 1) st = .ok (v, st') :=
    leftLevel_of_next L hbxor (by rw [heof]; rfl)
  have hland : expland L (expcomma L n) (n + 1) st = .ok (v, st') := by
    rw [expland, hbor, ok_bind]
    simp only [logicalLoop, heof]
    rfl
  have hlor : explor L (expcomma L n) (n + 1) st = .ok (v, st') := by
    rw [explor, hland, ok_bind]
    simp only [logicalLoop, heof]
    rfl
  have hcond : expcond L (expcomma L n) (n + 1) st = .ok (v, st') := by
    rw [expcond, hlor, ok_bind]
    simp only [heof]
    rfl
  have hassign : expassign L (expcomma L n) (n + 1) st = .ok (v, st') := by
    rw [expassign, hcond, ok_bind]
    simp only [heof]
    rfl
  rw [expcomma, hassign, ok_bind]
  simp only [commaLoop, heof]
  rfl

/-- The digits in all locales. -/
theorem digit_class (L : Locale) {c : UInt8} (h : DIGIT c = true) :
    crWhitespace c = false ∧ legalVariableStarter L c = false ∧ numberChar L c = true := by
  have hdigit := (DIGIT_iff c).mp h
  have hascii : c < 0x80 := by
    rw [UInt8.lt_iff_toNat_lt]
    change c.toNat < 128
    omega
  have hclass : ∀ d < 10, crWhitespace (UInt8.ofNat (d + 48)) = false ∧
      decide (0x61 ≤ UInt8.ofNat (d + 48) ∧ UInt8.ofNat (d + 48) ≤ 0x7a ∨
        0x41 ≤ UInt8.ofNat (d + 48) ∧ UInt8.ofNat (d + 48) ≤ 0x5a) = false ∧
      (UInt8.ofNat (d + 48) == 0x5f) = false ∧
      cLocale.isalnum (UInt8.ofNat (d + 48)) = true := by decide +kernel
  obtain ⟨d, hd, rfl⟩ : ∃ d < 10, c = UInt8.ofNat (d + 48) := by
    refine ⟨c.toNat - 48, by omega, ?_⟩
    rw [Nat.sub_add_cancel hdigit.1, UInt8.ofNat_toNat]
  obtain ⟨hwhite, halpha, hunder, halnum⟩ := hclass d hd
  refine ⟨hwhite, ?_, ?_⟩
  · rw [legalVariableStarter, L.alpha_ascii _ hascii, halpha, hunder]
    rfl
  · rw [cLocale.ascii _ hascii] at halnum
    rw [numberChar, L.ascii _ hascii, halnum]
    rfl

theorem readtok_number (L : Locale) {st : St} {c : UInt8} {t : List UInt8} {v : Int64}
    (htp : st.tp = c :: t) (hdigits : ∀ x ∈ c :: t, DIGIT x = true)
    (hv : strlong L.toCtype (c :: t) = .ok v) :
    readtok L st =
      .ok { st with tp := [], tokval := v, lasttok := st.curtok, curtok := .num } := by
  obtain ⟨hwhite, hname, -⟩ := digit_class L (hdigits c List.mem_cons_self)
  have hnumber : ∀ x ∈ c :: t, numberChar L x = true := fun x hx =>
    (digit_class L (hdigits x hx)).2.2
  have hc : 0x30 ≤ c ∧ c ≤ 0x39 := by
    have hdigit := hdigits c List.mem_cons_self
    rw [DIGIT, Bool.and_eq_true, decide_eq_true_eq, decide_eq_true_eq] at hdigit
    exact hdigit
  have hskip : (c :: t).dropWhile crWhitespace = c :: t := by
    rw [List.dropWhile_cons_of_neg]
    rw [hwhite]
    exact Bool.false_ne_true
  have htake : (c :: t).takeWhile (numberChar L) = c :: t := List.takeWhile_eq_self_iff.mpr hnumber
  have hdrop : (c :: t).dropWhile (numberChar L) = [] := List.dropWhile_eq_nil_iff.mpr hnumber
  unfold readtok
  rw [htp, hskip]
  simp only [hname, Bool.false_eq_true, if_false, if_pos hc, htake, hv, hdrop]

theorem readtok_minus (L : Locale) {st : St} {c : UInt8} {t : List UInt8}
    (htp : st.tp = 0x2d :: c :: t) (hc : DIGIT c = true) :
    readtok L st =
      .ok { st with tp := c :: t, lasttok := st.curtok, curtok := .op 0x2d } := by
  have hname : legalVariableStarter L 0x2d = false := by
    rw [legalVariableStarter, L.alpha_ascii _ (by decide)]
    decide
  have hdigit := (DIGIT_iff c).mp hc
  have hminus : c ≠ 0x2d := by
    intro h
    rw [h] at hdigit
    exact absurd hdigit.1 (by decide)
  have hequal : c ≠ 0x3d := by
    intro h
    rw [h] at hdigit
    exact absurd hdigit.2 (by decide)
  have harith : isArithop (.op 0x2d) = true := by decide
  have hop : operator L st.curtok st.lasttok 0x2d (c :: t) = .ok (.op 0x2d, c :: t) := by
    unfold operator
    simp only [List.headD_cons, hminus, hequal, harith, and_false, false_and, if_false,
      Bool.true_eq_false]
    rfl
  unfold readtok
  rw [htp]
  change (if legalVariableStarter L 0x2d = true then _ else _) = _
  rw [hname, if_neg Bool.false_ne_true, if_neg (by decide), hop]

/-- A constant, with nothing behind it. -/
theorem exp0_number (L : Locale) (lowest : St → Except Stop Value) (n : Nat) {st : St}
    (hcur : st.curtok = .num) (htp : st.tp = []) :
    expunary L lowest (n + 1) st =
      .ok (st.tokval, { st with tp := [], lasttok := .num, curtok := .eof }) := by
  have hunary : unaryOp .num = none := rfl
  simp only [expunary, hcur, hunary, exp0, readtok_end L htp, reduceCtorEq, or_self, if_false,
    if_true]
  rfl

theorem subexpr_eq (L : Locale) {fuel : Nat} {expr : List UInt8} {st st' : St} {v : Int64}
    (hexpr : expr.dropWhile crWhitespace ≠ [])
    (hread : readtok L ⟨expr, .eof, .eof, 0, 0⟩ = .ok st)
    (heval : expcomma L fuel st = .ok (v, st')) (heof : st'.curtok = .eof) :
    evalexp L fuel expr = .ok v := by
  rw [evalexp, subexpr, if_neg hexpr, hread, ok_bind, heval, ok_bind]
  simp only [heof]
  rfl

theorem dropWhile_cons_ne_nil {c : UInt8} (t : List UInt8) (h : crWhitespace c = false) :
    (c :: t).dropWhile crWhitespace ≠ [] := by
  rw [List.dropWhile_cons_of_neg]
  · exact List.cons_ne_nil c t
  · rw [h]
    exact Bool.false_ne_true

/-- A constant alone. -/
theorem evalexp_number (L : Locale) (n : Nat) {c : UInt8} {t : List UInt8} {v : Int64}
    (hdigits : ∀ x ∈ c :: t, DIGIT x = true) (hv : strlong L.toCtype (c :: t) = .ok v) :
    evalexp L (n + 1) (c :: t) = .ok v := by
  have hwhite := (digit_class L (hdigits c List.mem_cons_self)).1
  apply subexpr_eq L (dropWhile_cons_ne_nil t hwhite) (readtok_number L rfl hdigits hv)
  · apply expcomma_of_expunary L
    · exact exp0_number L _ n rfl rfl
    · rfl
  · rfl

/-- A constant behind a minus. -/
theorem evalexp_minus (L : Locale) (n : Nat) {c : UInt8} {t : List UInt8} {v : Int64}
    (hdigits : ∀ x ∈ c :: t, DIGIT x = true) (hv : strlong L.toCtype (c :: t) = .ok v) :
    evalexp L (n + 2) (0x2d :: c :: t) = .ok (-v) := by
  have hc := hdigits c List.mem_cons_self
  have hwhite : crWhitespace 0x2d = false := rfl
  apply subexpr_eq L (dropWhile_cons_ne_nil _ hwhite) (readtok_minus L rfl hc)
  · apply expcomma_of_expunary L
    · have hunary : unaryOp (.op 0x2d) = some fun v => -v := rfl
      rw [expunary]
      simp only [hunary]
      rw [readtok_number L rfl hdigits hv, ok_bind, exp0_number L _ n rfl rfl, ok_bind]
    · rfl
  · rfl

theorem decimal_digits (flags : Flags) (n : Nat) :
    ∃ c t, unsignedText 10 flags n = c :: t ∧ ∀ x ∈ c :: t, DIGIT x = true := by
  have hprefix : prefixText 10 flags n = [] := by
    rw [prefixText, if_neg fun h => absurd h.2 (by decide), if_neg fun h => h.2 rfl]
  obtain ⟨c, t, hct, -, -⟩ := @numeral_head 10 (by decide) (by decide) flags.flHexupper n
  refine ⟨c, t, ?_, ?_⟩
  · rw [unsignedText, hprefix, List.nil_append, hct]
  · rw [← hct]
    intro x hx
    obtain ⟨d, hd, rfl⟩ := mem_numeral (by decide) hx
    have hdigits : ∀ d < 10, DIGIT (TOCHAR (UInt8.ofNat d)) = true := by decide
    rw [symbol_of_lt flags.flHexupper (by decide) hd]
    exact hdigits d hd

/-- The text of a signed number is an expression for it. -/
theorem evalexp_signed (L : Locale) (n : Nat) (v : Int64) {flags : Flags}
    (hflags : flags.flUnsigned = false) :
    evalexp L (n + 2) (text v.toUInt64 10 flags) = .ok v := by
  have hread : ∀ ui : UInt64, strlong L.toCtype (unsignedText 10 flags ui.toNat) = .ok ui.toInt64 := by
    intro ui
    rw [toInt64_eq]
    exact strlong_unsignedText L.toCtype (by decide) (by decide) (Or.inr (Or.inr rfl)) _
  have hv : v.toUInt64.toInt64 = v := v.toInt64_toUInt64
  rw [text, hflags, hv]
  by_cases hneg : v < 0
  · have hsign : (!false && decide (v < 0)) = true := by
      rw [decide_eq_true hneg]
      rfl
    obtain ⟨c, t, hct, hdigits⟩ := decimal_digits flags (-v.toUInt64).toNat
    have hminus := hread (-v.toUInt64)
    rw [UInt64.toInt64_neg, hv] at hminus
    rw [hct] at hminus
    rw [if_pos hsign, hct, evalexp_minus L n hdigits hminus, Int64.neg_neg]
  · have hsign : ¬(!false && decide (v < 0)) = true := by
      rw [decide_eq_false hneg]
      exact Bool.false_ne_true
    obtain ⟨c, t, hct, hdigits⟩ := decimal_digits flags v.toUInt64.toNat
    have hplain := hread v.toUInt64
    rw [hv] at hplain
    rw [hct] at hplain
    rw [if_neg hsign, hct]
    exact evalexp_number L (n + 1) hdigits hplain

/-- Numbers printed are numbers read: with their base, or with a prefix for it, by `strlong`, and
signed by the evaluator. -/
theorem printed_read (L : Locale) :
    (∀ (ui : UInt64) (base : Nat) (flags : Flags), 2 ≤ base → base ≤ 64 →
      flags.flUnsigned = true →
      flags.flAddbase = true ∨ (flags.flPrefix = true ∧ (base = 8 ∨ base = 16)) →
      ∃ t, 0 ∉ t ∧ strlong L.toCtype t = .ok ui.toInt64 ∧
        ∀ (cap : Nat) (buf : Buffer UInt8 cap), t.length < cap →
          ∃ r, fmtulong ui base buf flags = .ok r ∧ r.p + (t.length + 1) = cap ∧
            r.buf.cells = buf.cells.take r.p ++ (t ++ [0])) ∧
    ∀ (v : Int64) (lbuf : Buffer UInt8 itosBuf),
      ∃ s, itos v lbuf = .ok s ∧ ∀ fuel, 2 ≤ fuel → evalexp L fuel s = .ok v := by
  constructor
  · intro ui base flags hb hb' hunsigned hflags
    have htext : text ui base flags = unsignedText base flags ui.toNat := by
      rw [text, hunsigned]
      exact if_neg Bool.false_ne_true
    refine ⟨text ui base flags, zero_not_mem_text ui hb hb' flags, ?_, ?_⟩
    · rw [htext, toInt64_eq]
      exact strlong_unsignedText L.toCtype hb hb' (hflags.imp_right Or.inl) _
    · intro cap buf hcap
      obtain ⟨r, hr, -, hp, hcells⟩ := fmtulong_text ui hb hb' buf flags hcap
      exact ⟨r, hr, hp, hcells⟩
  · intro v lbuf
    refine ⟨_, itos_eq v lbuf, ?_⟩
    intro fuel hfuel
    obtain ⟨n, rfl⟩ := Nat.exists_eq_add_of_le' hfuel
    exact evalexp_signed L n v rfl

/-- The letters of the C locale. -/
def cLetters : Locale where
  toCtype := cLocale
  isalpha c := decide (0x61 ≤ c ∧ c ≤ 0x7a ∨ 0x41 ≤ c ∧ c ≤ 0x5a)
  alpha_ascii _ _ := rfl

/-- `0XFF`, and the smallest value. -/
theorem printed_read_c :
    (∃ t, 0 ∉ t ∧ strlong cLetters.toCtype t = .ok 255 ∧
      ∀ (cap : Nat) (buf : Buffer UInt8 cap), t.length < cap →
        ∃ r, fmtulong 255 16 buf ⟨true, false, true, true⟩ = .ok r ∧
          r.p + (t.length + 1) = cap ∧ r.buf.cells = buf.cells.take r.p ++ (t ++ [0])) ∧
    ∃ s, itos Int64.minValue (Buffer.fill itosBuf 0) = .ok s ∧
      ∀ fuel, 2 ≤ fuel → evalexp cLetters fuel s = .ok Int64.minValue :=
  ⟨(printed_read cLetters).1 255 16 ⟨true, false, true, true⟩ (by decide) (by decide) rfl
      (Or.inr ⟨rfl, Or.inr rfl⟩),
    (printed_read cLetters).2 Int64.minValue (Buffer.fill itosBuf 0)⟩

end Basht.Expr
