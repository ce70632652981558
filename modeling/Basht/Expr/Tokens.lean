import Basht.Expr.Printed
import Basht.Expr.Trees

/-!
# The tokens of a written expression

Operators of one character are also beginnings of longer ones. In a written tree an operator is
followed by the beginning of an operand, and none of these continues an operator; so `readtok`
reads the tokens back, with or without white space between them (`readtok_spaced`).
-/

namespace Basht.Expr

open Fallible Numbers

variable {L : Locale}

/-! ## Neighbours -/

/-- The tokens of trees other than constants. -/
def symbols : List Token :=
  [.eqeq, .neq, .leq, .geq, .land, .lor, .lsh, .rsh, .power, .op 0x2d, .op 0x2b, .op 0x21,
    .op 0x7e, .op 0x2a, .op 0x2f, .op 0x25, .op 0x3c, .op 0x3e, .op 0x26, .op 0x5e, .op 0x7c,
    .op 0x2c, .op 0x3f, .op 0x3a, .op 0x28, .op 0x29]

/-- The tokens with which operands begin, other than constants. -/
def openers : List Token := [.op 0x28, .op 0x2d, .op 0x2b, .op 0x21, .op 0x7e]

/-- An operand ends with the token. -/
def Tok.Closes : Tok L → Prop
  | .const _ => True
  | .op t => t = .op 0x29

/-- An operand begins with the token. -/
def Tok.Opens : Tok L → Prop
  | .const _ => True
  | .op t => t ∈ openers

def Tok.Known : Tok L → Prop
  | .const _ => True
  | .op t => t ∈ symbols

/-- Behind the end of an operand no constant stands, behind any other token an operand begins. -/
def Adjacent (t t' : Tok L) : Prop :=
  (t.Closes ∧ ∀ c, t' ≠ .const c) ∨ (¬t.Closes ∧ t'.Opens)

/-- A sequence of tokens that can be read back. -/
structure Legible (ts : List (Tok L)) : Prop where
  known : ∀ t ∈ ts, t.Known
  adjacent : ts.IsChain Adjacent

theorem Legible.tail {t : Tok L} {ts : List (Tok L)} (h : Legible (t :: ts)) : Legible ts :=
  ⟨fun u hu => h.known u (List.mem_cons_of_mem t hu), h.adjacent.of_cons⟩

/-! ## Reading one token -/

theorem not_starter {c : UInt8} (hc : c < 0x80)
    (halpha : ¬(0x61 ≤ c ∧ c ≤ 0x7a ∨ 0x41 ≤ c ∧ c ≤ 0x5a)) (hunder : c ≠ 0x5f) :
    legalVariableStarter L c = false := by
  rw [legalVariableStarter, L.alpha_ascii c hc, decide_eq_false halpha,
    beq_eq_false_iff_ne.mpr hunder, Bool.or_false]

/-- What the first character of an operator is not. -/
theorem symbol_head {t : Token} (ht : t ∈ symbols) :
    ∃ c cs, t.text = c :: cs ∧ crWhitespace c = false ∧ legalVariableStarter L c = false ∧
      ¬(0x30 ≤ c ∧ c ≤ 0x39) ∧ numberChar L c = false := by
  have hclass : ∀ t ∈ symbols, t.text ≠ [] ∧ t.text.headD 0 < 0x80 ∧
      crWhitespace (t.text.headD 0) = false ∧ ¬(0x30 ≤ t.text.headD 0 ∧ t.text.headD 0 ≤ 0x39) ∧
      ¬(0x61 ≤ t.text.headD 0 ∧ t.text.headD 0 ≤ 0x7a ∨
        0x41 ≤ t.text.headD 0 ∧ t.text.headD 0 ≤ 0x5a) ∧
      t.text.headD 0 ≠ 0x23 ∧ t.text.headD 0 ≠ 0x40 ∧ t.text.headD 0 ≠ 0x5f := by
    decide +kernel
  obtain ⟨hne, hascii, hwhite, hdigit, halpha, hhash, hat, hunder⟩ := hclass t ht
  obtain ⟨c, cs, htext⟩ := List.exists_cons_of_ne_nil hne
  rw [htext, List.headD_cons] at hascii hwhite hdigit halpha hhash hat hunder
  refine ⟨c, cs, htext, hwhite, not_starter hascii halpha hunder, hdigit, ?_⟩
  rw [numberChar, L.ascii c hascii, decide_eq_false (fun h => h.elim hdigit halpha),
    beq_eq_false_iff_ne.mpr hhash, beq_eq_false_iff_ne.mpr hat, beq_eq_false_iff_ne.mpr hunder]
  rfl

/-- The text behind an operator does not continue it. -/
structure NoJoin (L : Locale) (rest : List UInt8) : Prop where
  head : rest.headD 0 ∉ [0x3d, 0x3c, 0x3e, 0x26, 0x7c, 0x2a]
  sign : rest.headD 0 = 0x2d ∨ rest.headD 0 = 0x2b →
    (rest.tail.dropWhile crWhitespace).head?.any (legalVariableStarter L) = false

theorem NoJoin.ne {rest : List UInt8} (h : NoJoin L rest) {d : UInt8}
    (hd : d ∈ [0x3d, 0x3c, 0x3e, 0x26, 0x7c, 0x2a]) : rest.headD 0 ≠ d :=
  fun hhead => h.head (hhead ▸ hd)

/-- An operator of one character. -/
theorem operator_single {c : UInt8} (hc : isArithop (.op c) = true) (curtok : Token)
    {lasttok : Token} (hinc : lasttok ≠ .preinc) (hdec : lasttok ≠ .predec) {rest : List UInt8}
    (hrest : NoJoin L rest) : operator L curtok lasttok c rest = .ok (.op c, rest) := by
  have hequal : rest.headD 0 ≠ 0x3d := hrest.ne (by decide)
  have hlast : ¬(lasttok = .preinc ∨ lasttok = .predec) := fun h => h.elim hinc hdec
  unfold operator
  rw [if_neg fun h => hequal h.2, if_neg fun h => hequal h.2, if_neg fun h => hequal h.2,
    if_neg fun h => hequal h.2, if_neg fun h => hrest.ne (by decide) h.2,
    if_neg fun h => hrest.ne (by decide) h.2, if_neg fun h => hrest.ne (by decide) h.2,
    if_neg fun h => hrest.ne (by decide) h.2, if_neg fun h => hrest.ne (by decide) h.2,
    if_neg fun h => hlast h.2.2.2]
  by_cases hsign : (c = 0x2d ∨ c = 0x2b) ∧ rest.headD 0 = c
  · rw [if_pos hsign, hrest.sign (hsign.2 ▸ hsign.1), if_neg Bool.false_ne_true]
  · rw [if_neg hsign, if_neg fun h => hequal h.1, hc, if_neg (by decide)]

/-- Nothing continues a closing parenthesis. -/
theorem operator_rparen (curtok lasttok : Token) (rest : List UInt8) :
    operator L curtok lasttok 0x29 rest = .ok (.op 0x29, rest) := by
  have hsign : ¬((0x29 : UInt8) = 0x2d ∨ (0x29 : UInt8) = 0x2b) := by decide
  have hassign : (0x29 : UInt8) ∉ "*/%+-&^|".toList.map Char.toUInt8 := by decide
  unfold operator
  rw [if_neg fun h => absurd h.1 (by decide), if_neg fun h => absurd h.1 (by decide),
    if_neg fun h => absurd h.1 (by decide), if_neg fun h => absurd h.1 (by decide),
    if_neg fun h => absurd h.1 (by decide), if_neg fun h => absurd h.1 (by decide),
    if_neg fun h => absurd h.1 (by decide), if_neg fun h => absurd h.1 (by decide),
    if_neg fun h => absurd h.1 (by decide), if_neg fun h => hsign h.1, if_neg fun h => hsign h.1,
    if_neg fun h => hassign h.2, if_neg (by decide)]

/-- An operator of two characters. -/
theorem operator_double {t : Token} {c d : UInt8} (htext : t.text = [c, d])
    (curtok lasttok : Token) {rest : List UInt8} (hrest : NoJoin L rest) :
    operator L curtok lasttok c (d :: rest) = .ok (t, rest) := by
  have hequal : rest.head? ≠ some 0x3d := by
    intro h
    have hhead : rest.headD 0 ≠ 0x3d := hrest.ne (by decide)
    exact hhead (by rw [List.headD_eq_head?_getD, h, Option.getD_some])
  cases t with
  | eqeq | neq | leq | geq | land | lor | power =>
    obtain ⟨rfl, h⟩ := List.cons.inj htext
    obtain ⟨rfl, -⟩ := List.cons.inj h
    rfl
  | lsh | rsh =>
    obtain ⟨rfl, h⟩ := List.cons.inj htext
    obtain ⟨rfl, -⟩ := List.cons.inj h
    exact if_neg hequal
  | eof | num | opAssign | cond | preinc | predec | op => cases htext

theorem operator_symbol {t : Token} (ht : t ∈ symbols) {c : UInt8} {cs : List UInt8}
    (htext : t.text = c :: cs) (curtok : Token) {lasttok : Token} (hinc : lasttok ≠ .preinc)
    (hdec : lasttok ≠ .predec) {rest : List UInt8} (hrest : t ≠ .op 0x29 → NoJoin L rest) :
    operator L curtok lasttok c (cs ++ rest) = .ok (t, rest) := by
  by_cases hparen : t = .op 0x29
  · rw [hparen] at htext ⊢
    obtain ⟨rfl, rfl⟩ := List.cons.inj htext
    exact operator_rparen curtok lasttok rest
  · cases t with
    | op d =>
      have harith : ∀ t ∈ symbols, isMultiop t = true ∨ isArithop t = true := by decide +kernel
      obtain ⟨rfl, rfl⟩ := List.cons.inj htext
      refine operator_single ?_ curtok hinc hdec (hrest hparen)
      exact (harith _ ht).resolve_left Bool.false_ne_true
    | _ =>
      cases cs with
      | nil => cases htext
      | cons d ds =>
        cases ds with
        | nil => exact operator_double htext curtok lasttok (hrest hparen)
        | cons => cases htext

/-! ## The beginning of a text -/

theorem white_class {c : UInt8} (h : crWhitespace c = true) :
    numberChar L c = false ∧ c ∉ [0x3d, 0x3c, 0x3e, 0x26, 0x7c, 0x2a] ∧ c ≠ 0x2d ∧ c ≠ 0x2b := by
  have hc : c = 0x20 ∨ c = 0x09 ∨ c = 0x0a := by
    simp only [crWhitespace, Bool.or_eq_true, beq_iff_eq, or_assoc] at h
    exact h
  have hascii : c < 0x80 := by
    rcases hc with rfl | rfl | rfl <;> decide
  refine ⟨?_, ?_⟩
  · rw [numberChar, L.ascii c hascii]
    rcases hc with rfl | rfl | rfl <;> decide
  · rcases hc with rfl | rfl | rfl <;> decide

/-- A constant begins with a digit. -/
theorem Constant.head (c : Constant L) :
    ∃ d ds, c.text = d :: ds ∧ (0x30 ≤ d ∧ d ≤ 0x39) ∧ crWhitespace d = false ∧
      legalVariableStarter L d = false ∧ d ∉ [0x3d, 0x3c, 0x3e, 0x26, 0x7c, 0x2a] ∧
      d ≠ 0x2d ∧ d ≠ 0x2b := by
  obtain ⟨d, ds, htext⟩ : ∃ d ds, c.text = d :: ds := by
    cases htext : c.text with
    | nil =>
      have hdigit := c.digit
      rw [htext] at hdigit
      cases hdigit
    | cons d ds => exact ⟨d, ds, rfl⟩
  have hdigit : 0x30 ≤ d ∧ d ≤ 0x39 := by
    have hdigit := c.digit
    rw [htext, List.head?_cons, Option.any_some, decide_eq_true_eq] at hdigit
    exact hdigit
  have hD : DIGIT d = true := by
    rw [DIGIT, decide_eq_true hdigit.1, decide_eq_true hdigit.2]
    rfl
  obtain ⟨hwhite, hname, -⟩ := digit_class L hD
  have hother : ([0x3d, 0x3c, 0x3e, 0x26, 0x7c, 0x2a] : List UInt8).all
      (fun e => !decide (0x30 ≤ e ∧ e ≤ 0x39)) = true := by decide
  refine ⟨d, ds, htext, hdigit, hwhite, hname, fun hmem => ?_, ?_, ?_⟩
  · have hnot := List.all_eq_true.mp hother d hmem
    rw [decide_eq_true hdigit] at hnot
    exact Bool.false_ne_true hnot
  · rintro rfl
    exact absurd hdigit (by decide)
  · rintro rfl
    exact absurd hdigit (by decide)

/-- A token begins with a character that is neither white space nor the beginning of a name. -/
theorem Tok.Known.head {t : Tok L} (h : t.Known) :
    ∃ c cs, t.text = c :: cs ∧ crWhitespace c = false ∧ legalVariableStarter L c = false := by
  cases t with
  | const k =>
    obtain ⟨d, ds, htext, -, hwhite, hname, -⟩ := k.head
    exact ⟨d, ds, htext, hwhite, hname⟩
  | op t =>
    obtain ⟨c, cs, htext, hwhite, hname, -⟩ := symbol_head (L := L) h
    exact ⟨c, cs, htext, hwhite, hname⟩

theorem dropWhile_white {ws : List UInt8} (h : ∀ c ∈ ws, crWhitespace c = true) {c : UInt8}
    (hc : crWhitespace c = false) (rest : List UInt8) :
    (ws ++ c :: rest).dropWhile crWhitespace = c :: rest := by
  rw [List.dropWhile_append_of_pos h, List.dropWhile_cons_of_neg]
  rw [hc]
  exact Bool.false_ne_true

/-- No name follows. -/
theorem Spaced.not_starter {ts : List (Tok L)} {text : List UInt8} (h : Spaced ts text)
    (hknown : ∀ t ∈ ts, t.Known) :
    (text.dropWhile crWhitespace).head?.any (legalVariableStarter L) = false := by
  cases h with
  | nil hws =>
    rw [List.dropWhile_eq_nil_iff.mpr hws]
    rfl
  | @cons ws t ts text hws _ =>
    obtain ⟨c, cs, htext, hwhite, hname⟩ := (hknown t List.mem_cons_self).head
    rw [htext, List.append_assoc, List.cons_append, dropWhile_white hws hwhite, List.head?_cons,
      Option.any_some, hname]

/-- Where no constant follows, no character of a number does. -/
theorem Spaced.not_number {ts : List (Tok L)} {text : List UInt8} (h : Spaced ts text)
    (hknown : ∀ t ∈ ts, t.Known) (hconst : ∀ t ∈ ts.head?, ∀ c, t ≠ .const c) :
    ∀ c ∈ text.head?, numberChar L c = false := by
  intro c hc
  cases h with
  | nil hws => exact (white_class (hws c (List.mem_of_mem_head? hc))).1
  | @cons ws t ts text hws _ =>
    cases ws with
    | cons w ws =>
      cases hc
      exact (white_class (hws c List.mem_cons_self)).1
    | nil =>
      cases t with
      | const k => exact absurd rfl (hconst _ rfl k)
      | op t =>
        obtain ⟨d, ds, htext, -, -, -, hnumber⟩ := symbol_head (hknown _ List.mem_cons_self)
        rw [List.nil_append, Tok.text, htext] at hc
        cases hc
        exact hnumber

/-- The beginning of an operand does not continue an operator. -/
theorem Spaced.noJoin {ts : List (Tok L)} {text : List UInt8} (h : Spaced ts text)
    (hknown : ∀ t ∈ ts, t.Known) (hopens : ∀ t ∈ ts.head?, t.Opens) : NoJoin L text := by
  cases h with
  | nil hws =>
    cases text with
    | nil => exact ⟨by decide, fun h => absurd h (by decide)⟩
    | cons w ws =>
      obtain ⟨-, hhead, hminus, hplus⟩ := white_class (L := L) (hws w List.mem_cons_self)
      exact ⟨hhead, fun h => (h.elim hminus hplus).elim⟩
  | @cons ws t ts text hws hrest =>
    cases ws with
    | cons w ws =>
      obtain ⟨-, hhead, hminus, hplus⟩ := white_class (L := L) (hws w List.mem_cons_self)
      exact ⟨hhead, fun h => (h.elim hminus hplus).elim⟩
    | nil =>
      cases t with
      | const k =>
        obtain ⟨d, ds, htext, -, -, -, hhead, hminus, hplus⟩ := k.head
        rw [List.nil_append, Tok.text, htext]
        exact ⟨hhead, fun h => (h.elim hminus hplus).elim⟩
      | op t =>
        have hname := hrest.not_starter fun u hu => hknown u (List.mem_cons_of_mem _ hu)
        have htext : ∀ t ∈ openers,
            ∃ c, t = .op c ∧ c ∉ [0x3d, 0x3c, 0x3e, 0x26, 0x7c, 0x2a] := by
          intro t ht
          simp only [openers, List.mem_cons, List.not_mem_nil, or_false] at ht
          rcases ht with rfl | rfl | rfl | rfl | rfl <;> exact ⟨_, rfl, by decide⟩
        obtain ⟨c, rfl, hc⟩ := htext t (hopens _ rfl)
        exact ⟨hc, fun _ => hname⟩

/-! ## States of the evaluator -/

/-- The evaluator stands at the first of the tokens `ts`. -/
def Current (st : St) : List (Tok L) → Prop
  | [] => st.curtok = .eof
  | .const c :: ts => st.curtok = .num ∧ st.tokval = c.val ∧ Spaced ts st.tp
  | .op t :: ts => st.curtok = t ∧ Spaced ts st.tp

/-- The token is none that is read in front of a name. -/
def NoInc (t : Token) : Prop := t ≠ .preinc ∧ t ≠ .predec

/-- The evaluator has the tokens `ts` before it; `k` is `noeval`. -/
structure Reads (st : St) (ts : List (Tok L)) (k : Nat) : Prop where
  legible : Legible ts
  noeval : st.noeval = k
  lasttok : NoInc st.lasttok
  current : Current st ts

theorem Legible.closes {t : Tok L} {ts : List (Tok L)} (h : Legible (t :: ts)) (ht : t.Closes) :
    ∀ u ∈ ts.head?, ∀ c, u ≠ .const c := by
  cases ts with
  | nil => exact fun u hu => by cases hu
  | cons v ts =>
    intro u hu
    rw [← Option.some.inj hu]
    exact ((List.isChain_cons_cons.mp h.adjacent).1.resolve_right fun h => h.1 ht).2

theorem Legible.opens {t : Tok L} {ts : List (Tok L)} (h : Legible (t :: ts)) (ht : ¬t.Closes) :
    ∀ u ∈ ts.head?, u.Opens := by
  cases ts with
  | nil => exact fun u hu => by cases hu
  | cons v ts =>
    intro u hu
    rw [← Option.some.inj hu]
    exact ((List.isChain_cons_cons.mp h.adjacent).1.resolve_left fun h => ht h.1).2

/-- `readtok` reads the next token, wherever white space stands. -/
theorem readtok_spaced {ts : List (Tok L)} {st : St} (h : Spaced ts st.tp)
    (hlegible : Legible ts) (hlast : NoInc st.lasttok) :
    ∃ st', readtok L st = .ok st' ∧ Current st' ts ∧ st'.noeval = st.noeval ∧
      st'.lasttok = st.curtok := by
  generalize htp : st.tp = tp at h
  unfold readtok
  rw [htp]
  cases h with
  | nil hws =>
    rw [List.dropWhile_eq_nil_iff.mpr hws]
    exact ⟨_, rfl, rfl, rfl, rfl⟩
  | @cons ws t ts text hws hrest =>
    have hknown : ∀ u ∈ ts, u.Known := hlegible.tail.known
    cases t with
    | const k =>
      obtain ⟨d, ds, htext, hdigit, hwhite, hname, -⟩ := k.head
      have hnumber := hrest.not_number hknown (hlegible.closes trivial)
      have hstop : text.takeWhile (numberChar L) = [] ∧ text.dropWhile (numberChar L) = text := by
        cases text with
        | nil => exact ⟨rfl, rfl⟩
        | cons c cs =>
          have hc : ¬numberChar L c = true := Bool.eq_false_iff.mp (hnumber c rfl)
          exact ⟨List.takeWhile_cons_of_neg hc, List.dropWhile_cons_of_neg hc⟩
      have htake : (k.text ++ text).takeWhile (numberChar L) = k.text := by
        rw [List.takeWhile_append_of_pos k.token, hstop.1, List.append_nil]
      have hdrop : (k.text ++ text).dropWhile (numberChar L) = text := by
        rw [List.dropWhile_append_of_pos k.token, hstop.2]
      have hskip : (ws ++ (Tok.const k).text ++ text).dropWhile crWhitespace = d :: (ds ++ text) := by
        rw [Tok.text, htext, List.append_assoc, List.cons_append, dropWhile_white hws hwhite]
      rw [htext, List.cons_append] at htake hdrop
      rw [hskip]
      simp only [hname, Bool.false_eq_true, if_false, if_pos hdigit, htake, hdrop]
      rw [← htext, k.reads]
      exact ⟨_, rfl, ⟨rfl, rfl, hrest⟩, rfl, rfl⟩
    | op t =>
      have ht : t ∈ symbols := hlegible.known _ List.mem_cons_self
      obtain ⟨c, cs, htext, hwhite, hname, hdigit, -⟩ := symbol_head (L := L) ht
      have hop := operator_symbol ht htext st.curtok hlast.1 hlast.2 fun hne =>
        hrest.noJoin hknown (hlegible.opens hne)
      have hskip : (ws ++ (Tok.op t : Tok L).text ++ text).dropWhile crWhitespace =
          c :: (cs ++ text) := by
        rw [Tok.text, htext, List.append_assoc, List.cons_append, dropWhile_white hws hwhite]
      rw [hskip]
      simp only [hname, Bool.false_eq_true, if_false, if_neg hdigit, hop]
      exact ⟨_, rfl, ⟨rfl, hrest⟩, rfl, rfl⟩

theorem symbol_noInc {t : Token} (ht : t ∈ symbols) : NoInc t := by
  constructor
  all_goals
    rintro rfl
    exact absurd ht (by decide)

/-- The evaluator goes on to the next token. -/
theorem Reads.next {st : St} {t : Tok L} {ts : List (Tok L)} {k : Nat} (h : Reads st (t :: ts) k) :
    ∃ st', readtok L st = .ok st' ∧ Reads st' ts k := by
  have hcur : NoInc st.curtok ∧ Spaced ts st.tp := by
    cases t with
    | const c => exact ⟨h.current.1 ▸ ⟨by decide, by decide⟩, h.current.2.2⟩
    | op t =>
      exact ⟨h.current.1 ▸ symbol_noInc (h.legible.known _ List.mem_cons_self), h.current.2⟩
  obtain ⟨st', hread, hcurrent, hnoeval, hlast⟩ :=
    readtok_spaced hcur.2 h.legible.tail h.lasttok
  exact ⟨st', hread, h.legible.tail, hnoeval.trans h.noeval, hlast ▸ hcur.1, hcurrent⟩

theorem Current.congr {st st' : St} {ts : List (Tok L)} (h : Current st ts) (htp : st'.tp = st.tp)
    (hcur : st'.curtok = st.curtok) (hval : st'.tokval = st.tokval) : Current st' ts := by
  cases ts with
  | nil => exact hcur.trans h
  | cons t ts =>
    cases t with
    | const c => exact ⟨hcur.trans h.1, hval.trans h.2.1, htp ▸ h.2.2⟩
    | op t => exact ⟨hcur.trans h.1, htp ▸ h.2⟩

theorem Reads.withNoeval {st : St} {ts : List (Tok L)} {k : Nat} (h : Reads st ts k) {k' : Nat}
    {n : Nat} (hn : n = k') : Reads { st with noeval := n } ts k' :=
  ⟨h.legible, hn, h.lasttok, h.current.congr rfl rfl rfl⟩

theorem Reads.withLasttok {st : St} {ts : List (Tok L)} {k : Nat} (h : Reads st ts k) {t : Token}
    (ht : NoInc t) : Reads { st with lasttok := t } ts k :=
  ⟨h.legible, h.noeval, ht, h.current.congr rfl rfl rfl⟩

end Basht.Expr
