import Mathlib.Tactic.Ring
import Basht.Library.Buffer
import Basht.Library.Numerals
import Basht.Numbers.Uconvert

/-!
# Numbers as text (`fmtulong.c`)

`fmtulong` writes a number into a buffer from its end: the digits, the prefix or the base, and the
sign. It does not check the start of the buffer. In a buffer that is long enough it stores in the
last bytes only, and what it stores there is the numeral of the number (`fmtulong_text`).
-/

namespace Basht.Numbers

open Numerals

variable {cap : Nat}

/-! ## `fmtulong` -/

/-- A buffer that is filled from its end: the pointer is before the cell `p`. -/
structure Tail (cap : Nat) where
  buf : Buffer UInt8 cap
  p : Nat
  le : p ≤ cap

/-- A store before the buffer, or more digits than a number has. -/
inductive Stop where
  | underflow
  | digits
deriving DecidableEq

/-- `*p-- = c`. -/
def Tail.push (c : UInt8) : Tail cap → Except Stop (Tail cap)
  | ⟨_, 0, _⟩ => .error .underflow
  | ⟨buf, p + 1, h⟩ => .ok ⟨buf.overwrite p [c] h, p, Nat.le_of_succ_le h⟩

/-- `TOCHAR`. -/
def TOCHAR (c : UInt8) : UInt8 := c + 0x30

def x_digs : List UInt8 := "0123456789abcdef".toList.map Char.toUInt8

def X_digs : List UInt8 := "0123456789ABCDEF".toList.map Char.toUInt8

def all_digs : List UInt8 :=
  "0123456789abcdefghijklmnopqrstuvwxyzABCDEFGHIJKLMNOPQRSTUVWXYZ@_".toList.map Char.toUInt8

/-- `FMTCHAR`. -/
def FMTCHAR (x : UInt64) : UInt8 := all_digs.getD x.toNat 0

/-- The bits of `flags`. -/
structure Flags where
  flPrefix : Bool
  flAddbase : Bool
  flHexupper : Bool
  flUnsigned : Bool

/-- `do *p-- = digit (x); while (x = next (x));`, at most `n` times. -/
def doWhile {α : Type} (digit : α → UInt8) (next : α → α) (zero : α → Bool) :
    Nat → α → Tail cap → Except Stop (Tail cap)
  | 0, _, _ => .error .digits
  | n + 1, x, o =>
    match o.push (digit x) with
    | .error e => .error e
    | .ok o => if zero (next x) then .ok o else doWhile digit next zero n (next x) o

/-- The loop over `si`. -/
def signedLoop (si : Int64) (o : Tail cap) : Except Stop (Tail cap) :=
  doWhile (fun si => TOCHAR (si % 10).toInt8.toUInt8) (fun si => si / 10) (fun si => si == 0) 64
    si o

/-- The `switch`. -/
def digitsIn (base : Nat) (hexupper : Bool) (ui : UInt64) (o : Tail cap) :
    Except Stop (Tail cap) :=
  if base = 10 then
    if ui < 10 then o.push (TOCHAR ui.toUInt8)
    else if ui.toInt64 < 0 then
      match o.push (TOCHAR (ui % 10).toUInt8) with
      | .error e => .error e
      | .ok o => signedLoop (ui / 10).toInt64 o
    else signedLoop ui.toInt64 o
  else if base = 8 then
    doWhile (fun ui : UInt64 => TOCHAR (ui &&& 7).toUInt8) (fun ui => ui >>> 3)
      (fun ui => ui == 0) 64 ui o
  else if base = 16 then
    doWhile (fun ui : UInt64 => (if hexupper then X_digs else x_digs).getD (ui &&& 15).toNat 0)
      (fun ui => ui >>> 4) (fun ui => ui == 0) 64 ui o
  else if base = 2 then
    doWhile (fun ui : UInt64 => TOCHAR (ui &&& 1).toUInt8) (fun ui => ui >>> 1)
      (fun ui => ui == 0) 64 ui o
  else
    doWhile (fun ui => FMTCHAR (ui % UInt64.ofNat base)) (fun ui => ui / UInt64.ofNat base)
      (fun ui => ui == 0) 64 ui o

/-- The stores of several characters, in the order of the text. -/
def Tail.pushAll (o : Tail cap) : List UInt8 → Except Stop (Tail cap)
  | [] => .ok o
  | c :: t =>
    match o.pushAll t with
    | .error e => .error e
    | .ok o => o.push c

/-- The prefix, or the base. -/
def addPrefix (base : Nat) (flags : Flags) (o : Tail cap) : Except Stop (Tail cap) :=
  if flags.flPrefix ∧ (base = 8 ∨ base = 16) then
    if base = 16 then o.pushAll [0x30, if flags.flHexupper then 0x58 else 0x78]
    else if o.buf.cells.getD o.p 0 ≠ 0x30 then o.push 0x30
    else .ok o
  else if flags.flAddbase ∧ base ≠ 10 then
    if base > 10 then
      o.pushAll [TOCHAR (UInt8.ofNat (base / 10)), TOCHAR (UInt8.ofNat (base % 10)), 0x23]
    else o.pushAll [TOCHAR (UInt8.ofNat (base % 10)), 0x23]
  else .ok o

/-- What `fmtulong` returns: the index of the text in the buffer. `einval` says that it sets
`errno`. -/
structure Formatted (cap : Nat) where
  buf : Buffer UInt8 cap
  p : Nat
  einval : Bool

/-- `strncpy (buf, "invalid base", len - 1); buf[len-1] = '\\0';` -/
def invalidBase (len : Nat) : Except Stop (Formatted len) :=
  match len with
  | 0 => .error .underflow
  | n + 1 =>
    let msg := "invalid base".toList.map Char.toUInt8
    .ok ⟨⟨(msg ++ List.replicate n 0).take n ++ [0], by simp⟩, 0, true⟩

/-- The terminating NUL. -/
def Tail.start (buf : Buffer UInt8 cap) : Except Stop (Tail cap) :=
  if h : 0 < cap then
    .ok ⟨buf.overwrite (cap - 1) [0] (by rw [List.length_singleton]; omega), cap - 1,
      Nat.sub_le cap 1⟩
  else .error .underflow

/-- `fmtulong`, and `fmtumax`, which is compiled from the same source. -/
def fmtulong (ui : UInt64) (base : Int) (buf : Buffer UInt8 cap) (flags : Flags) :
    Except Stop (Formatted cap) :=
  let base := if base = 0 then 10 else base
  if base < 2 ∨ 64 < base then invalidBase cap
  else
    let sign := !flags.flUnsigned && decide (ui.toInt64 < 0)
    let ui := if sign then -ui else ui
    match Tail.start buf with
    | .error e => .error e
    | .ok o =>
      match digitsIn base.toNat flags.flHexupper ui o with
      | .error e => .error e
      | .ok o =>
        match addPrefix base.toNat flags o with
        | .error e => .error e
        | .ok o =>
          match if sign then o.push 0x2d else .ok o with
          | .error e => .error e
          | .ok o => .ok ⟨o.buf, o.p, false⟩

/-- `INT_STRLEN_BOUND(intmax_t) + 1`, with `TYPE_WIDTH` 64. -/
def itosBuf : Nat := (64 - 1) * 302 / 1000 + 1 + 1 + 1

/-- `flags` without any bit. -/
def noFlags : Flags := ⟨false, false, false, false⟩

/-- `itos`; the contents of `lbuf` are any. -/
def itos (v : Int64) (lbuf : Buffer UInt8 itosBuf) : Except Stop (List UInt8) :=
  match fmtulong v.toUInt64 10 lbuf noFlags with
  | .error e => .error e
  | .ok r => .ok ((r.buf.cells.drop r.p).takeWhile (· ≠ 0))

/-! ## The text -/

/-- The symbols of the digits. -/
def symbol (base : Nat) (hexupper : Bool) (d : Nat) : UInt8 :=
  if base = 16 ∧ hexupper then X_digs.getD d 0 else all_digs.getD d 0

/-- What is written before the digits of `n`. -/
def prefixText (base : Nat) (flags : Flags) (n : Nat) : List UInt8 :=
  if flags.flPrefix ∧ (base = 8 ∨ base = 16) then
    if base = 16 then [0x30, if flags.flHexupper then 0x58 else 0x78]
    else if n ≠ 0 then [0x30] else []
  else if flags.flAddbase ∧ base ≠ 10 then numeral (symbol 10 false) 10 base ++ [0x23]
  else []

/-- The text of a number without a sign. -/
def unsignedText (base : Nat) (flags : Flags) (n : Nat) : List UInt8 :=
  prefixText base flags n ++ numeral (symbol base flags.flHexupper) base n

/-- The text of a number. -/
def text (ui : UInt64) (base : Nat) (flags : Flags) : List UInt8 :=
  if !flags.flUnsigned && decide (ui.toInt64 < 0) then
    0x2d :: unsignedText base flags (-ui).toNat
  else unsignedText base flags ui.toNat

/-! ## Stores -/

/-- The text `t` is stored before the cells that were there already. -/
structure Wrote (o o' : Tail cap) (t : List UInt8) : Prop where
  p : o'.p + t.length = o.p
  cells : o'.buf.cells = o.buf.cells.take o'.p ++ t ++ o.buf.cells.drop o.p

theorem Wrote.refl (o : Tail cap) : Wrote o o [] := by
  refine ⟨rfl, ?_⟩
  rw [List.append_nil, List.take_append_drop]

theorem Wrote.trans {o o' o'' : Tail cap} {s t : List UInt8} (h : Wrote o o' t)
    (h' : Wrote o' o'' s) : Wrote o o'' (s ++ t) := by
  have hle := o'.le
  have hlen := o.buf.length_cells
  have hp := h.p
  have hp' := h'.p
  have htake : (o.buf.cells.take o'.p).length = o'.p := by
    rw [List.length_take]
    omega
  have hcells : o'.buf.cells = o.buf.cells.take o'.p ++ (t ++ o.buf.cells.drop o.p) := by
    rw [h.cells, List.append_assoc]
  have hbefore : o'.buf.cells.take o''.p = o.buf.cells.take o''.p := by
    rw [hcells, List.take_append_of_le_length (by omega), List.take_take,
      Nat.min_eq_left (by omega)]
  have hbehind : o'.buf.cells.drop o'.p = t ++ o.buf.cells.drop o.p := by
    rw [hcells]
    exact List.drop_left' htake
  refine ⟨?_, ?_⟩
  · rw [List.length_append]
    omega
  · rw [h'.cells, hbefore, hbehind]
    simp only [List.append_assoc]

theorem push_wrote (c : UInt8) (o : Tail cap) (h : 0 < o.p) :
    ∃ o', o.push c = .ok o' ∧ Wrote o o' [c] := by
  obtain ⟨buf, p, hle⟩ := o
  cases p with
  | zero => exact absurd h (Nat.lt_irrefl 0)
  | succ p => exact ⟨_, rfl, rfl, rfl⟩

theorem pushAll_wrote (o : Tail cap) (t : List UInt8) (h : t.length ≤ o.p) :
    ∃ o', o.pushAll t = .ok o' ∧ Wrote o o' t := by
  induction t with
  | nil => exact ⟨o, rfl, Wrote.refl o⟩
  | cons c t ih =>
    rw [List.length_cons] at h
    obtain ⟨o₁, hall, hwrote₁⟩ := ih (Nat.le_of_succ_le h)
    have hp := hwrote₁.p
    obtain ⟨o₂, hpush, hwrote₂⟩ := push_wrote c o₁ (by omega)
    refine ⟨o₂, ?_, hwrote₁.trans hwrote₂⟩
    rw [Tail.pushAll, hall]
    exact hpush

/-- A loop that divides by the base writes the numeral. -/
theorem doWhile_wrote {α : Type} {digit : α → UInt8} {next : α → α} {zero : α → Bool}
    {P : α → Prop} {v : α → Nat} {base : Nat} {symbol : Nat → UInt8} (hb : 1 < base)
    (hdigit : ∀ x, P x → digit x = symbol (v x % base))
    (hnext : ∀ x, P x → v (next x) = v x / base ∧ P (next x))
    (hzero : ∀ x, P x → zero x = (v x == 0)) {n : Nat} (hn : 0 < n) {x : α} (hx : P x)
    (hlt : v x < base ^ n) (o : Tail cap) (h : (numeral symbol base (v x)).length ≤ o.p) :
    ∃ o', doWhile digit next zero n x o = .ok o' ∧ Wrote o o' (numeral symbol base (v x)) := by
  induction n generalizing x o with
  | zero => exact absurd hn (Nat.lt_irrefl 0)
  | succ n ih =>
    obtain ⟨hdiv, hP⟩ := hnext x hx
    have hpos : 0 < o.p :=
      Nat.lt_of_lt_of_le (List.length_pos_iff.mpr (numeral_ne_nil symbol base (v x))) h
    obtain ⟨o₁, hpush, hwrote⟩ := push_wrote (digit x) o hpos
    rw [doWhile, hpush]
    simp only [hzero (next x) hP, hdiv]
    rw [hdigit x hx] at hwrote
    by_cases hlast : v x / base = 0
    · rw [numeral_of_lt symbol hb hlast, if_pos (beq_iff_eq.mpr hlast)]
      exact ⟨o₁, rfl, hwrote⟩
    · have hne : ¬(v x / base == 0) = true := by
        rw [beq_iff_eq]
        exact hlast
      have hlt' : v (next x) < base ^ n := by
        rw [hdiv]
        exact Nat.div_lt_of_lt_mul (by rw [← pow_succ']; exact hlt)
      have hn' : 0 < n := by
        by_contra h0
        rw [Nat.eq_zero_of_not_pos h0, hdiv, pow_zero] at hlt'
        omega
      have hp := hwrote.p
      rw [numeral_step symbol hb hlast, List.length_append, List.length_singleton] at h
      rw [List.length_singleton] at hp
      obtain ⟨o₂, hloop, hwrote₂⟩ := ih hn' hP hlt' o₁ (by rw [hdiv]; omega)
      rw [if_neg hne, numeral_step symbol hb hlast]
      rw [hdiv] at hwrote₂
      exact ⟨o₂, hloop, hwrote.trans hwrote₂⟩

/-! ## Digits -/

theorem symbol_of_lt {base d : Nat} (hexupper : Bool) (hb : base ≠ 16) (hd : d < 10) :
    symbol base hexupper d = TOCHAR (UInt8.ofNat d) := by
  have hdigits : ∀ d < 10, all_digs.getD d 0 = TOCHAR (UInt8.ofNat d) := by decide
  rw [symbol, if_neg fun h => hb h.1]
  exact hdigits d hd

theorem symbol_sixteen {d : Nat} (hexupper : Bool) (hd : d < 16) :
    symbol 16 hexupper d = (if hexupper then X_digs else x_digs).getD d 0 := by
  have hdigits : ∀ d < 16, all_digs.getD d 0 = x_digs.getD d 0 := by decide
  cases hexupper with
  | true => rfl
  | false => exact hdigits d hd

theorem toUInt8_eq (ui : UInt64) : ui.toUInt8 = UInt8.ofNat ui.toNat := by
  apply UInt8.toNat_inj.mp
  rw [UInt64.toNat_toUInt8, UInt8.toNat_ofNat']

theorem beq_zero (ui : UInt64) : (ui == 0) = (ui.toNat == 0) := by
  rw [Bool.eq_iff_iff, beq_iff_eq, beq_iff_eq, ← UInt64.toNat_inj]
  rfl

/-- A loop over an unsigned number. -/
theorem unsigned_wrote {digit : UInt64 → UInt8} {next : UInt64 → UInt64} {base : Nat}
    {symbol : Nat → UInt8} (hb : 1 < base)
    (hdigit : ∀ ui, digit ui = symbol (ui.toNat % base))
    (hnext : ∀ ui, (next ui).toNat = ui.toNat / base) (ui : UInt64) (o : Tail cap)
    (h : (numeral symbol base ui.toNat).length ≤ o.p) :
    ∃ o', doWhile digit next (fun ui => ui == 0) 64 ui o = .ok o' ∧
      Wrote o o' (numeral symbol base ui.toNat) := by
  have hlt : ui.toNat < base ^ 64 := by
    calc ui.toNat < 2 ^ 64 := ui.toNat_lt
      _ ≤ base ^ 64 := Nat.pow_le_pow_left hb 64
  exact doWhile_wrote (P := fun _ => True) (v := UInt64.toNat) hb (fun ui _ => hdigit ui)
    (fun ui _ => ⟨hnext ui, trivial⟩) (fun ui _ => beq_zero ui) (by decide) trivial hlt o h

theorem signed_digit {si : Int64} (hsi : 0 ≤ si.toInt) :
    (si % 10).toInt8.toUInt8 = UInt8.ofNat (si.toInt.toNat % 10) := by
  have hrem : si % 10 = Int64.ofNat (si.toInt.toNat % 10) := by
    rw [← Int64.toInt_inj, Int64.toInt_mod, Int64.toInt_ofNat_of_lt (by omega),
      show (10 : Int64).toInt = 10 from rfl, Int.tmod_eq_emod_of_nonneg hsi]
    omega
  rw [hrem, Int64.toInt8_ofNat']
  rfl

theorem signed_next {si : Int64} (hsi : 0 ≤ si.toInt) :
    (si / 10).toInt.toNat = si.toInt.toNat / 10 ∧ 0 ≤ (si / 10).toInt := by
  have hdiv : (si / 10).toInt = si.toInt / 10 := by
    rw [Int64.toInt_div_of_ne_right _ _ (by decide), show (10 : Int64).toInt = 10 from rfl,
      Int.tdiv_eq_ediv_of_nonneg hsi]
  rw [hdiv]
  omega

theorem signed_zero {si : Int64} (hsi : 0 ≤ si.toInt) : (si == 0) = (si.toInt.toNat == 0) := by
  rw [Bool.eq_iff_iff, beq_iff_eq, beq_iff_eq, ← Int64.toInt_inj,
    show (0 : Int64).toInt = 0 from rfl]
  omega

/-- The loop over a signed number that is not negative. -/
theorem signedLoop_wrote (si : Int64) (hsi : 0 ≤ si.toInt) (o : Tail cap)
    (h : (numeral (symbol 10 false) 10 si.toInt.toNat).length ≤ o.p) :
    ∃ o', signedLoop si o = .ok o' ∧
      Wrote o o' (numeral (symbol 10 false) 10 si.toInt.toNat) := by
  have hlt : si.toInt.toNat < 10 ^ 64 := by
    have hmax := si.toInt_lt
    calc si.toInt.toNat < 2 ^ 63 := by omega
      _ < 10 ^ 64 := by decide
  have hdigit : ∀ si : Int64, 0 ≤ si.toInt →
      TOCHAR (si % 10).toInt8.toUInt8 = symbol 10 false (si.toInt.toNat % 10) := by
    intro si hsi
    rw [signed_digit hsi, symbol_of_lt false (by decide) (Nat.mod_lt _ (by decide))]
  exact doWhile_wrote (P := fun si : Int64 => 0 ≤ si.toInt) (v := fun si => si.toInt.toNat)
    (by decide) hdigit (fun si hsi => signed_next hsi) (fun si hsi => signed_zero hsi) (by decide)
    hsi hlt o h

/-- The symbols of a base do not depend on the case, with one exception. -/
theorem symbol_case {base : Nat} (hb : base ≠ 16) (hexupper : Bool) :
    symbol base hexupper = symbol base false := by
  funext d
  rw [symbol, symbol, if_neg fun h => hb h.1, if_neg fun h => hb h.1]

theorem toInt64_eq (ui : UInt64) : ui.toInt64 = Int64.ofNat ui.toNat := by
  rw [← UInt64.toInt64_ofNat', UInt64.ofNat_toNat]

theorem toInt_toInt64 {ui : UInt64} (h : ui.toNat < 9223372036854775808) :
    ui.toInt64.toInt = ui.toNat := by
  rw [toInt64_eq, Int64.toInt_ofNat_of_lt h]

theorem toInt64_neg_iff (ui : UInt64) : ui.toInt64 < 0 ↔ 9223372036854775808 ≤ ui.toNat := by
  have hlt := ui.toNat_lt
  rw [Int64.lt_iff_toInt_lt, toInt64_eq, Int64.toInt_ofNat',
    show (0 : Int64).toInt = 0 from rfl, show Int64.size = 18446744073709551616 from rfl,
    Int.bmod_def]
  omega

/-- The branch for base ten. -/
theorem decimal_wrote (ui : UInt64) (hexupper : Bool) (o : Tail cap)
    (h : (numeral (symbol 10 false) 10 ui.toNat).length ≤ o.p) :
    ∃ o', digitsIn 10 hexupper ui o = .ok o' ∧
      Wrote o o' (numeral (symbol 10 false) 10 ui.toNat) := by
  have hdigit : ∀ d < 10, TOCHAR (UInt8.ofNat d) = symbol 10 false d := fun d hd =>
    (symbol_of_lt false (by decide) hd).symm
  have hten : (1 : Nat) < 10 := by decide
  have hlt64 := ui.toNat_lt
  rw [digitsIn, if_pos rfl]
  by_cases hsmall : ui < 10
  · have hlt : ui.toNat < 10 := hsmall
    rw [if_pos hsmall, toUInt8_eq, hdigit _ hlt]
    rw [numeral_of_lt _ hten (Nat.div_eq_of_lt hlt), Nat.mod_eq_of_lt hlt] at h ⊢
    exact push_wrote _ o h
  · rw [if_neg hsmall]
    by_cases hneg : ui.toInt64 < 0
    · have hge := (toInt64_neg_iff ui).mp hneg
      have hne : ui.toNat / 10 ≠ 0 := by omega
      have hdiv : (ui / 10).toNat = ui.toNat / 10 := UInt64.toNat_div ui 10
      have hmod : (ui % 10).toNat = ui.toNat % 10 := UInt64.toNat_mod ui 10
      have hrest : (ui / 10).toInt64.toInt = ((ui.toNat / 10 : Nat) : Int) := by
        rw [toInt_toInt64 (by omega), hdiv]
      rw [numeral_step _ hten hne, List.length_append, List.length_singleton] at h
      obtain ⟨o₁, hpush, hwrote₁⟩ := push_wrote (symbol 10 false (ui.toNat % 10)) o (by omega)
      have hp := hwrote₁.p
      rw [List.length_singleton] at hp
      obtain ⟨o₂, hloop, hwrote₂⟩ := signedLoop_wrote (ui / 10).toInt64
        (by rw [hrest]; omega) o₁ (by rw [hrest, Int.toNat_natCast]; omega)
      rw [hrest, Int.toNat_natCast] at hwrote₂
      rw [if_pos hneg, toUInt8_eq, hmod, hdigit _ (Nat.mod_lt _ (by decide)), hpush,
        numeral_step _ hten hne]
      exact ⟨o₂, hloop, hwrote₁.trans hwrote₂⟩
    · have hlt : ui.toNat < 9223372036854775808 :=
        Nat.not_le.mp (mt (toInt64_neg_iff ui).mpr hneg)
      have hint := toInt_toInt64 hlt
      obtain ⟨o₁, hloop, hwrote⟩ := signedLoop_wrote ui.toInt64 (by rw [hint]; omega) o
        (by rw [hint, Int.toNat_natCast]; exact h)
      rw [hint, Int.toNat_natCast] at hwrote
      rw [if_neg hneg]
      exact ⟨o₁, hloop, hwrote⟩

theorem toNat_shiftRight_eq (ui : UInt64) {k : UInt64} (hk : k.toNat < 64) :
    (ui >>> k).toNat = ui.toNat / 2 ^ k.toNat := by
  rw [UInt64.toNat_shiftRight, Nat.mod_eq_of_lt hk, Nat.shiftRight_eq_div_pow]

/-- All branches write the numeral. -/
theorem digitsIn_wrote {base : Nat} (hb : 2 ≤ base) (hb' : base ≤ 64) (hexupper : Bool)
    (ui : UInt64) (o : Tail cap)
    (h : (numeral (symbol base hexupper) base ui.toNat).length ≤ o.p) :
    ∃ o', digitsIn base hexupper ui o = .ok o' ∧
      Wrote o o' (numeral (symbol base hexupper) base ui.toNat) := by
  have hchar : ∀ {base d : Nat}, base ≠ 16 → base ≤ 10 → d < base →
      TOCHAR (UInt8.ofNat d) = symbol base hexupper d := fun hne hle hd =>
    (symbol_of_lt hexupper hne (Nat.lt_of_lt_of_le hd hle)).symm
  by_cases hten : base = 10
  · subst hten
    rw [symbol_case (by decide)] at h ⊢
    exact decimal_wrote ui hexupper o h
  by_cases height : base = 8
  · subst height
    rw [digitsIn, if_neg hten, if_pos rfl]
    refine unsigned_wrote hb ?_ (fun ui => toNat_shiftRight_eq ui (by decide)) ui o h
    intro ui
    rw [toUInt8_eq, UInt64.toNat_and, show (7 : UInt64).toNat = 2 ^ 3 - 1 from rfl,
      Nat.and_two_pow_sub_one_eq_mod]
    exact hchar (by decide) (by decide) (Nat.mod_lt _ (by decide))
  by_cases hsixteen : base = 16
  · subst hsixteen
    rw [digitsIn, if_neg hten, if_neg height, if_pos rfl]
    refine unsigned_wrote hb ?_ (fun ui => toNat_shiftRight_eq ui (by decide)) ui o h
    intro ui
    rw [UInt64.toNat_and, show (15 : UInt64).toNat = 2 ^ 4 - 1 from rfl,
      Nat.and_two_pow_sub_one_eq_mod]
    exact (symbol_sixteen hexupper (Nat.mod_lt _ (by decide))).symm
  by_cases htwo : base = 2
  · subst htwo
    rw [digitsIn, if_neg hten, if_neg height, if_neg hsixteen, if_pos rfl]
    refine unsigned_wrote hb ?_ (fun ui => toNat_shiftRight_eq ui (by decide)) ui o h
    intro ui
    rw [toUInt8_eq, UInt64.toNat_and, show (1 : UInt64).toNat = 2 ^ 1 - 1 from rfl,
      Nat.and_two_pow_sub_one_eq_mod]
    exact hchar (by decide) (by decide) (Nat.mod_lt _ (by decide))
  · have hbase : (UInt64.ofNat base).toNat = base := by
      rw [UInt64.toNat_ofNat', Nat.mod_eq_of_lt (by omega)]
    rw [digitsIn, if_neg hten, if_neg height, if_neg hsixteen, if_neg htwo]
    refine unsigned_wrote hb ?_ ?_ ui o h
    · intro ui
      rw [FMTCHAR, UInt64.toNat_mod, hbase, symbol, if_neg fun h => hsixteen h.1]
    · intro ui
      rw [UInt64.toNat_div, hbase]

/-! ## The prefix and the sign -/

theorem wrote_head {o o' : Tail cap} {c : UInt8} {t : List UInt8} (h : Wrote o o' (c :: t)) :
    o'.buf.cells.getD o'.p 0 = c := by
  have hle := o'.le
  have hlen := o.buf.length_cells
  have htake : (o.buf.cells.take o'.p).length = o'.p := by
    rw [List.length_take]
    omega
  rw [h.cells, List.append_assoc, List.getD_eq_getElem?_getD,
    List.getElem?_append_right (Nat.le_of_eq htake), htake, Nat.sub_self]
  rfl

/-- The first digit is a zero only if the number is zero. -/
theorem numeral_head {base : Nat} (hb : 1 < base) (hb' : base ≤ 10) (hexupper : Bool) (n : Nat) :
    ∃ c t, numeral (symbol base hexupper) base n = c :: t ∧ DIGIT c = true ∧
      (c = 0x30 ↔ n = 0) := by
  obtain ⟨d, ds, hds⟩ := List.exists_cons_of_ne_nil (digitsOf_ne_nil base n)
  have hd : d < base := digitsOf_lt hb n d (by rw [hds]; exact List.mem_cons_self)
  have hd' : d < 10 := Nat.lt_of_lt_of_le hd hb'
  have hdigits : ∀ d < 10, DIGIT (TOCHAR (UInt8.ofNat d)) = true ∧
      (TOCHAR (UInt8.ofNat d) = 0x30 ↔ d = 0) := by decide
  obtain ⟨hdigit, hzero⟩ := hdigits d hd'
  have hsymbol : symbol base hexupper d = TOCHAR (UInt8.ofNat d) :=
    symbol_of_lt hexupper (by omega) hd'
  rw [← hsymbol] at hdigit hzero
  refine ⟨_, ds.map (symbol base hexupper), ?_, hdigit, ?_⟩
  · rw [numeral, hds, List.map_cons]
  · rw [hzero]
    constructor
    · intro h0
      by_contra hn
      apply head_digitsOf base hn
      rw [hds, List.head?_cons, h0]
    · intro hn
      rw [digitsOf, if_pos hn] at hds
      exact (List.cons.inj hds).1.symm

theorem base_text {base : Nat} (hb : base ≤ 64) (hten : base ≠ 10) :
    numeral (symbol 10 false) 10 base =
      if base > 10 then [TOCHAR (UInt8.ofNat (base / 10)), TOCHAR (UInt8.ofNat (base % 10))]
      else [TOCHAR (UInt8.ofNat (base % 10))] := by
  have hlast : symbol 10 false (base % 10) = TOCHAR (UInt8.ofNat (base % 10)) :=
    symbol_of_lt false (by decide) (Nat.mod_lt base (by decide))
  by_cases hbig : base > 10
  · have hne : base / 10 ≠ 0 := by omega
    have hzero : base / 10 / 10 = 0 := by omega
    have hmod : base / 10 % 10 = base / 10 := by omega
    rw [if_pos hbig, numeral_step _ (by decide) hne, numeral_of_lt _ (by decide) hzero, hmod, hlast,
      symbol_of_lt false (by decide) (by omega)]
    rfl
  · rw [if_neg hbig, numeral_of_lt _ (by decide) (by omega), hlast]

theorem addPrefix_wrote {base : Nat} (hb : base ≤ 64) (flags : Flags) (n : Nat) {o₀ o : Tail cap}
    (hdigits : Wrote o₀ o (numeral (symbol base flags.flHexupper) base n))
    (h : (prefixText base flags n).length ≤ o.p) :
    ∃ o', addPrefix base flags o = .ok o' ∧ Wrote o o' (prefixText base flags n) := by
  unfold addPrefix
  unfold prefixText at h ⊢
  by_cases hprefix : flags.flPrefix ∧ (base = 8 ∨ base = 16)
  · rw [if_pos hprefix] at h
    rw [if_pos hprefix, if_pos hprefix]
    by_cases hsixteen : base = 16
    · rw [if_pos hsixteen] at h
      rw [if_pos hsixteen, if_pos hsixteen]
      exact pushAll_wrote o _ h
    · have height : base = 8 := hprefix.2.resolve_right hsixteen
      subst height
      obtain ⟨c, t, hct, -, hc⟩ := @numeral_head 8 (by decide) (by decide) flags.flHexupper n
      rw [hct] at hdigits
      rw [if_neg hsixteen] at h
      rw [if_neg hsixteen, if_neg hsixteen, wrote_head hdigits]
      simp only [ne_eq, hc] at h ⊢
      by_cases hzero : n = 0
      · rw [if_neg (not_not.mpr hzero), if_neg (not_not.mpr hzero)]
        exact ⟨o, rfl, Wrote.refl o⟩
      · rw [if_pos hzero] at h
        rw [if_pos hzero, if_pos hzero]
        exact push_wrote _ o h
  · rw [if_neg hprefix] at h
    rw [if_neg hprefix, if_neg hprefix]
    by_cases hadd : flags.flAddbase ∧ base ≠ 10
    · rw [if_pos hadd, base_text hb hadd.2] at h
      rw [if_pos hadd, if_pos hadd, base_text hb hadd.2]
      by_cases hbig : base > 10
      · rw [if_pos hbig] at h
        rw [if_pos hbig, if_pos hbig]
        exact pushAll_wrote o _ h
      · rw [if_neg hbig] at h
        rw [if_neg hbig, if_neg hbig]
        exact pushAll_wrote o _ h
    · rw [if_neg hadd, if_neg hadd]
      exact ⟨o, rfl, Wrote.refl o⟩

/-- The buffer before anything is stored. -/
def Tail.full (buf : Buffer UInt8 cap) : Tail cap := ⟨buf, cap, Nat.le_refl cap⟩

theorem start_wrote (buf : Buffer UInt8 cap) (h : 0 < cap) :
    ∃ o, Tail.start buf = .ok o ∧ Wrote (Tail.full buf) o [0] := by
  refine ⟨_, dif_pos h, ?_, ?_⟩
  · change cap - 1 + 1 = cap
    omega
  · change _ ++ _ ++ buf.cells.drop (cap - 1 + 1) = _ ++ _ ++ buf.cells.drop cap
    rw [Nat.sub_add_cancel h]
    rfl

/-- The number without its sign, in front of the NUL. -/
theorem unsigned_text {base : Nat} (hb : 2 ≤ base) (hb' : base ≤ 64) (flags : Flags) (ui : UInt64)
    (o : Tail cap) (h : (unsignedText base flags ui.toNat).length ≤ o.p) :
    ∃ o₁ o₂, digitsIn base flags.flHexupper ui o = .ok o₁ ∧ addPrefix base flags o₁ = .ok o₂ ∧
      Wrote o o₂ (unsignedText base flags ui.toNat) := by
  unfold unsignedText at h ⊢
  rw [List.length_append] at h
  obtain ⟨o₁, hdigits, hwrote₁⟩ := digitsIn_wrote hb hb' flags.flHexupper ui o (by omega)
  have hp := hwrote₁.p
  obtain ⟨o₂, hprefix, hwrote₂⟩ := addPrefix_wrote hb' flags ui.toNat hwrote₁ (by omega)
  exact ⟨o₁, o₂, hdigits, hprefix, hwrote₁.trans hwrote₂⟩

/-- In a buffer that is long enough, the text and its NUL are stored in the last bytes, and nothing
before them. -/
theorem fmtulong_text (ui : UInt64) {base : Nat} (hb : 2 ≤ base) (hb' : base ≤ 64)
    (buf : Buffer UInt8 cap) (flags : Flags) (h : (text ui base flags).length + 1 ≤ cap) :
    ∃ r, fmtulong ui base buf flags = .ok r ∧ r.einval = false ∧
      r.p + ((text ui base flags).length + 1) = cap ∧
      r.buf.cells = buf.cells.take r.p ++ (text ui base flags ++ [0]) := by
  have hbase : ¬((base : Int) = 0) := by omega
  have hrange : ¬((base : Int) < 2 ∨ 64 < (base : Int)) := by omega
  have hdone : ∀ o : Tail cap, Wrote (Tail.full buf) o (text ui base flags ++ [0]) →
      o.p + ((text ui base flags).length + 1) = cap ∧
        o.buf.cells = buf.cells.take o.p ++ (text ui base flags ++ [0]) := by
    intro o hwrote
    have hp := hwrote.p
    have hcells := hwrote.cells
    rw [List.length_append, List.length_singleton] at hp
    have hdrop : (Tail.full buf).buf.cells.drop (Tail.full buf).p = [] :=
      List.drop_of_length_le (Nat.le_of_eq buf.length_cells)
    rw [hdrop, List.append_nil] at hcells
    exact ⟨hp, hcells⟩
  obtain ⟨o₀, hstart, hwrote₀⟩ := start_wrote buf (Nat.lt_of_lt_of_le (Nat.succ_pos _) h)
  have hp₀ : o₀.p + 1 = cap := hwrote₀.p
  unfold fmtulong
  simp only [if_neg hbase, if_neg hrange, Int.toNat_natCast, hstart]
  unfold text at h hdone ⊢
  by_cases hsign : (!flags.flUnsigned && decide (ui.toInt64 < 0)) = true
  · rw [if_pos hsign, List.length_cons] at h
    simp only [if_pos hsign] at hdone ⊢
    obtain ⟨o₁, o₂, hdigits, hprefix, hwrote₂⟩ :=
      unsigned_text hb hb' flags (-ui) o₀ (by omega)
    have hp₂ := hwrote₂.p
    obtain ⟨o₃, hpush, hwrote₃⟩ := push_wrote 0x2d o₂ (by omega)
    simp only [hdigits, hprefix, hpush]
    refine ⟨_, rfl, rfl, hdone o₃ ?_⟩
    rw [List.cons_append]
    exact (hwrote₀.trans hwrote₂).trans hwrote₃
  · rw [if_neg hsign] at h
    simp only [if_neg hsign] at hdone ⊢
    obtain ⟨o₁, o₂, hdigits, hprefix, hwrote₂⟩ := unsigned_text hb hb' flags ui o₀ (by omega)
    simp only [hdigits, hprefix]
    exact ⟨_, rfl, rfl, hdone o₂ (hwrote₀.trans hwrote₂)⟩

theorem symbol_ne_zero {base : Nat} (hb : base ≤ 64) (hexupper : Bool) {d : Nat} (hd : d < base) :
    symbol base hexupper d ≠ 0 := by
  have hall : ∀ d < 64, all_digs.getD d 0 ≠ 0 := by decide +kernel
  have hupper : ∀ d < 16, X_digs.getD d 0 ≠ 0 := by decide
  rw [symbol]
  by_cases hhex : base = 16 ∧ hexupper = true
  · rw [if_pos hhex]
    exact hupper d (by omega)
  · rw [if_neg hhex]
    exact hall d (by omega)

/-- The text is a string. -/
theorem zero_not_mem_unsignedText {base : Nat} (hb : 2 ≤ base) (hb' : base ≤ 64) (flags : Flags)
    (n : Nat) : 0 ∉ unsignedText base flags n := by
  have hnumeral : ∀ {base : Nat} (hexupper : Bool) (n : Nat), 2 ≤ base → base ≤ 64 →
      0 ∉ numeral (symbol base hexupper) base n := by
    intro base hexupper n hb hb' hmem
    obtain ⟨d, hd, hzero⟩ := mem_numeral hb hmem
    exact symbol_ne_zero hb' hexupper hd hzero
  have hprefix : 0 ∉ prefixText base flags n := by
    unfold prefixText
    split
    · split
      · cases flags.flHexupper with
        | true => decide
        | false => decide
      · split
        · decide
        · exact List.not_mem_nil
    · split
      · intro hmem
        rcases List.mem_append.mp hmem with hmem | hmem
        · exact hnumeral false base (by decide) (by decide) hmem
        · exact absurd hmem (by decide)
      · exact List.not_mem_nil
  intro hmem
  rcases List.mem_append.mp hmem with hmem | hmem
  · exact hprefix hmem
  · exact hnumeral flags.flHexupper n hb hb' hmem

theorem zero_not_mem_text (ui : UInt64) {base : Nat} (hb : 2 ≤ base) (hb' : base ≤ 64)
    (flags : Flags) : 0 ∉ text ui base flags := by
  unfold text
  split
  · intro hmem
    rcases List.mem_cons.mp hmem with hmem | hmem
    · exact absurd hmem (by decide)
    · exact zero_not_mem_unsignedText hb hb' flags _ hmem
  · exact zero_not_mem_unsignedText hb hb' flags _

theorem unsignedText_length {flags : Flags} (ui : UInt64) :
    (unsignedText 10 flags ui.toNat).length ≤ 20 := by
  have hprefix : prefixText 10 flags ui.toNat = [] := by
    rw [prefixText, if_neg fun h => absurd h.2 (by decide), if_neg fun h => h.2 rfl]
  have hlt := ui.toNat_lt
  rw [unsignedText, hprefix, List.nil_append]
  exact numeral_length_le _ (by decide) (by decide) (by omega)

/-- The buffer of `itos` is long enough. -/
theorem itos_eq (v : Int64) (lbuf : Buffer UInt8 itosBuf) :
    itos v lbuf = .ok (text v.toUInt64 10 noFlags) := by
  have hlen : (text v.toUInt64 10 noFlags).length + 1 ≤ itosBuf := by
    have hbuf : itosBuf = 22 := rfl
    rw [hbuf, text]
    split
    · have hle := @unsignedText_length noFlags (-v.toUInt64)
      rw [List.length_cons]
      omega
    · have hle := @unsignedText_length noFlags v.toUInt64
      omega
  obtain ⟨r, hr, -, hp, hcells⟩ := fmtulong_text v.toUInt64 (by decide) (by decide) lbuf _ hlen
  have hzero := @zero_not_mem_text v.toUInt64 10 (by decide) (by decide) noFlags
  have htake : (lbuf.cells.take r.p).length = r.p := by
    rw [List.length_take, lbuf.length_cells]
    omega
  have hdrop : r.buf.cells.drop r.p = text v.toUInt64 10 noFlags ++ [0] := by
    rw [hcells]
    exact List.drop_left' htake
  unfold itos
  rw [show fmtulong v.toUInt64 10 lbuf _ = _ from hr]
  simp only [hdrop]
  rw [List.takeWhile_append_of_pos]
  · exact congrArg Except.ok (List.append_nil _)
  · intro c hc
    apply decide_eq_true
    intro hc0
    rw [hc0] at hc
    exact hzero hc

end Basht.Numbers
