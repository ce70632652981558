import Basht.Library.Coding

/-!
# The `printf` builtin (`builtins/printf.def`)

The main loop of `printf_builtin`. A conversion is performed after its length modifiers have been
overwritten in the user's format: the conversion character goes to the place of the first modifier,
and a null byte behind it. What the cases of the `switch` print is a parameter (`Env.convert`).
Neither `-v` nor errors in writing to `stdout` are looked at, and what is reported when `printf`
stops is left out. The format is a list of bytes without the null byte at its end.
-/

namespace Basht.Printf

def BACKSLASH : Nat := 92

def PERCENT : Nat := 37

def STAR : Nat := 42

def DOT : Nat := 46

def MINUS : Nat := 45

def LPAREN : Nat := 40

def RPAREN : Nat := 41

def INT_MAX : Int := 2147483647

def INT_MIN : Int := -2147483648

/-- A character of `SKIP1`. -/
def skip1 (c : Nat) : Bool := c ∈ [35, 39, 45, 43, 32, 48]

/-- A character of `LENMODS`. -/
def lenmod (c : Nat) : Bool := c ∈ [104, 106, 108, 76, 116, 122]

/-- `DIGIT` -/
def digit (c : Nat) : Bool := 48 ≤ c ∧ c ≤ 57

/-- The characters that a conversion may have, without the parenthesis. -/
def convchs : List Nat :=
  [99, 67, 115, 83, 98, 110, 113, 81, 100, 105, 111, 117, 120, 88, 101, 69, 102, 70, 103, 71, 97, 65]

/-- What is reported on `stderr`. -/
inductive Report where
  | missingHexDigit
  | missingUnicodeDigit (c : Nat)
  | timeFormat (c : Nat)
  | invalidNumber (s : List Nat)
  | range (s : List Nat)

/-! ## The parts of a conversion -/

/-- A field width or a precision. -/
structure Field where
  star : Bool
  minus : Bool
  digits : List Nat

def Field.text (f : Field) : List Nat :=
  if f.star then [STAR] else (if f.minus then [MINUS] else []) ++ f.digits

/-- Skip optional field width. -/
def scanWidth (s : List Nat) : Field × List Nat :=
  if s.head? = some STAR then (⟨true, false, []⟩, s.tail)
  else (⟨false, false, s.takeWhile digit⟩, s.dropWhile digit)

/-- The precision behind a '.'. -/
def scanField (s : List Nat) : Field × List Nat :=
  if s.head? = some STAR then (⟨true, false, []⟩, s.tail)
  else
    let minus := decide (s.head? = some MINUS)
    let s := if minus then s.tail else s
    (⟨false, minus, s.takeWhile digit⟩, s.dropWhile digit)

/-- Skip optional '.' and precision. -/
def scanPrecision (s : List Nat) : Option Field × List Nat :=
  if s.head? = some DOT then (some (scanField s.tail).1, (scanField s.tail).2) else (none, s)

/-- The parts of a conversion behind the '%', and the text from the conversion character on. -/
structure Scan where
  flags : List Nat
  width : Field
  precision : Option Field
  mods : List Nat
  rest : List Nat

def scan (s : List Nat) : Scan :=
  let w := scanWidth (s.dropWhile skip1)
  let p := scanPrecision w.2
  ⟨s.takeWhile skip1, w.1, p.1, p.2.takeWhile lenmod, p.2.dropWhile lenmod⟩

namespace Scan

/-- The text between the '%' and `modstart`. -/
def spec (sc : Scan) : List Nat :=
  sc.flags ++ sc.width.text ++
    match sc.precision with
    | some f => DOT :: f.text
    | none => []

def widthStar (sc : Scan) : Bool := sc.width.star

def precStar (sc : Scan) : Bool :=
  match sc.precision with
  | some f => f.star
  | none => false

end Scan

/-- What the `switch` is given: the conversion, from the '%' on, up to the null byte, and the
variables of `printf_builtin`. `precstart` is an offset. -/
structure Spec where
  start : List Nat
  convch : Nat
  fieldwidth : Int
  precision : Int
  haveFieldwidth : Bool
  havePrecision : Bool
  altform : Bool
  longform : Bool
  useLmod : Bool
  precstart : Option Nat
  timefmt : List Nat

/-- `precstart` -/
def Scan.precstart (sc : Scan) : Option Nat :=
  match sc.precision with
  | some f =>
    if f.star = false ∧ f.digits ≠ [] then
      some (1 + sc.flags.length + sc.width.text.length + 1 + if f.minus then 1 else 0)
    else none
  | none => none

/-- The value of `strtoimax`, `errno == ERANGE`, and whether all of the text is a number. -/
structure Number where
  ret : Int
  erange : Bool
  complete : Bool

/-- What `printf_builtin` calls; `σ` is what else there is. -/
structure Env (σ : Type) where
  coding : Coding
  u32cconv : Nat → List Nat
  strtoimax : List Nat → Number
  asciicode : List Nat → Int
  report : Report → σ → σ
  /-- The case of the `switch`: what is printed for an argument, unless `printf` stops. -/
  convert : Spec → Option (List Nat) → Nat → σ → Option (List Nat × σ)

/-- `garglist`, `tw`, and what else there is. -/
structure State (σ : Type) where
  args : List (List Nat)
  tw : Nat
  world : σ

variable {σ : Type} (E : Env σ)

/-- `PC` for each of the bytes. -/
def State.put (st : State σ) (bytes : List Nat) : State σ := { st with tw := st.tw + bytes.length }

/-- `getint` -/
def getint (overflowRetval : Int) (arg : Option (List Nat)) (w : σ) : Int × σ :=
  match arg with
  | none => (0, w)
  | some arg =>
    if arg.head? = some 39 ∨ arg.head? = some 34 then (E.asciicode arg, w)
    else
      let n := E.strtoimax arg
      let overflow := n.erange = true ∨ n.ret < INT_MIN ∨ INT_MAX < n.ret
      let w :=
        if n.complete = false then E.report (.invalidNumber arg) w
        else if overflow then E.report (.range arg) w
        else w
      (if overflow then overflowRetval else n.ret, w)

/-- A '*' takes the next argument. -/
def takeStar (star : Bool) (overflowRetval : Int) (st : State σ) : Int × State σ :=
  if star then
    let n := getint E overflowRetval st.args.head? st.world
    (n.1, { st with args := st.args.tail, world := n.2 })
  else (0, st)

/-- The field width, the precision and the state behind them. -/
def Scan.stars (sc : Scan) (st : State σ) : Int × Int × State σ :=
  let w := takeStar E sc.widthStar 0 st
  let p := takeStar E sc.precStar (-1) w.2
  (w.1, p.1, p.2)

/-! ## Escapes -/

def octal (c : Nat) : Bool := 48 ≤ c ∧ c ≤ 55

def xdigit (c : Nat) : Bool := digit c ∨ (65 ≤ c ∧ c ≤ 70) ∨ (97 ≤ c ∧ c ≤ 102)

/-- `HEXVALUE` -/
def hexvalue (c : Nat) : Nat := if digit c then c - 48 else if c ≤ 70 then c - 55 else c - 87

/-- The value of at most `temp` digits, behind the value `n`, and how many there are. -/
def digits (base : Nat) (isDigit : Nat → Bool) (value : Nat → Nat) (temp n : Nat) (s : List Nat) :
    Nat × Nat :=
  let ds := (s.take temp).takeWhile isDigit
  (ds.foldl (fun n c => n * base + value c) n, ds.length)

/-- An escape of a digit string: what is printed, the number of characters behind the letter `c`
that belong to it, and an error. -/
structure Escape where
  bytes : List Nat
  len : Nat
  error : Option Report

/-- `tescape` without `sawc`, for the text behind the backslash. -/
def tescape (s : List Nat) : Escape :=
  match s with
  | [] => ⟨[BACKSLASH], 0, none⟩
  | c :: s =>
    if c = 97 then ⟨[7], 1, none⟩
    else if c = 98 then ⟨[8], 1, none⟩
    else if c = 101 ∨ c = 69 then ⟨[27], 1, none⟩
    else if c = 102 then ⟨[12], 1, none⟩
    else if c = 110 then ⟨[10], 1, none⟩
    else if c = 114 then ⟨[13], 1, none⟩
    else if c = 116 then ⟨[9], 1, none⟩
    else if c = 118 then ⟨[11], 1, none⟩
    else if octal c then
      let (evalue, n) := digits 8 octal (· - 48) 2 (c - 48) s
      ⟨[evalue % 256], 1 + n, none⟩
    else if c = 120 then
      let (evalue, n) := digits 16 xdigit hexvalue 2 0 s
      if n = 0 then ⟨[BACKSLASH], 0, some .missingHexDigit⟩ else ⟨[evalue % 256], 1 + n, none⟩
    else if c = 117 ∨ c = 85 then
      let (uvalue, n) := digits 16 xdigit hexvalue (if c = 117 then 4 else 8) 0 s
      if n = 0 then ⟨[BACKSLASH], 0, some (.missingUnicodeDigit c)⟩
      else ⟨if uvalue ≤ 0x7f then [uvalue] else E.u32cconv uvalue, 1 + n, none⟩
    else if c = BACKSLASH ∨ c = 39 ∨ c = 34 ∨ c = 63 then ⟨[c], 1, none⟩
    else ⟨[BACKSLASH], 0, none⟩

/-! ## The main loop -/

/-- The text of a time format, with parentheses in it, and the text from its end on. -/
def timeText : Nat → List Nat → List Nat × List Nat
  | _, [] => ([], [])
  | n, c :: s =>
    let n := if c = LPAREN then n + 1 else if c = RPAREN then n - 1 else n
    if n = 0 then ([], c :: s) else (c :: (timeText n s).1, (timeText n s).2)

/-- Does the format end with ")T"? -/
def endsTime (s : List Nat) : Bool := s.head? = some RPAREN ∧ s.tail.head? = some 84

/-- The character that a warning about a time format has: the null byte at its end, or the one
behind the parenthesis. -/
def timeChar (s : List Nat) : Nat := s.tail.headD 0

/-- A C string. -/
def cstring (text : List Nat) : List Nat := text.takeWhile (· ≠ 0)

/-- What the `switch` is given for the conversion at the start of `text`. -/
def specOf (text : List Nat) (sc : Scan) (convch : Nat) (fieldwidth precision : Int)
    (timefmt : List Nat) : Spec :=
  ⟨cstring text, convch, fieldwidth, precision, sc.widthStar, sc.precStar, decide (35 ∈ sc.flags),
    decide (108 ∈ sc.mods), decide (76 ∈ sc.mods), sc.precstart, timefmt⟩

/-- The case of the `switch` takes an argument if there is one. -/
def convertNext (sp : Spec) (st : State σ) : Option (List Nat × State σ) :=
  (E.convert sp st.args.head? st.tw st.world).map fun r =>
    (r.1, ⟨st.args.tail, st.tw + r.1.length, r.2⟩)

def State.report (st : State σ) (error : Option Report) : State σ :=
  match error with
  | none => st
  | some r => { st with world := E.report r st.world }

/-- `modstart[0] = a`, and `modstart[1] = b`. -/
def overwrite (text : List Nat) (modstart a b : Nat) : List Nat :=
  (text.set modstart a).set (modstart + 1) b

/-- What a round of the loop over the format does: what is printed, `fmt` for the next round, and
the format. -/
structure Round (σ : Type) where
  bytes : List Nat
  fmt : Nat
  text : List Nat
  state : State σ

/-- A conversion specification at `start`. -/
def conversion (text : List Nat) (start : Nat) (st : State σ) : Option (Round σ) :=
  let sc := scan (text.drop (start + 1))
  let modstart := start + 1 + sc.spec.length
  let fmt := modstart + sc.mods.length
  let s := sc.stars E st
  let st := s.2.2
  match sc.rest with
  | [] => none
  | convch :: _ =>
    let thisch := text.getD modstart 0
    let nextch := text.getD (modstart + 1) 0
    let edited := overwrite text modstart convch 0
    if convch = LPAREN then
      -- restore char after left paren
      let edited := edited.set (modstart + 1) nextch
      let time := timeText 1 (edited.drop (fmt + 1))
      if endsTime time.2 then
        let edited := overwrite edited modstart 115 0
        (convertNext E (specOf (edited.drop start) sc convch s.1 s.2.1 time.1) st).map fun r =>
          ⟨r.1, fmt + 1 + time.1.length + 2, overwrite edited modstart thisch nextch, r.2⟩
      else
        -- `continue`, and the format is not restored
        some ⟨[PERCENT], start + 1, edited,
          (st.report E (some (.timeFormat (timeChar time.2)))).put [PERCENT]⟩
    else if convch ∈ convchs then
      (convertNext E (specOf (edited.drop start) sc convch s.1 s.2.1 []) st).map fun r =>
        ⟨r.1, fmt + 1, overwrite edited modstart thisch nextch, r.2⟩
    else none

/-- A round of the loop over the format. -/
def round (text : List Nat) (fmt : Nat) (st : State σ) : Option (Round σ) :=
  match text.drop fmt with
  | [] => none
  | c :: s =>
    if c = BACKSLASH then
      let e := tescape E s
      some ⟨e.bytes, fmt + 1 + e.len, text, (st.report E e.error).put e.bytes⟩
    else if c ≠ PERCENT then
      let bytes := (c :: s).take (E.coding.step (c :: s))
      some ⟨bytes, fmt + E.coding.step (c :: s), text, st.put bytes⟩
    else if s.head? = some PERCENT then some ⟨[PERCENT], fmt + 2, text, st.put [PERCENT]⟩
    else conversion E text fmt st

/-- A pass over the format: what is printed, the format and the state behind it. `none` says that
the fuel has run out, and `some none` that `printf` stops. -/
def pass : Nat → List Nat → Nat → State σ → Option (Option (List Nat × List Nat × State σ))
  | 0, _, _, _ => none
  | fuel + 1, text, fmt, st =>
    if text.length ≤ fmt then some (some ([], text, st))
    else
      match round E text fmt st with
      | none => some none
      | some r =>
        (pass fuel r.text r.fmt r.state).map fun more =>
          more.map fun m => (r.bytes ++ m.1, m.2)

/-- What `printf` prints, the format at the start of each pass, and what else there is. -/
structure Outcome (σ : Type) where
  bytes : List Nat
  texts : List (List Nat)
  world : σ

/-- The passes, as long as there are arguments left, and the first one took any. -/
def passes (fuel first : Nat) : Nat → List Nat → State σ → Option (Option (Outcome σ))
  | 0, _, _ => none
  | n + 1, text, st =>
    match pass E fuel text 0 { st with tw := 0 } with
    | none => none
    | some none => some none
    | some (some (bytes, text', st)) =>
      if st.args ≠ [] ∧ st.args.length ≠ first then
        (passes fuel first n text' st).map fun more =>
          more.map fun o => ⟨bytes ++ o.bytes, text :: o.texts, o.world⟩
      else some (some ⟨bytes, [text], st.world⟩)

/-- `printf format args` -/
def printf (fuel : Nat) (format : List Nat) (args : List (List Nat)) (w : σ) :
    Option (Option (Outcome σ)) :=
  if format = [] then some (some ⟨[], [], w⟩)
  else passes E fuel args.length fuel format ⟨args, 0, w⟩

end Basht.Printf
