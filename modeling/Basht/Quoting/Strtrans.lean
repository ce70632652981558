import Mathlib.Data.List.Basic

/-!
# ANSI-C quoting

`ansicstr` and `ansic_quote` of `strtrans.c`. Strings are lists of bytes, given without
their NUL: `*s == 0` is the end of the list. What the two functions ask the C library
(`mbrtowc`, `iswprint`, `isprint`, ...) is a `Locale`.
-/

namespace Basht.Quoting

/-- The result of `mbrtowc`: 0, -1 or -2 (`MB_INVALIDCH`), or the length of a character. -/
inductive Conversion where
  | null
  | invalid
  | char (clen : Nat) (wc : UInt32)
deriving DecidableEq, Repr

/-- A locale, as the library and `locale.c` show it. -/
structure Locale where
  utf8locale : Bool
  mbCurMax : Nat
  /-- `mbstate_t`. -/
  State : Type
  /-- `INITIALIZE_MBSTATE`. -/
  initial : State
  mbrtowc : State → List UInt8 → Conversion × State
  iswprint : UInt32 → Bool
  isprint : UInt8 → Bool
  isBasic : UInt8 → Bool
  toupper : UInt8 → UInt8
  /-- `u32cconv`: the characters stored for a code point. -/
  u32cconv : Nat → List UInt8

namespace Locale

variable (L : Locale)

/-- `mbrtowc (&wc, s, locale_mb_cur_max, &state)`; the NUL behind `s` may be read. -/
def convert (state : L.State) (s : List UInt8) : Conversion × L.State :=
  L.mbrtowc state ((s ++ [0]).take L.mbCurMax)

/-- `TOCTRL`. -/
def toctrl (c : UInt8) : UInt8 := if c = '?'.toUInt8 then 0x7f else L.toupper c &&& 0x1f

end Locale

/-- `ESC`. -/
def ESC : UInt8 := 0x1b

/-- `CTLESC`. -/
def CTLESC : UInt8 := 0x01

/-- `CTLNUL`. -/
def CTLNUL : UInt8 := 0x7f

/-- `ISOCTAL`. -/
def isOctal (c : UInt8) : Bool := '0'.toUInt8 ≤ c && c ≤ '7'.toUInt8

/-- `OCTVALUE`. -/
def octValue (c : UInt8) : Nat := c.toNat - 48

/-- `ISXDIGIT`. -/
def isXDigit (c : UInt8) : Bool :=
  ('0'.toUInt8 ≤ c && c ≤ '9'.toUInt8) || ('a'.toUInt8 ≤ c && c ≤ 'f'.toUInt8) ||
    ('A'.toUInt8 ≤ c && c ≤ 'F'.toUInt8)

/-- `HEXVALUE`. -/
def hexValue (c : UInt8) : Nat :=
  if 'a'.toUInt8 ≤ c ∧ c ≤ 'f'.toUInt8 then c.toNat - 97 + 10
  else if 'A'.toUInt8 ≤ c ∧ c ≤ 'F'.toUInt8 then c.toNat - 65 + 10
  else c.toNat - 48

/-- The digits a loop reads that stops at the first other character, and after `temp`. -/
def digits (isDigit : UInt8 → Bool) (temp : Nat) (s : List UInt8) : List UInt8 :=
  (s.take temp).takeWhile isDigit

/-- The value of the digits `ds` read behind the value `c`. -/
def readDigits (base : Nat) (value : UInt8 → Nat) (c : Nat) (ds : List UInt8) : Nat :=
  ds.foldl (fun c d => c * base + value d) c

/-! ## Decoding -/

/-- What one turn of the loop of `ansicstr` does behind the character it starts with:
`out` is stored and `k` more characters are read, or the function returns, or the loop is
left. -/
inductive Turn where
  | put (out : List UInt8) (k : Nat)
  | ret
  | leave
deriving DecidableEq, Repr

/-- The end of the turn: `c` is stored, behind a CTLESC where the parser needs one. -/
def putc (flags : Nat) (out : List UInt8) (c : UInt8) (k : Nat) : Turn :=
  if flags.testBit 1 ∧ (c = CTLESC ∨ c = CTLNUL) then .put (out ++ [CTLESC, c]) k
  else .put (out ++ [c]) k

/-- A character that is no escape: a backslash is kept, unless it is to be removed. -/
def unrecognized (flags : Nat) (c : UInt8) : Turn :=
  putc flags (if flags.testBit 2 then [] else ['\\'.toUInt8]) c 0

/-- `\x`; the caller has read the `x`. -/
def hexEscape (flags : Nat) (s : List UInt8) : Turn :=
  if flags.testBit 1 ∧ s.head? = some '\x7b'.toUInt8 then
    let ds := digits isXDigit s.length s.tail
    let close := if (s.tail.drop ds.length).head? = some '\x7d'.toUInt8 then 1 else 0
    putc flags [] (UInt8.ofNat (readDigits 16 hexValue 0 ds)) (1 + ds.length + close)
  else
    let ds := digits isXDigit 2 s
    if ds = [] then putc flags ['\\'.toUInt8] 'x'.toUInt8 0
    else putc flags [] (UInt8.ofNat (readDigits 16 hexValue 0 ds)) ds.length

/-- `\u` and `\U`, which read at most `temp` digits. -/
def codeEscape (L : Locale) (flags : Nat) (c : UInt8) (temp : Nat) (s : List UInt8) : Turn :=
  let ds := digits isXDigit temp s
  let v := readDigits 16 hexValue 0 ds
  if ds = [] then putc flags ['\\'.toUInt8] c 0
  else if v ≤ 0x7f then putc flags [] (UInt8.ofNat v) ds.length
  else .put (L.u32cconv v) ds.length

/-- `\c`. -/
def controlEscape (L : Locale) (flags : Nat) (sawc : Bool) (s : List UInt8) : Turn :=
  if sawc then .ret
  else if flags.testBit 0 then unrecognized flags 'c'.toUInt8
  else
    match s with
    | [] => unrecognized flags 'c'.toUInt8
    | c :: s =>
      if flags.testBit 1 ∧ c = '\\'.toUInt8 ∧ s.head? = some c then putc flags [] (L.toctrl c) 2
      else if flags.testBit 1 ∧ c = CTLESC ∧ s.head? = some CTLESC then
        putc flags [] (L.toctrl CTLESC) 2
      else if flags.testBit 1 ∧ c = CTLESC ∧ s.head? = some CTLNUL then
        putc flags [] (L.toctrl CTLNUL) 2
      else putc flags [] (L.toctrl c) 1

/-- The `switch` on the character `c` behind a backslash. -/
def escape (L : Locale) (flags : Nat) (sawc : Bool) (c : UInt8) (s : List UInt8) : Turn :=
  if c = 'a'.toUInt8 then putc flags [] 0x07 0
  else if c = 'v'.toUInt8 then putc flags [] 0x0b 0
  else if c = 'b'.toUInt8 then putc flags [] 0x08 0
  else if c = 'e'.toUInt8 ∨ c = 'E'.toUInt8 then putc flags [] ESC 0
  else if c = 'f'.toUInt8 then putc flags [] 0x0c 0
  else if c = 'n'.toUInt8 then putc flags [] 0x0a 0
  else if c = 'r'.toUInt8 then putc flags [] 0x0d 0
  else if c = 't'.toUInt8 then putc flags [] 0x09 0
  else if isOctal c then
    if flags.testBit 0 ∧ c ≠ '0'.toUInt8 then putc flags ['\\'.toUInt8] c 0
    else
      let temp := if flags.testBit 0 ∧ c = '0'.toUInt8 then 3 else 2
      let ds := digits isOctal temp s
      putc flags [] (UInt8.ofNat (readDigits 8 octValue (octValue c) ds)) ds.length
  else if c = 'x'.toUInt8 then hexEscape flags s
  else if c = 'u'.toUInt8 then codeEscape L flags c 4 s
  else if c = 'U'.toUInt8 then codeEscape L flags c 8 s
  else if c = '\\'.toUInt8 then putc flags [] c 0
  else if c = '\''.toUInt8 ∨ c = '"'.toUInt8 ∨ c = '?'.toUInt8 then
    putc flags (if flags.testBit 0 then ['\\'.toUInt8] else []) c 0
  else if c = 'c'.toUInt8 then controlEscape L flags sawc s
  else unrecognized flags c

/-- A character that starts no escape. In a locale with multibyte characters other than
UTF-8 the whole character is copied; `mbrtowc` keeps that conversion's state itself. -/
def copyChar (L : Locale) (c : UInt8) (s : List UInt8) : Turn :=
  if L.utf8locale = false ∧ L.mbCurMax > 1 ∧ L.isBasic c = false then
    match (L.convert L.initial (c :: s)).1 with
    | .null => .leave
    | .invalid => .put [c] 0
    | .char clen _ => .put (c :: s.take (clen - 1)) (clen - 1)
  else .put [c] 0

/-- The loop of `ansicstr`: what it stores, and whether it sets `*sawc`. -/
def ansicstrLoop (L : Locale) (flags : Nat) (sawc : Bool) : List UInt8 → List UInt8 × Bool
  | [] => ([], false)
  | c :: s =>
    if c ≠ '\\'.toUInt8 then
      match copyChar L c s with
      | .put out k =>
        let r := ansicstrLoop L flags sawc (s.drop k)
        (out ++ r.1, r.2)
      | .ret => ([], true)
      | .leave => ([], false)
    else
      match s with
      | [] => ([c], false)
      | d :: s =>
        match escape L flags sawc d s with
        | .put out k =>
          let r := ansicstrLoop L flags sawc (s.drop k)
          (out ++ r.1, r.2)
        | .ret => ([], true)
        | .leave => ([], false)
termination_by s => s.length

section Loop

variable {L : Locale} {flags : Nat} {sawc : Bool} {c : UInt8} {s out : List UInt8} {k : Nat}

theorem ansicstrLoop_copy (hc : c ≠ '\\'.toUInt8) (h : copyChar L c s = .put out k) :
    ansicstrLoop L flags sawc (c :: s) = (out ++ (ansicstrLoop L flags sawc (s.drop k)).1,
      (ansicstrLoop L flags sawc (s.drop k)).2) := by
  rw [ansicstrLoop.eq_def]
  simp only [hc, ne_eq, not_false_eq_true, if_true, h]

theorem ansicstrLoop_escape (h : escape L flags sawc c s = .put out k) :
    ansicstrLoop L flags sawc ('\\'.toUInt8 :: c :: s) =
      (out ++ (ansicstrLoop L flags sawc (s.drop k)).1,
        (ansicstrLoop L flags sawc (s.drop k)).2) := by
  rw [ansicstrLoop.eq_def]
  simp only [ne_eq, not_true_eq_false, if_false, h]

end Loop

/-- `ansicstr`; a null pointer for the empty string. -/
def ansicstr (L : Locale) (string : List UInt8) (flags : Nat) (sawc : Bool) :
    Option (List UInt8 × Bool) :=
  if string = [] then none else some (ansicstrLoop L flags sawc string)

/-! ## Encoding -/

/-- The characters `ansic_quote` writes behind a backslash. -/
def named (c : UInt8) : Option UInt8 :=
  if c = ESC then some 'E'.toUInt8
  else if c = 0x07 then some 'a'.toUInt8
  else if c = 0x0b then some 'v'.toUInt8
  else if c = 0x08 then some 'b'.toUInt8
  else if c = 0x0c then some 'f'.toUInt8
  else if c = 0x0a then some 'n'.toUInt8
  else if c = 0x0d then some 'r'.toUInt8
  else if c = 0x09 then some 't'.toUInt8
  else if c = '\\'.toUInt8 ∨ c = '\''.toUInt8 then some c
  else none

/-- `TOCHAR`. -/
def toChar (c : UInt8) : UInt8 := c + '0'.toUInt8

/-- The three octal digits of a byte. -/
def octal (c : UInt8) : List UInt8 :=
  ['\\'.toUInt8, toChar ((c >>> 6) &&& 7), toChar ((c >>> 3) &&& 7), toChar (c &&& 7)]

/-- The bytes that are read as the start of a multibyte character. -/
def startsMultibyte (L : Locale) (c : UInt8) : Bool :=
  (L.utf8locale && c &&& 0x80 != 0) || (!L.utf8locale && L.mbCurMax > 1 && !L.isBasic c)

/-- The loop of `ansic_quote`. -/
def ansicQuoteLoop (L : Locale) : L.State → List UInt8 → List UInt8
  | _, [] => []
  | state, c :: s =>
    match named c with
    | some e => '\\'.toUInt8 :: e :: ansicQuoteLoop L state s
    | none =>
      if startsMultibyte L c then
        match L.convert state (c :: s) with
        | (.null, _) => []
        | (.invalid, _) => octal c ++ ansicQuoteLoop L L.initial s
        | (.char clen wc, state') =>
          if L.iswprint wc then
            (c :: s).take clen ++ ansicQuoteLoop L state' (s.drop (clen - 1))
          else octal c ++ ansicQuoteLoop L state' s
      else if L.isprint c then c :: ansicQuoteLoop L state s
      else octal c ++ ansicQuoteLoop L state s
termination_by _ s => s.length

/-- `ansic_quote`; a null pointer for the empty string. -/
def ansicQuote (L : Locale) (str : List UInt8) : Option (List UInt8) :=
  if str = [] then none
  else some (['$'.toUInt8, '\''.toUInt8] ++ ansicQuoteLoop L L.initial str ++ ['\''.toUInt8])

end Basht.Quoting
