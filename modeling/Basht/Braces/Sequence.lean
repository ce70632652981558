import Basht.Tasks.Feed

/-!
# Sequence expressions

`expand_seqterm` and `mkseq` of `braces.c`: the terms of a brace expression `x..y` or `x..y..incr`.
All that is computed from the numbers is checked for overflow before the loop, which then counts its
terms and does not compare them with `y`.
-/

namespace Basht.Braces

open Basht.Tasks (strtoimax validNumber isDigit decimalValue)

/-- A string: its bytes without the NUL. -/
abbrev Text := List UInt8

/-- The numbers of type `intmax_t`. -/
def IsIntmax (n : Int) : Prop := -9223372036854775808 ≤ n ∧ n ≤ 9223372036854775807

instance (n : Int) : Decidable (IsIntmax n) := inferInstanceAs (Decidable (_ ∧ _))

/-- `ckd_sub` into an `intmax_t`; `none` stands for overflow. -/
def ckdSub (a b : Int) : Option Int := if IsIntmax (a - b) then some (a - b) else none

/-- `ckd_add` into a `size_t`. -/
def ckdAddSize (a b : Int) : Option Nat :=
  if 0 ≤ a + b ∧ a + b < 18446744073709551616 then some (a + b).toNat else none

/-- Which requests for memory are granted: a vector of `n` pointers, and the text of the term with
number `i`. -/
structure Memory where
  vector : Nat → Bool
  text : Nat → Bool

/-- `ST_BAD`, `ST_INT`, `ST_CHAR` and `ST_ZINT`. -/
inductive SeqType where
  | bad | int | char | zint
deriving DecidableEq

/-- A signed addition left the range. -/
inductive Fault where
  | overflow
deriving DecidableEq

/-- `itos`. -/
def itos (n : Int) : Text := Display.decimal n

variable (mem : Memory) (isalpha : UInt8 → Bool)

/-- The text of the term with number `i`. -/
def term (type : SeqType) (width i : Nat) (n : Int) : Option Text :=
  match type with
  | .int => some (itos n)
  | .zint =>
    let t := itos n
    let tlen := t.length
    if tlen < width then
      -- the digits move to the end, and the zeros fill the room behind the sign
      let neg := if n < 0 then 1 else 0
      if mem.text i then some (t.take neg ++ List.replicate (width - tlen) 0x30 ++ t.drop neg)
      else none
    else some t
  | _ => if mem.text i then some [UInt8.ofInt n] else none

/-- The loop of `mkseq` at the term `n` with number `i`, with `k` terms to come behind it. -/
def mkseqLoop (incr : Int) (type : SeqType) (width : Nat) :
    Nat → Nat → Int → Except Fault (Option (List Text))
  | k, i, n =>
    match term mem type width i n with
    | none => .ok none
    | some t =>
      match k with
      | 0 => .ok (some [t])
      | k + 1 =>
        if IsIntmax (n + incr) then
          (mkseqLoop incr type width k (i + 1) (n + incr)).map (Option.map (t :: ·))
        else .error .overflow

/-- `mkseq`. -/
def mkseq (start stop incr : Int) (type : SeqType) (width : Nat) :
    Except Fault (Option (List Text)) :=
  let incr := if incr = 0 then 1 else incr
  match if incr < 0 then ckdSub 0 incr else some incr with
  | none => .ok none
  | some absIncr =>
    match if decide (start < stop) = decide (incr < 0) then ckdSub 0 incr else some incr with
    | none => .ok none
    | some incr =>
      match if start < stop then ckdSub stop start else ckdSub start stop with
      | none => .ok none
      | some prevn =>
        match ckdAddSize (prevn.tdiv absIncr) 2 with
        | none => .ok none
        | some nelem =>
          if mem.vector nelem then mkseqLoop mem incr type width (nelem - 2) 0 start else .ok none

/-- What is in front of and behind `BRACE_SEQ_SPECIFIER`. -/
def splitSpecifier : Text → Option (Text × Text)
  | [] => none
  | c :: s =>
    if c = 0x2e ∧ s.head? = some 0x2e then some ([], s.tail)
    else (splitSpecifier s).map fun r => (c :: r.1, r.2)

/-- Does an integer begin here? -/
def startsInteger (s : Text) : Bool :=
  match s with
  | [] => false
  | c :: s => isDigit c || ((c == 0x2b || c == 0x2d) && s.head?.any isDigit)

/-- The right hand side up to the increment: its type, its value and what follows. -/
def rhsTerm (rhs : Text) : SeqType × Int × Text :=
  if startsInteger rhs then
    match strtoimax rhs with
    | none => (.bad, 0, rhs)
    | some (tr, ep) => if ep = [] ∨ ep.head? = some 0x2e then (.int, tr, ep) else (.bad, tr, ep)
  else
    match rhs with
    | [] => (.bad, 0, [])
    | c :: ep =>
      if isalpha c ∧ (ep = [] ∨ ep.head? = some 0x2e) then (.char, 0, ep) else (.bad, 0, [])

/-- The increment, if the rest `ep` of the right hand side is one or is empty. -/
def increment (ep : Text) : Option Int :=
  match ep with
  | 0x2e :: 0x2e :: c :: s =>
    match strtoimax (c :: s) with
    | some (incr, []) => some incr
    | _ => none
  | [] => some 1
  | _ => none

/-- The type of the terms, and the width to which they are padded. -/
def padding (lhs rhs : Text) (lhsL rhsL : Nat) : SeqType × Nat :=
  let type := SeqType.int
  let width := 0
  let (type, width) :=
    if 1 < lhsL ∧ lhs[0]? = some 0x30 then (SeqType.zint, lhsL) else (type, width)
  let (type, width) :=
    if 2 < lhsL ∧ lhs[0]? = some 0x2d ∧ lhs[1]? = some 0x30 then (SeqType.zint, lhsL)
    else (type, width)
  let (type, width) :=
    if 1 < rhsL ∧ rhs[0]? = some 0x30 ∧ width < rhsL then (SeqType.zint, rhsL) else (type, width)
  let (type, width) :=
    if 2 < rhsL ∧ rhs[0]? = some 0x2d ∧ rhs[1]? = some 0x30 ∧ width < rhsL then
      (SeqType.zint, rhsL)
    else (type, width)
  let width := if width < lhsL ∧ type = .zint then lhsL else width
  let width := if width < rhsL ∧ type = .zint then rhsL else width
  (type, width)

/-- `expand_seqterm`. -/
def expandSeqterm (text : Text) : Except Fault (Option (List Text)) :=
  match splitSpecifier text with
  | none => .ok none
  | some (lhs, rhs) =>
    if lhs = [] ∨ rhs = [] then .ok none
    else
      let (lhsT, tl) :=
        match validNumber lhs with
        | some tl => (SeqType.int, tl)
        | none => if lhs.head?.any isalpha ∧ lhs.length = 1 then (SeqType.char, 0) else (.bad, 0)
      let (rhsT, tr, ep) := rhsTerm isalpha rhs
      match if rhsT = .bad then none else increment ep with
      | none => .ok none
      | some incr =>
        -- `tlen` without the increment
        let tlen := text.length - ep.length
        if lhsT ≠ rhsT ∨ lhsT = .bad then .ok none
        else if lhsT = .char then
          mkseq mem (lhs.headD 0).toNat (rhs.headD 0).toNat incr .char 1
        else
          let (type, width) := padding lhs rhs lhs.length (tlen - lhs.length - 2)
          mkseq mem tl tr incr type width

end Basht.Braces
