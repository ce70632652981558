import Basht.Expr.Strlong

/-!
# Arithmetic expressions without names (`expr.c`)

The evaluator reads one token ahead and has a function for each level of precedence. The model
stops where a name is read as a token (`Stop.name`), so nothing is ever assigned; up to there it
follows the source. Its recursion is bounded by `fuel`.
-/

namespace Basht.Expr

/-- The classes of characters in the current locale. -/
structure Locale extends Ctype where
  isalpha : UInt8 → Bool
  alpha_ascii : ∀ c : UInt8, c < 0x80 → isalpha c =
    decide (0x61 ≤ c ∧ c ≤ 0x7a ∨ 0x41 ≤ c ∧ c ≤ 0x5a)

/-- The tokens; those of one character are the character. -/
inductive Token where
  | eof
  | eqeq
  | neq
  | leq
  | geq
  | num
  | land
  | lor
  | lsh
  | rsh
  | opAssign
  | cond
  | power
  | preinc
  | predec
  | op (c : UInt8)
deriving DecidableEq

/-- Where an evaluation ends: with an error, at a name, or without fuel. -/
inductive Stop where
  | evalerror (msg : String)
  | name
  | fuel
deriving DecidableEq

/-- The variables of the evaluator. -/
structure St where
  tp : List UInt8
  curtok : Token
  lasttok : Token
  tokval : Int64
  noeval : Nat

variable (L : Locale)

/-! ## Tokens -/

/-- `cr_whitespace`. -/
def crWhitespace (c : UInt8) : Bool := c == 0x20 || c == 0x09 || c == 0x0a

/-- `legal_variable_starter`. -/
def legalVariableStarter (c : UInt8) : Bool := L.isalpha c || c == 0x5f

/-- The characters of a number. -/
def numberChar (c : UInt8) : Bool := L.isalnum c || c == 0x23 || c == 0x40 || c == 0x5f

/-- `is_arithop`. -/
def isArithop : Token → Bool
  | .op c => c ∈ "=><+-*/%!()&|^~?:,".toList.map Char.toUInt8
  | _ => false

/-- `is_multiop`. -/
def isMultiop : Token → Bool
  | .eqeq | .neq | .leq | .geq | .land | .lor | .lsh | .rsh | .opAssign | .cond | .power
  | .preinc | .predec => true
  | .eof | .num | .op _ => false

/-- The operator that starts with `c`, and what is behind it. -/
def operator (curtok lasttok : Token) (c : UInt8) (rest : List UInt8) :
    Except Stop (Token × List UInt8) :=
  let c1 := rest.headD 0
  let cp := rest.tail
  if c = 0x3d ∧ c1 = 0x3d then .ok (.eqeq, cp)
  else if c = 0x21 ∧ c1 = 0x3d then .ok (.neq, cp)
  else if c = 0x3e ∧ c1 = 0x3d then .ok (.geq, cp)
  else if c = 0x3c ∧ c1 = 0x3d then .ok (.leq, cp)
  else if c = 0x3c ∧ c1 = 0x3c then
    if cp.head? = some 0x3d then .ok (.opAssign, cp.tail) else .ok (.lsh, cp)
  else if c = 0x3e ∧ c1 = 0x3e then
    if cp.head? = some 0x3d then .ok (.opAssign, cp.tail) else .ok (.rsh, cp)
  else if c = 0x26 ∧ c1 = 0x26 then .ok (.land, cp)
  else if c = 0x7c ∧ c1 = 0x7c then .ok (.lor, cp)
  else if c = 0x2a ∧ c1 = 0x2a then .ok (.power, cp)
  else if (c = 0x2d ∨ c = 0x2b) ∧ c1 = c ∧ curtok = .num ∧
      (lasttok = .preinc ∨ lasttok = .predec) then
    if c = 0x2d then .error (.evalerror "--: assignment requires lvalue")
    else .error (.evalerror "++: assignment requires lvalue")
  else if (c = 0x2d ∨ c = 0x2b) ∧ c1 = c then
    if (cp.dropWhile crWhitespace).head?.any (legalVariableStarter L) then
      .ok (if c = 0x2d then .predec else .preinc, cp)
    else .ok (.op c, rest)
  else if c1 = 0x3d ∧ c ∈ "*/%+-&^|".toList.map Char.toUInt8 then .ok (.opAssign, cp)
  else if isArithop (.op c) = false then
    if curtok = .eof ∨ isArithop curtok ∨ isMultiop curtok then
      .error (.evalerror "arithmetic syntax error: operand expected")
    else .error (.evalerror "arithmetic syntax error: invalid arithmetic operator")
  else .ok (.op c, rest)

/-- `readtok`. -/
def readtok (st : St) : Except Stop St :=
  match st.tp.dropWhile crWhitespace with
  | [] => .ok { st with tp := [], lasttok := st.curtok, curtok := .eof }
  | c :: rest =>
    if legalVariableStarter L c then .error .name
    else if 0x30 ≤ c ∧ c ≤ 0x39 then
      match strlong L.toCtype ((c :: rest).takeWhile (numberChar L)) with
      | .error msg => .error (.evalerror msg)
      | .ok v =>
        .ok { st with
          tp := (c :: rest).dropWhile (numberChar L)
          tokval := v
          lasttok := st.curtok
          curtok := .num }
    else
      match operator L st.curtok st.lasttok c rest with
      | .error e => .error e
      | .ok (tok, tp) => .ok { st with tp := tp, lasttok := st.curtok, curtok := tok }

/-! ## Levels of precedence -/

/-- The value of an operand, and the variables behind it. -/
abbrev Value := Int64 × St

/-- `1` or `0`. -/
def truth (b : Bool) : Int64 := if b then 1 else 0

/-- A level of binary operators that associate to the left: `apply` says what an operator makes of
the operands, and the level of the operands is `next`. -/
def leftLoop (next : St → Except Stop Value) (apply : Token → Option (Int64 → Int64 → Int64)) :
    Nat → Value → Except Stop Value
  | 0, _ => .error .fuel
  | n + 1, (val1, st) =>
    match apply st.curtok with
    | none => .ok (val1, st)
    | some f => do
      let st ← readtok L st
      let r ← next st
      leftLoop next apply n (f val1 r.1, { r.2 with lasttok := .num })

def leftLevel (n : Nat) (next : St → Except Stop Value)
    (apply : Token → Option (Int64 → Int64 → Int64)) (st : St) : Except Stop Value :=
  next st >>= leftLoop L next apply n

/-- `exp0`; `lowest` is `EXP_LOWEST`. -/
def exp0 (lowest : St → Except Stop Value) (st : St) : Except Stop Value :=
  if st.curtok = .preinc ∨ st.curtok = .predec then do
    -- what follows these tokens is a name
    let _ ← readtok L { st with lasttok := st.curtok }
    .error (.evalerror "identifier expected after pre-increment or pre-decrement")
  else if st.curtok = .op 0x28 then do
    let st ← readtok L st
    let r ← lowest st
    if r.2.curtok ≠ .op 0x29 then .error (.evalerror "missing \x60)'")
    else do
      let st ← readtok L r.2
      .ok (r.1, st)
  else if st.curtok = .num then do
    let st' ← readtok L st
    .ok (st.tokval, st')
  else .error (.evalerror "arithmetic syntax error: operand expected")

/-- The unary operators. -/
def unaryOp : Token → Option (Int64 → Int64)
  | .op c =>
    if c = 0x21 then some fun v => truth (v == 0)
    else if c = 0x7e then some fun v => ~~~v
    else if c = 0x2d then some fun v => -v
    else if c = 0x2b then some fun v => v
    else none
  | _ => none

/-- `expunary`. -/
def expunary (lowest : St → Except Stop Value) : Nat → St → Except Stop Value
  | 0, _ => .error .fuel
  | n + 1, st =>
    match unaryOp st.curtok with
    | some f => do
      let st ← readtok L st
      let r ← expunary lowest n st
      .ok (f r.1, { r.2 with lasttok := .num })
    | none => exp0 L lowest st

/-- `ipow`; the exponent is not negative. -/
def ipow : Nat → Int64 → Int64 → Int64 → Int64
  | 0, _, _, result => result
  | n + 1, base, exp, result =>
    if exp = 0 then result
    else ipow n (base * base) (exp >>> 1) (if exp &&& 1 = 0 then result else result * base)

/-- The loop of `exppower`; `self` is the function for what is behind the operator. -/
def powerLoop (self : St → Except Stop Value) : Nat → Value → Except Stop Value
  | 0, _ => .error .fuel
  | n + 1, (val1, st) =>
    if st.curtok = .power then do
      let st ← readtok L st
      let r ← self st
      let st := { r.2 with lasttok := .num }
      if st.noeval = 0 then
        if r.1 = 0 then .ok (1, st)
        else if r.1 < 0 then .error (.evalerror "exponent less than 0")
        else powerLoop self n (ipow 64 val1 r.1 1, st)
      else powerLoop self n (1, st)
    else .ok (val1, st)

/-- `exppower`. -/
def exppower (lowest : St → Except Stop Value) : Nat → St → Except Stop Value
  | 0, _ => .error .fuel
  | n + 1, st => expunary L lowest (n + 1) st >>= powerLoop L (exppower lowest n) (n + 1)

/-- The smallest value, which divided by `-1` overflows. -/
def intmaxMin : Int64 := Int64.minValue

/-- The loop of `expmuldiv`. -/
def muldivLoop (next : St → Except Stop Value) : Nat → Value → Except Stop Value
  | 0, _ => .error .fuel
  | n + 1, (val1, st) =>
    if st.curtok = .op 0x2a ∨ st.curtok = .op 0x2f ∨ st.curtok = .op 0x25 then do
      let op := st.curtok
      let st ← readtok L st
      let r ← next st
      if (op = .op 0x2f ∨ op = .op 0x25) ∧ r.1 = 0 ∧ r.2.noeval = 0 then
        .error (.evalerror "division by 0")
      else if op = .op 0x25 ∧ val1 = intmaxMin ∧ r.1 = -1 then
        -- `continue`, with `lasttok` as it is
        muldivLoop next n (0, r.2)
      else
        let val2 :=
          if (op = .op 0x2f ∨ op = .op 0x25) ∧ r.1 = 0 then 1
          else if op = .op 0x2f ∧ val1 = intmaxMin ∧ r.1 = -1 then 1
          else r.1
        let val :=
          if op = .op 0x2a then val1 * val2
          else if op = .op 0x2f then val1 / val2
          else val1 % val2
        muldivLoop next n (val, { r.2 with lasttok := .num })
    else .ok (val1, st)

/-- `expmuldiv`. -/
def expmuldiv (lowest : St → Except Stop Value) (n : Nat) (st : St) : Except Stop Value :=
  exppower L lowest n st >>= muldivLoop L (exppower L lowest n) n

/-- `expaddsub`. -/
def expaddsub (lowest : St → Except Stop Value) (n : Nat) : St → Except Stop Value :=
  leftLevel L n (expmuldiv L lowest n) fun tok =>
    if tok = .op 0x2b then some fun v w => v + w
    else if tok = .op 0x2d then some fun v w => v - w
    else none

/-- `expshift`. -/
def expshift (lowest : St → Except Stop Value) (n : Nat) : St → Except Stop Value :=
  leftLevel L n (expaddsub L lowest n) fun tok =>
    if tok = .lsh then some fun v w => v <<< w
    else if tok = .rsh then some fun v w => v >>> w
    else none

/-- `expcompare`. -/
def expcompare (lowest : St → Except Stop Value) (n : Nat) : St → Except Stop Value :=
  leftLevel L n (expshift L lowest n) fun tok =>
    if tok = .leq then some fun v w => truth (v ≤ w)
    else if tok = .geq then some fun v w => truth (v ≥ w)
    else if tok = .op 0x3c then some fun v w => truth (v < w)
    else if tok = .op 0x3e then some fun v w => truth (v > w)
    else none

/-- `expeq`. -/
def expeq (lowest : St → Except Stop Value) (n : Nat) : St → Except Stop Value :=
  leftLevel L n (expcompare L lowest n) fun tok =>
    if tok = .eqeq then some fun v w => truth (v == w)
    else if tok = .neq then some fun v w => truth (v != w)
    else none

/-- `expband`. -/
def expband (lowest : St → Except Stop Value) (n : Nat) : St → Except Stop Value :=
  leftLevel L n (expeq L lowest n) fun tok =>
    if tok = .op 0x26 then some fun v w => v &&& w else none

/-- `expbxor`. -/
def expbxor (lowest : St → Except Stop Value) (n : Nat) : St → Except Stop Value :=
  leftLevel L n (expband L lowest n) fun tok =>
    if tok = .op 0x5e then some fun v w => v ^^^ w else none

/-- `expbor`. -/
def expbor (lowest : St → Except Stop Value) (n : Nat) : St → Except Stop Value :=
  leftLevel L n (expbxor L lowest n) fun tok =>
    if tok = .op 0x7c then some fun v w => v ||| w else none

/-- The loops of `expland` and `explor`: `stops` says with which left operand the right one is not
evaluated. -/
def logicalLoop (next : St → Except Stop Value) (tok : Token) (stops : Int64 → Bool)
    (apply : Int64 → Int64 → Bool) : Nat → Value → Except Stop Value
  | 0, _ => .error .fuel
  | n + 1, (val1, st) =>
    if st.curtok = tok then do
      let k := if stops val1 then 1 else 0
      let st ← readtok L { st with noeval := st.noeval + k }
      let r ← next st
      logicalLoop next tok stops apply n
        (truth (apply val1 r.1), { r.2 with noeval := r.2.noeval - k, lasttok := tok })
    else .ok (val1, st)

/-- `expland`. -/
def expland (lowest : St → Except Stop Value) (n : Nat) (st : St) : Except Stop Value :=
  expbor L lowest n st >>= logicalLoop L (expbor L lowest n) .land (fun v => v == 0)
    (fun v w => v != 0 && w != 0) n

/-- `explor`. -/
def explor (lowest : St → Except Stop Value) (n : Nat) (st : St) : Except Stop Value :=
  expland L lowest n st >>= logicalLoop L (expland L lowest n) .lor (fun v => v != 0)
    (fun v w => v != 0 || w != 0) n

/-- `expcond`. -/
def expcond (lowest : St → Except Stop Value) : Nat → St → Except Stop Value
  | 0, _ => .error .fuel
  | n + 1, st => do
    let c ← explor L lowest (n + 1) st
    if c.2.curtok ≠ .op 0x3f then .ok c
    else do
      let k := if c.1 = 0 then 1 else 0
      let st ← readtok L { c.2 with noeval := c.2.noeval + k }
      if st.curtok = .eof ∨ st.curtok = .op 0x3a then .error (.evalerror "expression expected")
      else do
        let r ← lowest st
        if r.2.curtok ≠ .op 0x3a then
          .error (.evalerror "\x60:' expected for conditional expression")
        else do
          let k' := if c.1 = 0 then 0 else 1
          let st ← readtok L { r.2 with noeval := r.2.noeval - k + k' }
          if st.curtok = .eof then .error (.evalerror "expression expected")
          else do
            let r' ← expcond lowest n st
            .ok (if c.1 = 0 then r'.1 else r.1,
              { r'.2 with noeval := r'.2.noeval - k', lasttok := .cond })

/-- `expassign`, where the operand on the left is never a name. -/
def expassign (lowest : St → Except Stop Value) (n : Nat) (st : St) : Except Stop Value := do
  let r ← expcond L lowest n st
  if r.2.curtok = .op 0x3d ∨ r.2.curtok = .opAssign then
    .error (.evalerror "attempted assignment to non-variable")
  else .ok r

/-- The loop of `expcomma`. -/
def commaLoop (next : St → Except Stop Value) : Nat → Value → Except Stop Value
  | 0, _ => .error .fuel
  | n + 1, (val, st) =>
    if st.curtok = .op 0x2c then readtok L st >>= fun st => next st >>= commaLoop next n
    else .ok (val, st)

/-- `expcomma`, which is `EXP_LOWEST`. -/
def expcomma : Nat → St → Except Stop Value
  | 0, _ => .error .fuel
  | n + 1, st =>
    expassign L (expcomma n) (n + 1) st >>= commaLoop L (expassign L (expcomma n) (n + 1)) (n + 1)

/-- `subexpr`. -/
def subexpr (fuel : Nat) (expr : List UInt8) : Except Stop Int64 :=
  if expr.dropWhile crWhitespace = [] then .ok 0
  else do
    let st ← readtok L ⟨expr, .eof, .eof, 0, 0⟩
    let r ← expcomma L fuel st
    if r.2.curtok ≠ .eof then .error (.evalerror "arithmetic syntax error in expression")
    else .ok r.1

/-- `evalexp`: the value, or the message of the error, for which it returns zero and stores zero
through `validp`. -/
def evalexp (fuel : Nat) (expr : List UInt8) : Except Stop Int64 := subexpr L fuel expr

end Basht.Expr
