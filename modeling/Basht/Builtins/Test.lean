import Mathlib.Data.List.Basic

/-!
# The command `test` (`test.c`)

The position in the argument vector is passed along. A small number of arguments is tested by
their number (`posixtest`), anything else by a parser for the operators, and from level 53 on
the parser asks `posixtest` again for what stands in parentheses. The recursion is bounded by
`fuel`; a read behind the terminating null pointer is `Stop.fault`.
-/

namespace Basht.Test

/-- An argument. -/
abbrev Arg := List UInt8

/-- Where a test ends without a value: with an error that is reported, with a bad read, or without
fuel. -/
inductive Stop where
  | syntaxError (format : String) (arg : Option Arg)
  | integerExpected (pch : Arg)
  | fault
  | fuel
deriving DecidableEq

/-- What tests read besides their arguments. -/
structure Env where
  shellCompatibilityLevel : Nat
  posixlyCorrect : Bool
  /-- `valid_number` succeeds. -/
  validNumber : Arg → Bool
  /-- `unary_test` for the operators other than `-n` and `-z`. -/
  unary : UInt8 → Arg → Except Stop Bool
  /-- `strcoll` or `strcmp`; the flag is `TEST_LOCALE`. -/
  collate : Bool → Arg → Arg → Int
  /-- `binary_test` for the operators on files and integers. -/
  binary : Arg → Arg → Arg → Except Stop Bool

/-! ## Arguments with a meaning -/

/-- `!` -/
def bang : Arg := [0x21]

/-- `(` -/
def lparen : Arg := [0x28]

/-- `)` -/
def rparen : Arg := [0x29]

/-- `-a` -/
def dashA : Arg := [0x2d, 0x61]

/-- `-o` -/
def dashO : Arg := [0x2d, 0x6f]

/-- `-n` -/
def dashN : Arg := [0x2d, 0x6e]

/-- `-z` -/
def dashZ : Arg := [0x2d, 0x7a]

/-- `=` -/
def eqSign : Arg := [0x3d]

/-- `!=` -/
def neSign : Arg := [0x21, 0x3d]

/-- `ANDOR`. -/
def andor (s : Arg) : Bool := s == dashA || s == dashO

/-- `ONE_ARG_TEST`. -/
def oneArgTest (s : Arg) : Bool := s != []

/-- `test_binop`. -/
def testBinop : Arg → Bool
  | [c] => c ∈ "=<>".toList.map Char.toUInt8
  | [c, d] => (c == 0x3d || c == 0x21) && d == 0x3d
  | [c, d, e] =>
    c == 0x2d &&
      if e = 0x74 then d ∈ "nolg".toList.map Char.toUInt8
      else if d = 0x65 then e ∈ "qf".toList.map Char.toUInt8
      else if e = 0x65 then d ∈ "ngl".toList.map Char.toUInt8
      else false
  | _ => false

/-- `test_unop`. -/
def testUnop : Arg → Bool
  | [c, d] => c == 0x2d && d ∈ "abcdefghknoprstuvwxzGLOSNR".toList.map Char.toUInt8
  | _ => false

variable (env : Env) (argv : List Arg) (argc : Nat)

/-- `argv[i]`, which is read. -/
def arg (i : Nat) : Except Stop Arg :=
  match argv[i]? with
  | some s => .ok s
  | none => .error .fault

/-- The arguments from `pos` on. -/
def behind (pos : Nat) : List Arg := (argv.take argc).drop pos

/-- `beyond`. -/
def beyond {α : Type} : Except Stop α := .error (.syntaxError "argument expected" none)

/-- `advance (1)`. -/
def advance (pos : Nat) : Except Stop Nat :=
  if argc ≤ pos + 1 then beyond else .ok (pos + 1)

/-! ## Operators -/

/-- A value, and the position behind it. -/
abbrev Value := Bool × Nat

/-- `unary_test`. -/
def unaryTest (op a : Arg) : Except Stop Bool :=
  if op = dashN then .ok (a != [])
  else if op = dashZ then .ok (a == [])
  else env.unary (op.getD 1 0) a

/-- `unary_operator`. -/
def unaryOperator (pos : Nat) : Except Stop Value := do
  let op ← arg argv pos
  if testUnop op = false then .ok (false, pos)
  else if env.posixlyCorrect = false ∧ op.getD 1 0 = 0x74 then
    if pos + 1 < argc then do
      let a ← arg argv (pos + 1)
      if env.validNumber a then do
        let v ← unaryTest env op a
        .ok (v, pos + 2)
      else if 5 ≤ argc ∧ andor a then do
        let v ← unaryTest env op [0x31]
        .ok (v, pos + 1)
      else .error (.integerExpected a)
    else do
      let v ← unaryTest env op [0x31]
      .ok (v, pos + 1)
  else do
    let pos ← advance argc pos
    let a ← arg argv pos
    let v ← unaryTest env op a
    .ok (v, pos + 1)

/-- `binary_test`, without patterns and arithmetic evaluation. -/
def binaryTest (op a b : Arg) (locale : Bool) : Except Stop Bool :=
  if op = eqSign ∨ op = [0x3d, 0x3d] then .ok (a == b)
  else if op = [0x3e] then .ok (decide (0 < env.collate locale a b))
  else if op = [0x3c] then .ok (decide (env.collate locale a b < 0))
  else if op = neSign then .ok (a != b)
  else env.binary op a b

/-- `binary_operator`. -/
def binaryOperator (pos : Nat) : Except Stop Value := do
  let w ← arg argv (pos + 1)
  let a ← arg argv pos
  let b ← arg argv (pos + 2)
  if w ∈ [eqSign, [0x3d, 0x3d], [0x3e], [0x3c], neSign] then do
    let v ← binaryTest env w a b env.posixlyCorrect
    .ok (v, pos + 3)
  else if testBinop w = false then
    .error (.syntaxError "%s: binary operator expected" (some w))
  else do
    let v ← binaryTest env w a b false
    .ok (v, pos + 3)

/-! ## By the number of arguments -/

/-- `two_arguments`. -/
def twoArguments (pos : Nat) : Except Stop Value := do
  let s ← arg argv pos
  if s = bang then do
    let a ← arg argv (pos + 1)
    .ok (a == [], pos + 2)
  else if testUnop s then unaryOperator env argv argc pos
  else .error (.syntaxError "%s: unary operator expected" (some s))

/-- `three_arguments`. -/
def threeArguments (pos : Nat) : Except Stop Value := do
  let op ← arg argv (pos + 1)
  let a ← arg argv pos
  if testBinop op then binaryOperator env argv pos
  else do
    let b ← arg argv (pos + 2)
    if op = dashA then .ok (oneArgTest a && oneArgTest b, pos + 3)
    else if op = dashO then .ok (oneArgTest a || oneArgTest b, pos + 3)
    else if a = bang then do
      let pos ← advance argc pos
      let r ← twoArguments env argv argc pos
      .ok (!r.1, r.2)
    else if a = lparen ∧ b = rparen then .ok (oneArgTest op, pos + 3)
    else .error (.syntaxError "%s: binary operator expected" (some op))

/-! ## The parser -/

/-- The leading `!`s, read from `pos` on. -/
def nots (value : Bool) (pos : Nat) : List Arg → Except Stop Value
  | [] => .ok (value, pos)
  | s :: rest =>
    if s = bang then
      if rest = [] then beyond else nots (!value) (pos + 1) rest
    else .ok (value, pos)

/-- The number of arguments up to the parenthesis that closes the first of `count`. -/
def closing (count nargs : Nat) : List Arg → Nat
  | [] => nargs
  | s :: rest =>
    let count := if s = rparen then count - 1 else if s = lparen then count + 1 else count
    if count = 0 then nargs else closing count (nargs + 1) rest

/-- The parenthesis behind a value. -/
def closeParen (r : Value) : Except Stop Value :=
  if r.2 = argv.length then .error (.syntaxError "\x60)' expected" none)
  else do
    let s ← arg argv r.2
    if s = rparen then .ok (r.1, r.2 + 1)
    else .error (.syntaxError "\x60)' expected, found %s" (some s))

mutual

/-- `expr`. -/
def expr : Nat → Nat → Except Stop Value
  | 0, _ => .error .fuel
  | n + 1, pos => if argc ≤ pos then beyond else or n pos
termination_by structural n => n

/-- `or`. -/
def or : Nat → Nat → Except Stop Value
  | 0, _ => .error .fuel
  | n + 1, pos => do
    let r ← and n pos
    if r.2 < argc ∧ argv[r.2]? = some dashO then do
      let r₂ ← or n (r.2 + 1)
      .ok (r.1 || r₂.1, r₂.2)
    else .ok r
termination_by structural n => n

/-- `and`. -/
def and : Nat → Nat → Except Stop Value
  | 0, _ => .error .fuel
  | n + 1, pos => do
    let r ← term n pos
    if r.2 < argc ∧ argv[r.2]? = some dashA then do
      let r₂ ← and n (r.2 + 1)
      .ok (r.1 && r₂.1, r₂.2)
    else .ok r
termination_by structural n => n

/-- `term`. -/
def term : Nat → Nat → Except Stop Value
  | 0, _ => .error .fuel
  | n + 1, pos =>
    if argc ≤ pos then beyond
    else do
      let s ← arg argv pos
      if s = bang then do
        let r ← nots false pos (behind argv argc pos)
        let r₂ ← term n r.2
        .ok (if r.1 then !r₂.1 else r₂.1, r₂.2)
      else if s = lparen then do
        let pos ← advance argc pos
        -- the scan starts behind the first argument in the parentheses
        let nargs := closing 1 1 (behind argv argc (pos + 1))
        (if 52 < env.shellCompatibilityLevel ∧ pos + nargs < argc ∧ nargs ≤ 4 then
          posixtest n nargs pos
        else expr n pos) >>= closeParen argv
      else if pos + 3 ≤ argc ∧ argv[pos + 1]?.any testBinop then binaryOperator env argv pos
      else if pos + 2 ≤ argc ∧ testUnop s then unaryOperator env argv argc pos
      else .ok (oneArgTest s, pos + 1)
termination_by structural n => n

/-- `posixtest`. -/
def posixtest : Nat → Nat → Nat → Except Stop Value
  | 0, _, _ => .error .fuel
  | n + 1, nargs, pos =>
    if nargs = 0 then .ok (false, pos)
    else if nargs = 1 then do
      -- the first argument of the whole vector
      let s ← arg argv 1
      .ok (oneArgTest s, pos + 1)
    else if nargs = 2 then twoArguments env argv argc pos
    else if nargs = 3 then threeArguments env argv argc pos
    else if nargs = 4 ∧ argv[pos]? = some bang then do
      let pos ← advance argc pos
      let r ← threeArguments env argv argc pos
      .ok (!r.1, r.2)
    else if nargs = 4 ∧ argv[pos]? = some lparen ∧ argv[pos + 3]? = some rparen then do
      let pos ← advance argc pos
      let r ← twoArguments env argv argc pos
      .ok (r.1, r.2 + 1)
    else expr n pos
termination_by structural n => n

end

/-- `test_command`: the exit status; where it ends with an error that is reported, the status is
`TEST_ERREXIT_STATUS`. -/
def testCommand (fuel : Nat) (margv : List Arg) : Except Stop Nat :=
  let bracket := margv.head? = some [0x5b]
  let argc := if bracket then margv.length - 1 else margv.length
  if bracket ∧ margv[argc]? ≠ some [0x5d] then .error (.syntaxError "missing \x60]'" none)
  else if argc ≤ 1 then .ok 1
  else do
    let r ← posixtest env margv argc fuel (argc - 1) 1
    if r.2 ≠ argc then
      if r.2 < argc ∧ (margv[r.2]?.bind List.head?) = some 0x2d then
        .error (.syntaxError "syntax error: \x60%s' unexpected" margv[r.2]?)
      else .error (.syntaxError "too many arguments" none)
    else .ok (if r.1 then 0 else 1)

end Basht.Test
