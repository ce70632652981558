import Basht.Expr.Evaluator

/-!
# Expression trees over constants

The value of a tree is computed in 64-bit arithmetic (`Tree.eval`), and a tree is written with
parentheses where the table of operators at the head of `expr.c` needs them, or more
(`Prints`; `Tree.print` writes no more than needed). Between the tokens of a text stands white
space, or nothing (`Spaced`).
-/

namespace Basht.Expr

/-! ## Operators -/

inductive UnOp where
  | minus
  | plus
  | not
  | compl
deriving DecidableEq

inductive BinOp where
  | pow
  | mul
  | div
  | mod
  | add
  | sub
  | shl
  | shr
  | le
  | ge
  | lt
  | gt
  | eq
  | ne
  | band
  | bxor
  | bor
  | land
  | lor
  | comma
deriving DecidableEq

def UnOp.token : UnOp → Token
  | .minus => .op 0x2d
  | .plus => .op 0x2b
  | .not => .op 0x21
  | .compl => .op 0x7e

def BinOp.token : BinOp → Token
  | .pow => .power
  | .mul => .op 0x2a
  | .div => .op 0x2f
  | .mod => .op 0x25
  | .add => .op 0x2b
  | .sub => .op 0x2d
  | .shl => .lsh
  | .shr => .rsh
  | .le => .leq
  | .ge => .geq
  | .lt => .op 0x3c
  | .gt => .op 0x3e
  | .eq => .eqeq
  | .ne => .neq
  | .band => .op 0x26
  | .bxor => .op 0x5e
  | .bor => .op 0x7c
  | .land => .land
  | .lor => .lor
  | .comma => .op 0x2c

/-- The groups of the table, from the comma up; assignments are in group 1, the conditional operator
is in group 2, the unary operators are in group 14. -/
def BinOp.prec : BinOp → Nat
  | .comma => 0
  | .lor => 3
  | .land => 4
  | .bor => 5
  | .bxor => 6
  | .band => 7
  | .eq | .ne => 8
  | .le | .ge | .lt | .gt => 9
  | .shl | .shr => 10
  | .add | .sub => 11
  | .mul | .div | .mod => 12
  | .pow => 13

/-- The group of the operand on the left: but for `**`, operators associate to the left. -/
def BinOp.left : BinOp → Nat
  | .pow => 14
  | op => op.prec

def BinOp.right : BinOp → Nat
  | .pow => 13
  | op => op.prec + 1

/-! ## Values -/

/-- Why a tree has no value. -/
inductive Fault where
  | divisionByZero
  | negativeExponent
deriving DecidableEq

def UnOp.apply : UnOp → Int64 → Int64
  | .minus, v => -v
  | .plus, v => v
  | .not, v => truth (v == 0)
  | .compl, v => ~~~v

/-- The value of an operator whose operands are both evaluated. A shift count outside of `0` to
`63`, for which C defines nothing, is taken modulo `64`. -/
def BinOp.apply : BinOp → Int64 → Int64 → Except Fault Int64
  | .pow, v, w =>
    if w < 0 then .error .negativeExponent else .ok (Int64.ofInt (v.toInt ^ w.toInt.toNat))
  | .mul, v, w => .ok (v * w)
  | .div, v, w => if w = 0 then .error .divisionByZero else .ok (v / w)
  | .mod, v, w => if w = 0 then .error .divisionByZero else .ok (v % w)
  | .add, v, w => .ok (v + w)
  | .sub, v, w => .ok (v - w)
  | .shl, v, w => .ok (v <<< w)
  | .shr, v, w => .ok (v >>> w)
  | .le, v, w => .ok (truth (v ≤ w))
  | .ge, v, w => .ok (truth (v ≥ w))
  | .lt, v, w => .ok (truth (v < w))
  | .gt, v, w => .ok (truth (v > w))
  | .eq, v, w => .ok (truth (v == w))
  | .ne, v, w => .ok (truth (v != w))
  | .band, v, w => .ok (v &&& w)
  | .bxor, v, w => .ok (v ^^^ w)
  | .bor, v, w => .ok (v ||| w)
  | .land, v, w => .ok (truth (v != 0 && w != 0))
  | .lor, v, w => .ok (truth (v != 0 || w != 0))
  | .comma, _, w => .ok w

/-- The value of the left operand that decides a logical operator alone. -/
def BinOp.stops : BinOp → Int64 → Bool
  | .land, v => v == 0
  | .lor, v => v != 0
  | _, _ => false

variable (L : Locale)

/-- An integer constant in any notation that is read. -/
structure Constant where
  text : List UInt8
  val : Int64
  digit : text.head?.any fun c => decide (0x30 ≤ c ∧ c ≤ 0x39)
  token : ∀ c ∈ text, numberChar L c = true
  reads : strlong L.toCtype text = .ok val

inductive Tree where
  | const (c : Constant L)
  | unary (op : UnOp) (e : Tree)
  | binary (op : BinOp) (e e' : Tree)
  | cond (c e e' : Tree)

variable {L}

/-- The value of a tree, whose operands are evaluated from left to right, as far as they are. -/
def Tree.eval : Tree L → Except Fault Int64
  | .const c => .ok c.val
  | .unary op e => e.eval >>= fun v => .ok (op.apply v)
  | .binary op e e' => e.eval >>= fun v =>
    if op.stops v then op.apply v 0 else e'.eval >>= fun w => op.apply v w
  | .cond c e e' => c.eval >>= fun v => if v = 0 then e'.eval else e.eval

/-! ## Texts -/

/-- A constant, or what the other tokens are read as. -/
inductive Tok (L : Locale) where
  | const (c : Constant L)
  | op (t : Token)

/-- The text of an operator or parenthesis. -/
def Token.text : Token → List UInt8
  | .eqeq => [0x3d, 0x3d]
  | .neq => [0x21, 0x3d]
  | .leq => [0x3c, 0x3d]
  | .geq => [0x3e, 0x3d]
  | .land => [0x26, 0x26]
  | .lor => [0x7c, 0x7c]
  | .lsh => [0x3c, 0x3c]
  | .rsh => [0x3e, 0x3e]
  | .power => [0x2a, 0x2a]
  | .op c => [c]
  | .eof | .num | .opAssign | .cond | .preinc | .predec => []

def Tok.text : Tok L → List UInt8
  | .const c => c.text
  | .op t => t.text

/-- A tree as an operand of a group of the table: the tokens, with parentheses around operators of
groups below, and around anything else as one likes. -/
inductive Prints : Nat → Tree L → List (Tok L) → Prop
  | const {k : Nat} (c : Constant L) : Prints k (.const c) [.const c]
  | unary {k : Nat} {op : UnOp} {e : Tree L} {ts : List (Tok L)} (hk : k ≤ 14) :
    Prints 14 e ts → Prints k (.unary op e) (.op op.token :: ts)
  | binary {k : Nat} {op : BinOp} {e e' : Tree L} {ts ts' : List (Tok L)} (hk : k ≤ op.prec) :
    Prints op.left e ts → Prints op.right e' ts' →
      Prints k (.binary op e e') (ts ++ .op op.token :: ts')
  | cond {k : Nat} {c e e' : Tree L} {ts ts' ts'' : List (Tok L)} (hk : k ≤ 2) :
    Prints 3 c ts → Prints 0 e ts' → Prints 2 e' ts'' →
      Prints k (.cond c e e') (ts ++ .op (.op 0x3f) :: (ts' ++ .op (.op 0x3a) :: ts''))
  | paren {k : Nat} {e : Tree L} {ts : List (Tok L)} :
    Prints 0 e ts → Prints k e (.op (.op 0x28) :: (ts ++ [.op (.op 0x29)]))

/-- Parentheses around tokens, if they are needed. -/
def parens (b : Bool) (ts : List (Tok L)) : List (Tok L) :=
  if b then .op (.op 0x28) :: (ts ++ [.op (.op 0x29)]) else ts

/-- The tokens of a tree as an operand of group `k`, with the parentheses that are needed. -/
def Tree.print (k : Nat) : Tree L → List (Tok L)
  | .const c => [.const c]
  | .unary op e => parens (14 < k) (.op op.token :: e.print 14)
  | .binary op e e' =>
    parens (op.prec < k) (e.print op.left ++ .op op.token :: e'.print op.right)
  | .cond c e e' =>
    parens (2 < k)
      (c.print 3 ++ .op (.op 0x3f) :: (e.print 0 ++ .op (.op 0x3a) :: e'.print 2))

theorem prints_parens {k p : Nat} {e : Tree L} {ts : List (Tok L)}
    (h : ∀ {j}, j ≤ p → Prints j e ts) : Prints k e (parens (p < k) ts) := by
  by_cases hk : p < k
  · rw [parens, if_pos (decide_eq_true hk)]
    exact .paren (h (Nat.zero_le p))
  · rw [parens, if_neg (by rw [decide_eq_true_eq]; exact hk)]
    exact h (Nat.le_of_not_lt hk)

/-- Every tree is written with the parentheses that it needs. -/
theorem prints_print (e : Tree L) (k : Nat) : Prints k e (e.print k) := by
  induction e generalizing k with
  | const c => exact .const c
  | unary op e ih => exact prints_parens fun hj => .unary hj (ih 14)
  | binary op e e' ih ih' => exact prints_parens fun hj => .binary hj (ih _) (ih' _)
  | cond c e e' ih ih' ih'' => exact prints_parens fun hj => .cond hj (ih 3) (ih' 0) (ih'' 2)

/-- A text with the tokens `ts`, and white space. -/
inductive Spaced : List (Tok L) → List UInt8 → Prop
  | nil {ws : List UInt8} : (∀ c ∈ ws, crWhitespace c = true) → Spaced [] ws
  | cons {ws : List UInt8} {t : Tok L} {ts : List (Tok L)} {text : List UInt8} :
    (∀ c ∈ ws, crWhitespace c = true) → Spaced ts text → Spaced (t :: ts) (ws ++ t.text ++ text)

/-- No white space is needed. -/
theorem spaced_flatMap (ts : List (Tok L)) : Spaced ts (ts.flatMap Tok.text) := by
  have hnil : ∀ c ∈ ([] : List UInt8), crWhitespace c = true := fun c hc => by cases hc
  induction ts with
  | nil => exact .nil hnil
  | cons t ts ih => exact .cons hnil ih

end Basht.Expr
