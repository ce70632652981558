import Basht.Builtins.Test
import Basht.Library.Fallible

/-!
# `test` on written trees

A tree of strings with `!`, `-a` and `-o` is written with parentheses wherever the precedence of
the operators needs them (`Written`), or more. The parser is followed level by level
(`Written.Runs`): a level hands on what the operators behind it make of the rest. `posixtest` on
the contents of parentheses differs from the parser in one form (`Written.content`).
-/

namespace Basht.Test

open Fallible

/-! ## Trees and how they are written -/

inductive Tree where
  | str (s : Arg)
  | n (s : Arg)
  | z (s : Arg)
  | eq (s t : Arg)
  | ne (s t : Arg)
  | not (e : Tree)
  | and (e e' : Tree)
  | or (e e' : Tree)
deriving DecidableEq

def Tree.value : Tree → Bool
  | .str s => s != []
  | .n s => s != []
  | .z s => s == []
  | .eq s t => s == t
  | .ne s t => s != t
  | .not e => !e.value
  | .and e e' => e.value && e'.value
  | .or e e' => e.value || e'.value

/-- An `-a` or `-o` is at the top. -/
def Tree.AndOr : Tree → Prop
  | .and _ _ | .or _ _ => True
  | _ => False

/-- A string that is no operator, `!` or parenthesis. -/
structure Operand where
  s : Arg
  unop : testUnop s = false
  binop : testBinop s = false
  bang : s ≠ bang
  lparen : s ≠ lparen
  rparen : s ≠ rparen

inductive Level where
  | term
  | and
  | or

/-- A tree with the parentheses it is written with, by the level of its operator. -/
inductive Written : Level → Type where
  | str (s : Operand) : Written .term
  | n (s : Operand) : Written .term
  | z (s : Operand) : Written .term
  | eq (s t : Operand) : Written .term
  | ne (s t : Operand) : Written .term
  | not (w : Written .term) : Written .term
  | group (w : Written .or) : Written .term
  | ofTerm (w : Written .term) : Written .and
  | and (w w' : Written .and) : Written .and
  | ofAnd (w : Written .and) : Written .or
  | or (w w' : Written .or) : Written .or

/-! ## The scan for the closing parenthesis -/

attribute [simp] closing

theorem closing_cons {s : Arg} (hl : s ≠ lparen) (hr : s ≠ rparen) {count : Nat}
    (hcount : 0 < count) (nargs : Nat) (rest : List Arg) :
    closing count nargs (s :: rest) = closing count (nargs + 1) rest := by
  rw [closing, if_neg hr, if_neg hl]
  exact if_neg (Nat.ne_of_gt hcount)

theorem closing_lparen (count nargs : Nat) (rest : List Arg) :
    closing count nargs (lparen :: rest) = closing (count + 1) (nargs + 1) rest := by
  have hne : lparen ≠ rparen := by decide
  rw [closing, if_neg hne, if_pos rfl]
  exact if_neg (Nat.succ_ne_zero count)

theorem closing_rparen {count : Nat} (hcount : 0 < count) (nargs : Nat) (rest : List Arg) :
    closing (count + 1) nargs (rparen :: rest) = closing count (nargs + 1) rest := by
  rw [closing, if_pos rfl]
  exact if_neg (Nat.ne_of_gt hcount)

theorem closing_one (nargs : Nat) (rest : List Arg) :
    closing 1 nargs (rparen :: rest) = nargs := by
  rw [closing, if_pos rfl]
  exact if_pos rfl

namespace Written

variable {l : Level}

@[simp]
def args : {l : Level} → Written l → List Arg
  | _, .str s => [s.s]
  | _, .n s => [dashN, s.s]
  | _, .z s => [dashZ, s.s]
  | _, .eq s t => [s.s, eqSign, t.s]
  | _, .ne s t => [s.s, neSign, t.s]
  | _, .not w => Test.bang :: w.args
  | _, .group w => Test.lparen :: (w.args ++ [Test.rparen])
  | _, .ofTerm w => w.args
  | _, .and w w' => w.args ++ dashA :: w'.args
  | _, .ofAnd w => w.args
  | _, .or w w' => w.args ++ dashO :: w'.args

def tree : {l : Level} → Written l → Tree
  | _, .str s => .str s.s
  | _, .n s => .n s.s
  | _, .z s => .z s.s
  | _, .eq s t => .eq s.s t.s
  | _, .ne s t => .ne s.s t.s
  | _, .not w => .not w.tree
  | _, .group w => w.tree
  | _, .ofTerm w => w.tree
  | _, .and w w' => .and w.tree w'.tree
  | _, .ofAnd w => w.tree
  | _, .or w w' => .or w.tree w'.tree

/-- Four arguments `! s -a t` or `! s -o t` are the negation of the last three; for anything else
it is `e`. -/
def negated (args : List Arg) (e : Tree) : Tree :=
  match args with
  | [b, s, op, t] =>
    if b = Test.bang ∧ op = dashA then .not (.and (.str s) (.str t))
    else if b = Test.bang ∧ op = dashO then .not (.or (.str s) (.str t))
    else e
  | _ => e

/-- The tree that is tested; `level` is the compatibility level. -/
def reading (level : Nat) : {l : Level} → Written l → Tree
  | _, .str s => .str s.s
  | _, .n s => .n s.s
  | _, .z s => .z s.s
  | _, .eq s t => .eq s.s t.s
  | _, .ne s t => .ne s.s t.s
  | _, .not w => .not (w.reading level)
  | _, .group w =>
    if 52 < level then negated w.args (w.reading level) else w.reading level
  | _, .ofTerm w => w.reading level
  | _, .and w w' => .and (w.reading level) (w'.reading level)
  | _, .ofAnd w => w.reading level
  | _, .or w w' => .or (w.reading level) (w'.reading level)

/-- The contents of the parentheses that come first. -/
def leading : {l : Level} → Written l → Option (Written .or)
  | _, .group w => some w
  | _, .ofTerm w => w.leading
  | _, .and w _ => w.leading
  | _, .ofAnd w => w.leading
  | _, .or w _ => w.leading
  | _, _ => none

/-- No parentheses stand around a single string, or come first in parentheses and stand around two
arguments. -/
def Plain : {l : Level} → Written l → Prop
  | _, .not w => w.Plain
  | _, .group w =>
    w.Plain ∧ w.args.length ≠ 1 ∧ ∀ w', w.leading = some w' → w'.args.length ≠ 2
  | _, .ofTerm w => w.Plain
  | _, .and w w' => w.Plain ∧ w'.Plain
  | _, .ofAnd w => w.Plain
  | _, .or w w' => w.Plain ∧ w'.Plain
  | _, _ => True

/-- Up to level 52 a tree is read as it is written. -/
theorem reading_eq_tree {level : Nat} (h : ¬52 < level) (w : Written l) :
    w.reading level = w.tree := by
  induction w with
  | str | n | z | eq | ne => rfl
  | not w ih => rw [reading, ih, tree]
  | group w ih => rw [reading, if_neg h, ih, tree]
  | ofTerm w ih | ofAnd w ih => exact ih
  | and w u ih ih' | or w u ih ih' => rw [reading, ih, ih', tree]

/-! ### The arguments of a written tree -/

theorem length_pos (w : Written l) : 0 < w.args.length := by
  induction w with
  | str | n | z | eq | ne | not | group => exact Nat.succ_pos _
  | ofTerm w ih | ofAnd w ih => exact ih
  | and w w' ih ih' | or w w' ih ih' =>
    rw [args, List.length_append]
    exact Nat.add_pos_left ih _

theorem fuel_pos (w : Written l) (tail : List Arg) :
    ¬5 * (w.args.length + tail.length) ≤ 0 := by
  have := w.length_pos
  omega

/-- A single argument is a string. -/
theorem eq_str (w : Written l) (level : Nat) (h : w.args.length = 1) :
    ∃ s : Operand, w.args = [s.s] ∧ w.reading level = .str s.s := by
  induction w with
  | str s => exact ⟨s, rfl, rfl⟩
  | n | z | eq | ne => cases h
  | not w ih => exact absurd (Nat.succ.inj h) (Nat.ne_of_gt w.length_pos)
  | group w ih =>
    rw [args, List.length_cons, List.length_append] at h
    exact absurd (Nat.succ.inj h) (Nat.succ_ne_zero _)
  | ofTerm w ih | ofAnd w ih => exact ih h
  | and w w' ih ih' | or w w' ih ih' =>
    have := w.length_pos
    rw [args, List.length_append, List.length_cons] at h
    omega

theorem leading_args (w : Written l) {w' : Written .or} (h : w.leading = some w') :
    ∃ more, w.args = Test.lparen :: (w'.args ++ Test.rparen :: more) := by
  induction w with
  | str | n | z | eq | ne | not => cases h
  | group w ih => exact ⟨[], by rw [← Option.some.inj h, args]⟩
  | ofTerm w ih | ofAnd w ih => exact ih h
  | and w u ih _ | or w u ih _ =>
    obtain ⟨more, hmore⟩ := ih h
    exact ⟨_, by rw [args, hmore, List.cons_append, List.append_assoc, List.cons_append]⟩

theorem head_of_leading (w : Written l) (h : w.leading = none) :
    ∃ s rest, w.args = s :: rest ∧ s ≠ Test.lparen ∧ s ≠ Test.rparen := by
  induction w with
  | str s => exact ⟨s.s, _, rfl, s.lparen, s.rparen⟩
  | n | z | not => exact ⟨_, _, rfl, by decide, by decide⟩
  | eq s t | ne s t => exact ⟨s.s, _, rfl, s.lparen, s.rparen⟩
  | group => cases h
  | ofTerm w ih | ofAnd w ih => exact ih h
  | and w u ih _ | or w u ih _ =>
    obtain ⟨s, rest, hargs, hs⟩ := ih h
    exact ⟨s, rest ++ _ :: u.args, by rw [args, hargs, List.cons_append], hs⟩

theorem Plain.leading {w : Written l} (hw : w.Plain) {w' : Written .or}
    (h : w.leading = some w') : w'.Plain ∧ w'.args.length ≠ 1 := by
  induction w with
  | str | n | z | eq | ne | not => cases h
  | group w ih => exact Option.some.inj h ▸ ⟨hw.1, hw.2.1⟩
  | ofTerm w ih | ofAnd w ih => exact ih hw h
  | and w u ih _ | or w u ih _ => exact ih hw.1 h

/-- Where parentheses stand around more than a string, a closing one is behind three arguments. -/
theorem length_of_rparen (w : Written l) (hw : w.Plain)
    (h : w.args.getLast? = some Test.rparen) : 4 ≤ w.args.length := by
  induction w with
  | str s | n s | z s => exact absurd (Option.some.inj h) s.rparen
  | eq s t | ne s t => exact absurd (Option.some.inj h) t.rparen
  | not w ih =>
    have hne := w.length_pos
    rw [args, List.getLast?_cons_of_ne_nil (List.ne_nil_of_length_pos hne)] at h
    exact Nat.le_succ_of_le (ih hw h)
  | group w ih =>
    have h₁ := w.length_pos
    have h₂ := hw.2.1
    rw [args, List.length_cons, List.length_append, List.length_singleton]
    omega
  | ofTerm w ih | ofAnd w ih => exact ih hw h
  | and w u _ ih | or w u _ ih =>
    have hne := u.length_pos
    rw [args, List.getLast?_append_cons,
      List.getLast?_cons_of_ne_nil (List.ne_nil_of_length_pos hne)] at h
    rw [args, List.length_append, List.length_cons]
    have := ih hw.2 h
    omega

theorem length_of_andOr (w : Written l) (h : w.tree.AndOr) :
    3 ≤ w.args.length ∧ (w.leading ≠ none → 5 ≤ w.args.length) := by
  induction w with
  | str | n | z | eq | ne | not => exact h.elim
  | group w ih =>
    have := (ih h).1
    rw [args, List.length_cons, List.length_append, List.length_singleton]
    omega
  | ofTerm w ih | ofAnd w ih => exact ih h
  | and w u _ _ | or w u _ _ =>
    have h₁ := w.length_pos
    have h₂ := u.length_pos
    rw [args, List.length_append, List.length_cons]
    refine ⟨by omega, fun hl => ?_⟩
    obtain ⟨w', hw'⟩ := Option.ne_none_iff_exists'.mp hl
    obtain ⟨more, hmore⟩ := w.leading_args hw'
    have := w'.length_pos
    rw [hmore, List.length_cons, List.length_append, List.length_cons]
    omega

/-- The scan for the closing parenthesis passes over a written tree. -/
theorem closing_args (w : Written l) {count : Nat} (hcount : 0 < count) (nargs : Nat)
    (tail : List Arg) :
    closing count nargs (w.args ++ tail) = closing count (nargs + w.args.length) tail := by
  induction w generalizing count nargs tail with
  | str s => exact closing_cons s.lparen s.rparen hcount nargs tail
  | n s | z s =>
    refine (closing_cons (by decide) (by decide) hcount nargs _).trans ?_
    exact closing_cons s.lparen s.rparen hcount _ tail
  | eq s t | ne s t =>
    refine (closing_cons s.lparen s.rparen hcount nargs _).trans ?_
    refine (closing_cons (by decide) (by decide) hcount _ _).trans ?_
    exact closing_cons t.lparen t.rparen hcount _ tail
  | not w ih =>
    rw [args, List.cons_append, closing_cons (by decide) (by decide) hcount, ih hcount,
      List.length_cons]
    congr 1
    omega
  | group w ih =>
    rw [args, List.cons_append, List.append_assoc, List.singleton_append, closing_lparen,
      ih (Nat.succ_pos count), closing_rparen hcount, List.length_cons, List.length_append,
      List.length_singleton]
    congr 1
    omega
  | ofTerm w ih | ofAnd w ih => exact ih hcount nargs tail
  | and w u ih ih' | or w u ih ih' =>
    rw [args, List.append_assoc, List.cons_append, ih hcount,
      closing_cons (by decide) (by decide) hcount, ih' hcount, List.length_append,
      List.length_cons]
    congr 1
    omega

end Written

/-! ## Steps of the parser -/

section

variable {argv : List Arg} {argc pos : Nat}

theorem behind_cons {s : Arg} {rest : List Arg} (h : behind argv argc pos = s :: rest) :
    pos < argc ∧ argv[pos]? = some s ∧ behind argv argc (pos + 1) = rest := by
  have hlt : pos < (argv.take argc).length := by
    rw [← Nat.not_le, ← List.drop_eq_nil_iff, ← behind, h]
    exact List.cons_ne_nil s rest
  have hpos : pos < argc := Nat.lt_of_lt_of_le hlt (List.length_take_le argc argv)
  refine ⟨hpos, ?_, ?_⟩
  · rw [← List.getElem?_take_of_lt hpos, ← List.head?_drop, ← behind, h, List.head?_cons]
  · rw [behind, ← List.tail_drop, ← behind, h, List.tail_cons]

theorem behind_append {xs ys : List Arg} (h : behind argv argc pos = xs ++ ys) :
    behind argv argc (pos + xs.length) = ys := by
  rw [behind, ← List.drop_drop, ← behind, h, List.drop_left]

theorem arg_eq {s : Arg} (h : argv[pos]? = some s) : arg argv pos = .ok s := by
  rw [arg, h]

theorem head_behind (s : Arg) :
    (behind argv argc pos).head? = some s ↔ pos < argc ∧ argv[pos]? = some s := by
  rw [behind, List.head?_drop]
  by_cases h : pos < argc
  · rw [List.getElem?_take_of_lt h]
    exact (and_iff_right h).symm
  · rw [List.getElem?_eq_none (Nat.le_trans (List.length_take_le _ _) (Nat.le_of_not_lt h))]
    exact ⟨fun hs => (by cases hs), fun hs => absurd hs.1 h⟩

theorem advance_eq (h : behind argv argc (pos + 1) ≠ []) : advance argc pos = .ok (pos + 1) := by
  obtain ⟨s, rest, hs⟩ := List.exists_cons_of_ne_nil h
  exact if_neg (Nat.not_le_of_lt (behind_cons hs).1)

end
section

variable {env : Env} {argv : List Arg} {argc pos : Nat} {rest : List Arg}

theorem term_bang (h : behind argv argc pos = bang :: rest) (n : Nat) :
    term env argv argc (n + 1) pos = nots false pos (bang :: rest) >>= fun r =>
      term env argv argc n r.2 >>= fun r₂ => .ok (if r.1 then !r₂.1 else r₂.1, r₂.2) := by
  obtain ⟨hpos, hs, -⟩ := behind_cons h
  rw [term, if_neg (Nat.not_le_of_lt hpos), arg_eq hs, ok_bind, if_pos rfl, h]

theorem term_lparen (h : behind argv argc pos = lparen :: rest) (hne : rest ≠ []) (n : Nat) :
    term env argv argc (n + 1) pos =
      (if 52 < env.shellCompatibilityLevel ∧ pos + 1 + closing 1 1 rest.tail < argc ∧
          closing 1 1 rest.tail ≤ 4 then
        posixtest env argv argc n (closing 1 1 rest.tail) (pos + 1)
      else expr env argv argc n (pos + 1)) >>= closeParen argv := by
  obtain ⟨hpos, hs, hrest⟩ := behind_cons h
  have htail : behind argv argc (pos + 1 + 1) = rest.tail := by
    rw [behind, ← List.tail_drop, ← behind, hrest]
  have hbang : lparen ≠ bang := by decide
  rw [term, if_neg (Nat.not_le_of_lt hpos), arg_eq hs, ok_bind, if_neg hbang, if_pos rfl,
    advance_eq (hrest ▸ hne), ok_bind, htail]

theorem term_primary {s : Arg} (h : behind argv argc pos = s :: rest) (hbang : s ≠ bang)
    (hlparen : s ≠ lparen) (n : Nat) :
    term env argv argc (n + 1) pos =
      if pos + 3 ≤ argc ∧ argv[pos + 1]?.any testBinop then binaryOperator env argv pos
      else if pos + 2 ≤ argc ∧ testUnop s then unaryOperator env argv argc pos
      else .ok (oneArgTest s, pos + 1) := by
  obtain ⟨hpos, hs, -⟩ := behind_cons h
  rw [term, if_neg (Nat.not_le_of_lt hpos), arg_eq hs, ok_bind, if_neg hbang, if_neg hlparen]

/-- An operand in front of something else than a binary operator is tested alone. -/
theorem term_operand (s : Operand) (h : behind argv argc pos = s.s :: rest)
    (hrest : ∀ t ∈ rest.head?, testBinop t = false) (n : Nat) :
    term env argv argc (n + 1) pos = .ok (oneArgTest s.s, pos + 1) := by
  obtain ⟨-, -, hbehind⟩ := behind_cons h
  rw [term_primary h s.bang s.lparen, if_neg ?_, if_neg ?_]
  · rintro ⟨-, hunop⟩
    exact Bool.false_ne_true (s.unop.symm.trans hunop)
  · rintro ⟨hpos, hbinop⟩
    cases ht : argv[pos + 1]? with
    | none =>
      rw [ht] at hbinop
      exact Bool.false_ne_true hbinop
    | some t =>
      rw [ht] at hbinop
      have hhead : rest.head? = some t :=
        hbehind ▸ (head_behind t).mpr ⟨Nat.lt_of_succ_lt hpos, ht⟩
      exact Bool.false_ne_true ((hrest t hhead).symm.trans hbinop)

theorem unaryOperator_eq {op : Arg} (s : Arg) (hop : op = dashN ∨ op = dashZ)
    (h : behind argv argc pos = op :: s :: rest) :
    unaryOperator env argv argc pos = unaryTest env op s >>= fun v => .ok (v, pos + 2) := by
  obtain ⟨-, hs, h₁⟩ := behind_cons h
  obtain ⟨-, hs₁, -⟩ := behind_cons h₁
  have hunop : testUnop op ≠ false := by
    rcases hop with rfl | rfl <;> decide
  have ht : op.getD 1 0 ≠ 0x74 := by
    rcases hop with rfl | rfl <;> decide
  rw [unaryOperator, arg_eq hs, ok_bind, if_neg hunop, if_neg fun h => ht h.2,
    advance_eq (h₁ ▸ List.cons_ne_nil _ _), ok_bind, arg_eq hs₁, ok_bind]

theorem term_unary {op : Arg} (s : Operand) (hop : op = dashN ∨ op = dashZ)
    (h : behind argv argc pos = op :: s.s :: rest) (n : Nat) :
    term env argv argc (n + 1) pos =
      unaryTest env op s.s >>= fun v => .ok (v, pos + 2) := by
  obtain ⟨-, -, h₁⟩ := behind_cons h
  obtain ⟨hlt, hs₁, -⟩ := behind_cons h₁
  have hunop : testUnop op = true ∧ op ≠ bang ∧ op ≠ lparen := by
    rcases hop with rfl | rfl <;> decide
  rw [term_primary h hunop.2.1 hunop.2.2, if_neg ?_, if_pos ⟨hlt, hunop.1⟩,
    unaryOperator_eq s.s hop h]
  rw [hs₁, Option.any_some, s.binop]
  exact fun h => Bool.false_ne_true h.2

theorem binaryOperator_eq {op : Arg} (s t : Arg) (hop : op = eqSign ∨ op = neSign)
    (h : behind argv argc pos = s :: op :: t :: rest) :
    binaryOperator env argv pos =
      binaryTest env op s t env.posixlyCorrect >>= fun v => .ok (v, pos + 3) := by
  obtain ⟨-, hs, h₁⟩ := behind_cons h
  obtain ⟨-, hs₁, h₂⟩ := behind_cons h₁
  obtain ⟨-, hs₂, -⟩ := behind_cons h₂
  have hmem : op ∈ [eqSign, [0x3d, 0x3d], [0x3e], [0x3c], neSign] := by
    rcases hop with rfl | rfl <;> decide
  rw [binaryOperator, arg_eq hs₁, ok_bind, arg_eq hs, ok_bind, arg_eq hs₂, ok_bind, if_pos hmem]

theorem term_binary {op : Arg} (s : Operand) (t : Arg) (hop : op = eqSign ∨ op = neSign)
    (h : behind argv argc pos = s.s :: op :: t :: rest) (n : Nat) :
    term env argv argc (n + 1) pos =
      binaryTest env op s.s t env.posixlyCorrect >>= fun v => .ok (v, pos + 3) := by
  obtain ⟨-, -, h₁⟩ := behind_cons h
  obtain ⟨-, hs₁, h₂⟩ := behind_cons h₁
  obtain ⟨hlt, -, -⟩ := behind_cons h₂
  have hbinop : testBinop op = true := by
    rcases hop with rfl | rfl <;> decide
  rw [term_primary h s.bang s.lparen, if_pos ⟨hlt, by rw [hs₁]; exact hbinop⟩,
    binaryOperator_eq s.s t hop h]

end

/-! ## Runs of the parser -/

/-- What stands behind a term. -/
def Stops (tail : List Arg) : Prop := ∀ t ∈ tail.head?, t = dashA ∨ t = dashO ∨ t = rparen

/-- Behind `pos` the operator `op` does not come, and the value is `unit`; or it comes, and `run`
goes on behind it. -/
inductive Rest (op : Arg) (unit : Bool) (run : Nat → Nat → Except Stop Value) (pos : Nat) :
    List Arg → Bool → Nat → Prop
  | stop {tail : List Arg} : tail.head? ≠ some op → Rest op unit run pos tail unit pos
  | more {tail : List Arg} {v : Bool} {p : Nat} :
    (∀ fuel, 5 * tail.length + 2 ≤ fuel → run fuel (pos + 1) = .ok (v, p)) →
      Rest op unit run pos (op :: tail) v p

section

variable (env : Env) (argv : List Arg) (argc : Nat)

/-- The value of a written tree. -/
def Written.value {l : Level} (w : Written l) : Bool :=
  (w.reading env.shellCompatibilityLevel).value

/-- The function of a level reads a written tree, and what its operators make of the rest. -/
def Runs : (l : Level) → Written l → Prop
  | .term, w => ∀ fuel pos tail, behind argv argc pos = w.args ++ tail → Stops tail →
      5 * (w.args.length + tail.length) ≤ fuel →
      term env argv argc fuel pos = .ok (w.value env, pos + w.args.length)
  | .and, w => ∀ fuel pos tail v p, behind argv argc pos = w.args ++ tail → Stops tail →
      Rest dashA true (and env argv argc) (pos + w.args.length) tail v p →
      5 * (w.args.length + tail.length) + 1 ≤ fuel →
      and env argv argc fuel pos = .ok (w.value env && v, p)
  | .or, w => ∀ fuel pos tail v p, behind argv argc pos = w.args ++ tail → Stops tail →
      tail.head? ≠ some dashA →
      Rest dashO false (or env argv argc) (pos + w.args.length) tail v p →
      5 * (w.args.length + tail.length) + 2 ≤ fuel →
      or env argv argc fuel pos = .ok (w.value env || v, p)

end

section

variable {env : Env} {argv : List Arg} {argc : Nat}

theorem Stops.testBinop {tail : List Arg} (h : Stops tail) :
    ∀ t ∈ tail.head?, testBinop t = false := by
  intro t ht
  rcases h t ht with rfl | rfl | rfl <;> decide

theorem stops_cons {op : Arg} (h : op = dashA ∨ op = dashO ∨ op = rparen) (tail : List Arg) :
    Stops (op :: tail) := by
  intro t ht
  rw [← Option.some.inj ht]
  exact h

/-! ### Terms -/

theorem runs_str (s : Operand) : Runs env argv argc .term (.str s) := by
  intro fuel pos tail h hstops hfuel
  cases fuel with
  | zero => exact absurd hfuel (Written.fuel_pos _ tail)
  | succ n => exact term_operand s h hstops.testBinop n

theorem unaryTest_dashN (a : Arg) : unaryTest env dashN a = .ok (a != []) := rfl

theorem unaryTest_dashZ (a : Arg) : unaryTest env dashZ a = .ok (a == []) := rfl

theorem runs_n (s : Operand) : Runs env argv argc .term (.n s) := by
  intro fuel pos tail h _ hfuel
  cases fuel with
  | zero => exact absurd hfuel (Written.fuel_pos _ tail)
  | succ n => rw [term_unary s (.inl rfl) h n, unaryTest_dashN, ok_bind]; rfl

theorem runs_z (s : Operand) : Runs env argv argc .term (.z s) := by
  intro fuel pos tail h _ hfuel
  cases fuel with
  | zero => exact absurd hfuel (Written.fuel_pos _ tail)
  | succ n => rw [term_unary s (.inr rfl) h n, unaryTest_dashZ, ok_bind]; rfl

theorem binaryTest_eqSign (a b : Arg) (locale : Bool) :
    binaryTest env eqSign a b locale = .ok (a == b) := rfl

theorem binaryTest_neSign (a b : Arg) (locale : Bool) :
    binaryTest env neSign a b locale = .ok (a != b) := rfl

theorem runs_eq (s t : Operand) : Runs env argv argc .term (.eq s t) := by
  intro fuel pos tail h _ hfuel
  cases fuel with
  | zero => exact absurd hfuel (Written.fuel_pos _ tail)
  | succ n => rw [term_binary s t.s (.inl rfl) h n, binaryTest_eqSign, ok_bind]; rfl

theorem runs_ne (s t : Operand) : Runs env argv argc .term (.ne s t) := by
  intro fuel pos tail h _ hfuel
  cases fuel with
  | zero => exact absurd hfuel (Written.fuel_pos _ tail)
  | succ n => rw [term_binary s t.s (.inr rfl) h n, binaryTest_neSign, ok_bind]; rfl

theorem nots_not (value : Bool) (pos : Nat) (rest : List Arg) :
    nots (!value) pos rest = nots value pos rest >>= fun r => .ok (!r.1, r.2) := by
  induction rest generalizing value pos with
  | nil => rfl
  | cons s rest ih =>
    by_cases hs : s = bang
    · rw [nots, nots, if_pos hs, if_pos hs]
      by_cases hrest : rest = []
      · rw [if_pos hrest, if_pos hrest]
        rfl
      · rw [if_neg hrest, if_neg hrest]
        exact ih (!value) (pos + 1)
    · rw [nots, nots, if_neg hs, if_neg hs]
      rfl

/-- A second `!` takes the first one back. -/
theorem term_bang_bang {pos : Nat} {rest : List Arg}
    (h : behind argv argc pos = bang :: bang :: rest) (n : Nat) :
    term env argv argc (n + 1) pos =
      term env argv argc (n + 1) (pos + 1) >>= fun r => .ok (!r.1, r.2) := by
  obtain ⟨-, -, h₁⟩ := behind_cons h
  have hne : bang :: rest ≠ [] := List.cons_ne_nil bang rest
  have hnots : nots false pos (bang :: bang :: rest) = nots (!false) (pos + 1) (bang :: rest) := by
    rw [nots, if_pos rfl, if_neg hne]
  rw [term_bang h, term_bang h₁, hnots, nots_not]
  cases nots false (pos + 1) (bang :: rest) with
  | error e => rfl
  | ok r =>
    rw [ok_bind, ok_bind, ok_bind]
    cases term env argv argc n r.2 with
    | error e => rfl
    | ok r₂ =>
      rw [ok_bind, ok_bind, ok_bind]
      cases r.1 with
      | false => rfl
      | true => rw [if_pos rfl, Bool.not_not]; rfl

theorem runs_not {w : Written .term} (ih : Runs env argv argc .term w) :
    Runs env argv argc .term (.not w) := by
  intro fuel pos tail h hstops hfuel
  obtain ⟨-, -, h₁⟩ := behind_cons h
  have hlen : (Written.not w).args.length = w.args.length + 1 := rfl
  have hpos : pos + (Written.not w).args.length = pos + 1 + w.args.length := by
    omega
  rw [hpos]
  obtain ⟨s, rest, hs⟩ := List.exists_cons_of_length_pos w.length_pos
  cases fuel with
  | zero => omega
  | succ n =>
    by_cases hbang : s = bang
    · rw [Written.args, hs, hbang] at h
      rw [term_bang_bang h, ih (n + 1) (pos + 1) tail h₁ hstops (by omega)]
      rfl
    · have hnots : nots false pos (bang :: (w.args ++ tail)) = .ok (true, pos + 1) := by
        rw [hs, List.cons_append, nots, if_pos rfl, if_neg (List.cons_ne_nil _ _), nots,
          if_neg hbang]
        rfl
      rw [Written.args, List.cons_append] at h
      rw [term_bang h, hnots, ok_bind, ih n (pos + 1) tail h₁ hstops (by omega)]
      rfl

/-! ### Operators -/

theorem not_operator {pos : Nat} {op : Arg} {tail : List Arg}
    (h : behind argv argc pos = tail) (hop : tail.head? ≠ some op) :
    ¬(pos < argc ∧ argv[pos]? = some op) :=
  fun hpos => hop (h ▸ (head_behind op).mpr hpos)

theorem and_of_term {n pos q : Nat} {v : Bool} (h : term env argv argc n pos = .ok (v, q)) :
    and env argv argc (n + 1) pos =
      if q < argc ∧ argv[q]? = some dashA then
        and env argv argc n (q + 1) >>= fun r => .ok (v && r.1, r.2)
      else .ok (v, q) := by
  rw [and, h]
  rfl

theorem or_of_and {n pos q : Nat} {v : Bool} (h : and env argv argc n pos = .ok (v, q)) :
    or env argv argc (n + 1) pos =
      if q < argc ∧ argv[q]? = some dashO then
        or env argv argc n (q + 1) >>= fun r => .ok (v || r.1, r.2)
      else .ok (v, q) := by
  rw [or, h]
  rfl

theorem runs_ofTerm {w : Written .term} (ih : Runs env argv argc .term w) :
    Runs env argv argc .and (.ofTerm w) := by
  intro fuel pos tail v p h hstops hrest hfuel
  rw [Written.args] at h hrest hfuel
  have hbehind := behind_append h
  cases fuel with
  | zero => cases hfuel
  | succ n =>
    rw [and_of_term (ih n pos tail h hstops (Nat.le_of_succ_le_succ hfuel))]
    cases hrest with
    | stop hop =>
      rw [if_neg (not_operator hbehind hop), Bool.and_true]
      rfl
    | more hrun =>
      have hop := (head_behind dashA).mp (by rw [hbehind]; rfl)
      rw [List.length_cons] at hfuel
      rw [if_pos hop, hrun n (by omega)]
      rfl

theorem runs_ofAnd {w : Written .and} (ih : Runs env argv argc .and w) :
    Runs env argv argc .or (.ofAnd w) := by
  intro fuel pos tail v p h hstops hdashA hrest hfuel
  rw [Written.args] at h hrest hfuel
  have hbehind := behind_append h
  cases fuel with
  | zero => cases hfuel
  | succ n =>
    have hand := ih n pos tail true (pos + w.args.length) h hstops (.stop hdashA)
      (Nat.le_of_succ_le_succ hfuel)
    rw [Bool.and_true] at hand
    rw [or_of_and hand]
    cases hrest with
    | stop hop =>
      rw [if_neg (not_operator hbehind hop), Bool.or_false]
      rfl
    | more hrun =>
      have hop := (head_behind dashO).mp (by rw [hbehind]; rfl)
      rw [List.length_cons] at hfuel
      rw [if_pos hop, hrun n (by omega)]
      rfl

theorem runs_and {w u : Written .and} (ih : Runs env argv argc .and w)
    (ih' : Runs env argv argc .and u) : Runs env argv argc .and (.and w u) := by
  intro fuel pos tail v p h hstops hrest hfuel
  rw [Written.args, List.append_assoc, List.cons_append] at h
  rw [Written.args, List.length_append, List.length_cons] at hrest hfuel
  have hu : behind argv argc (pos + w.args.length + 1) = u.args ++ tail :=
    (behind_cons (behind_append h)).2.2
  have hpos : pos + (w.args.length + (u.args.length + 1)) =
      pos + w.args.length + 1 + u.args.length := by omega
  rw [hpos] at hrest
  have hmore : Rest dashA true (and env argv argc) (pos + w.args.length)
      (dashA :: (u.args ++ tail)) (u.value env && v) p := by
    refine .more fun n hn => ?_
    rw [List.length_append] at hn
    exact ih' n _ tail v p hu hstops hrest (Nat.le_of_succ_le hn)
  rw [ih fuel pos _ _ p h (stops_cons (.inl rfl) _) hmore ?_, ← Bool.and_assoc]
  · rfl
  · rw [List.length_cons, List.length_append]
    omega

theorem runs_or {w u : Written .or} (ih : Runs env argv argc .or w)
    (ih' : Runs env argv argc .or u) : Runs env argv argc .or (.or w u) := by
  intro fuel pos tail v p h hstops hdashA hrest hfuel
  rw [Written.args, List.append_assoc, List.cons_append] at h
  rw [Written.args, List.length_append, List.length_cons] at hrest hfuel
  have hu : behind argv argc (pos + w.args.length + 1) = u.args ++ tail :=
    (behind_cons (behind_append h)).2.2
  have hpos : pos + (w.args.length + (u.args.length + 1)) =
      pos + w.args.length + 1 + u.args.length := by omega
  rw [hpos] at hrest
  have hmore : Rest dashO false (or env argv argc) (pos + w.args.length)
      (dashO :: (u.args ++ tail)) (u.value env || v) p := by
    refine .more fun n hn => ?_
    rw [List.length_append] at hn
    exact ih' n _ tail v p hu hstops hdashA hrest hn
  have hne : (dashO :: (u.args ++ tail)).head? ≠ some dashA :=
    fun h => absurd (Option.some.inj h) (by decide)
  rw [ih fuel pos _ _ p h (stops_cons (.inr (.inl rfl)) _) hne hmore ?_, ← Bool.or_assoc]
  · rfl
  · rw [List.length_cons, List.length_append]
    omega

/-! ### By the number of arguments -/

theorem negated_eq {args : List Arg} (h : ¬(args.length = 4 ∧ args.head? = some bang))
    (e : Tree) : Written.negated args e = e := by
  unfold Written.negated
  split
  · next b s op t =>
    have hb : b ≠ bang := fun hb => h ⟨rfl, by rw [hb]; rfl⟩
    rw [if_neg fun h => hb h.1, if_neg fun h => hb h.1]
  · rfl

theorem negated_of_length {args : List Arg} (h : args.length ≠ 4) (e : Tree) :
    Written.negated args e = e :=
  negated_eq (fun hargs => h hargs.1) e

theorem expr_of_runs {w : Written .or} (hw : Runs env argv argc .or w) {fuel pos : Nat}
    {tail : List Arg} (h : behind argv argc pos = w.args ++ tail)
    (htail : ∀ t ∈ tail.head?, t = rparen)
    (hfuel : 5 * (w.args.length + tail.length) + 3 ≤ fuel) :
    expr env argv argc fuel pos = .ok (w.value env, pos + w.args.length) := by
  obtain ⟨s, rest, hs⟩ := List.exists_cons_of_length_pos w.length_pos
  have hpos : pos < argc := (behind_cons (h.trans (by rw [hs, List.cons_append]))).1
  have hne : ∀ op, op ≠ rparen → tail.head? ≠ some op := fun op hop hhead => hop (htail op hhead)
  cases fuel with
  | zero => cases hfuel
  | succ n =>
    rw [expr, if_neg (Nat.not_le_of_lt hpos), hw n pos tail false _ h
      (fun t ht => .inr (.inr (htail t ht))) (hne dashA (by decide))
      (.stop (hne dashO (by decide))) (Nat.le_of_succ_le_succ hfuel), Bool.or_false]

namespace Written

variable {l : Level}

/-- Two arguments are a string behind `-n`, `-z` or `!`. -/
theorem args_of_two (w : Written l) (h : w.args.length = 2) :
    ∃ op t, w.args = [op, t] ∧ (op = dashN ∨ op = dashZ ∨ op = Test.bang) := by
  induction w with
  | str | eq | ne => cases h
  | n s => exact ⟨_, _, rfl, .inl rfl⟩
  | z s => exact ⟨_, _, rfl, .inr (.inl rfl)⟩
  | not w ih =>
    obtain ⟨s, hs, -⟩ := w.eq_str 0 (Nat.succ.inj h)
    exact ⟨_, _, by rw [args, hs], .inr (.inr rfl)⟩
  | group w ih =>
    have := w.length_pos
    rw [args, List.length_cons, List.length_append, List.length_singleton] at h
    omega
  | ofTerm w ih | ofAnd w ih => exact ih h
  | and w u ih ih' | or w u ih ih' =>
    have h₁ := w.length_pos
    have h₂ := u.length_pos
    rw [args, List.length_append, List.length_cons] at h
    omega

end Written

theorem twoArguments_unary {pos : Nat} {op : Arg} {rest : List Arg} (s : Arg)
    (hop : op = dashN ∨ op = dashZ) (h : behind argv argc pos = op :: s :: rest) :
    twoArguments env argv argc pos = unaryTest env op s >>= fun v => .ok (v, pos + 2) := by
  obtain ⟨-, hs, -⟩ := behind_cons h
  have hunop : testUnop op = true ∧ op ≠ bang := by
    rcases hop with rfl | rfl <;> decide
  rw [twoArguments, arg_eq hs, ok_bind, if_neg hunop.2, if_pos hunop.1, unaryOperator_eq s hop h]

theorem twoArguments_of_runs {l : Level} (w : Written l) (hw : w.args.length = 2) {pos : Nat}
    {tail : List Arg} (h : behind argv argc pos = w.args ++ tail) :
    twoArguments env argv argc pos = .ok (w.value env, pos + 2) := by
  induction w with
  | str | eq | ne => cases hw
  | n s => rw [twoArguments_unary s.s (.inl rfl) h, unaryTest_dashN]; rfl
  | z s => rw [twoArguments_unary s.s (.inr rfl) h, unaryTest_dashZ]; rfl
  | not w ih =>
    obtain ⟨s, hs, hreading⟩ := w.eq_str env.shellCompatibilityLevel (Nat.succ.inj hw)
    rw [Written.args, hs] at h
    obtain ⟨-, hbang, h₁⟩ := behind_cons h
    obtain ⟨-, hs₁, -⟩ := behind_cons h₁
    rw [twoArguments, arg_eq hbang, ok_bind, if_pos rfl, arg_eq hs₁, ok_bind, Written.value,
      Written.reading, hreading, Tree.value, Tree.value, bne, Bool.not_not]
  | group w ih =>
    have := w.length_pos
    rw [Written.args, List.length_cons, List.length_append, List.length_singleton] at hw
    omega
  | ofTerm w ih | ofAnd w ih => exact ih hw h
  | and w u ih ih' | or w u ih ih' =>
    have h₁ := w.length_pos
    have h₂ := u.length_pos
    rw [Written.args, List.length_append, List.length_cons] at hw
    omega

theorem threeArguments_eq {pos : Nat} {a op b : Arg} {tail : List Arg}
    (h : behind argv argc pos = a :: op :: b :: tail) (hop : testBinop op = false) :
    threeArguments env argv argc pos =
      if op = dashA then .ok (oneArgTest a && oneArgTest b, pos + 3)
      else if op = dashO then .ok (oneArgTest a || oneArgTest b, pos + 3)
      else if a = bang then
        twoArguments env argv argc (pos + 1) >>= fun r => .ok (!r.1, r.2)
      else if a = lparen ∧ b = rparen then .ok (oneArgTest op, pos + 3)
      else .error (.syntaxError "%s: binary operator expected" (some op)) := by
  obtain ⟨-, ha, h₁⟩ := behind_cons h
  obtain ⟨-, hop', h₂⟩ := behind_cons h₁
  obtain ⟨-, hb, -⟩ := behind_cons h₂
  have hfalse : ¬(false = true) := Bool.false_ne_true
  rw [threeArguments, arg_eq hop', ok_bind, arg_eq ha, ok_bind, hop, if_neg hfalse, arg_eq hb,
    ok_bind, advance_eq (h₁ ▸ List.cons_ne_nil _ _), ok_bind]

theorem Operand.ne (s : Operand) : s.s ≠ dashA ∧ s.s ≠ dashO := by
  constructor
  all_goals
    intro h
    have := s.unop
    rw [h] at this
    exact absurd this (by decide)

theorem threeArguments_binary {pos : Nat} {op : Arg} {rest : List Arg} (s t : Arg)
    (hop : op = eqSign ∨ op = neSign) (h : behind argv argc pos = s :: op :: t :: rest) :
    threeArguments env argv argc pos =
      binaryTest env op s t env.posixlyCorrect >>= fun v => .ok (v, pos + 3) := by
  obtain ⟨-, hs, h₁⟩ := behind_cons h
  obtain ⟨-, hop', -⟩ := behind_cons h₁
  have hbinop : testBinop op = true := by
    rcases hop with rfl | rfl <;> decide
  rw [threeArguments, arg_eq hop', ok_bind, arg_eq hs, ok_bind, if_pos hbinop,
    binaryOperator_eq s t hop h]

/-- `!` in front of two arguments. -/
theorem threeArguments_not {l : Level} (w : Written l) (hw : w.args.length = 2) {pos : Nat}
    {tail : List Arg} (h : behind argv argc pos = bang :: (w.args ++ tail)) :
    threeArguments env argv argc pos = .ok (!w.value env, pos + 3) := by
  obtain ⟨op, t, hargs, hop⟩ := w.args_of_two hw
  have hne : testBinop op = false ∧ op ≠ dashA ∧ op ≠ dashO := by
    rcases hop with rfl | rfl | rfl <;> decide
  have htwo : twoArguments env argv argc (pos + 1) = .ok (w.value env, pos + 1 + 2) :=
    twoArguments_of_runs w hw (behind_cons h).2.2
  rw [hargs] at h
  rw [threeArguments_eq h hne.1, if_neg hne.2.1, if_neg hne.2.2, if_pos rfl, htwo]
  rfl

theorem threeArguments_of_runs {l : Level} (w : Written l) (hw : w.args.length = 3) {pos : Nat}
    {tail : List Arg} (h : behind argv argc pos = w.args ++ tail) :
    threeArguments env argv argc pos = .ok (w.value env, pos + 3) := by
  induction w with
  | str | n | z => cases hw
  | eq s t => rw [threeArguments_binary s.s t.s (.inl rfl) h, binaryTest_eqSign]; rfl
  | ne s t => rw [threeArguments_binary s.s t.s (.inr rfl) h, binaryTest_neSign]; rfl
  | not w ih => exact threeArguments_not w (Nat.succ.inj hw) h
  | group w ih =>
    rw [Written.args, List.length_cons, List.length_append, List.length_singleton] at hw
    have hone : w.args.length = 1 := by omega
    obtain ⟨s, hs, hreading⟩ := w.eq_str env.shellCompatibilityLevel hone
    have hvalue : (Written.group w).value env = (s.s != []) := by
      rw [Written.value, Written.reading, negated_of_length (by omega), ite_self, hreading,
        Tree.value]
    have hne : lparen ≠ bang := by decide
    rw [Written.args, hs] at h
    rw [threeArguments_eq h s.binop, if_neg s.ne.1, if_neg s.ne.2, if_neg hne,
      if_pos ⟨rfl, rfl⟩, hvalue]
    rfl
  | ofTerm w ih | ofAnd w ih => exact ih hw h
  | and w u ih ih' =>
    have h₁ := w.length_pos
    have h₂ := u.length_pos
    rw [Written.args, List.length_append, List.length_cons] at hw
    obtain ⟨s, hs, hreading⟩ := w.eq_str env.shellCompatibilityLevel (by omega)
    obtain ⟨t, ht, hreading'⟩ := u.eq_str env.shellCompatibilityLevel (by omega)
    rw [Written.args, hs, ht] at h
    rw [threeArguments_eq h (by decide), if_pos rfl, Written.value, Written.reading, hreading,
      hreading']
    rfl
  | or w u ih ih' =>
    have h₁ := w.length_pos
    have h₂ := u.length_pos
    rw [Written.args, List.length_append, List.length_cons] at hw
    obtain ⟨s, hs, hreading⟩ := w.eq_str env.shellCompatibilityLevel (by omega)
    obtain ⟨t, ht, hreading'⟩ := u.eq_str env.shellCompatibilityLevel (by omega)
    have hne : dashO ≠ dashA := by decide
    rw [Written.args, hs, ht] at h
    rw [threeArguments_eq h (by decide), if_neg hne, if_pos rfl, Written.value, Written.reading,
      hreading, hreading']
    rfl

/-- Behind `!`, three arguments with `-a` or `-o` in the middle are no term. -/
theorem Written.negated_not (w : Written .term) (h : w.args.length = 3) (e : Tree) :
    Written.negated (Written.not w).args e = e := by
  have hmiddle : ∃ a b c, w.args = [a, b, c] ∧ b ≠ dashA ∧ b ≠ dashO := by
    cases w with
    | str | n | z => cases h
    | eq s t | ne s t => exact ⟨_, _, _, rfl, by decide, by decide⟩
    | not w =>
      obtain ⟨op, t, hargs, hop⟩ := w.args_of_two (Nat.succ.inj h)
      refine ⟨_, _, _, by rw [Written.args, hargs], ?_, ?_⟩
      · rcases hop with rfl | rfl | rfl <;> decide
      · rcases hop with rfl | rfl | rfl <;> decide
    | group w =>
      rw [Written.args, List.length_cons, List.length_append, List.length_singleton] at h
      have hone : w.args.length = 1 := by omega
      obtain ⟨s, hs, -⟩ := w.eq_str 0 hone
      exact ⟨_, _, _, by rw [Written.args, hs]; rfl, s.ne⟩
  obtain ⟨a, b, c, hargs, hb, hb'⟩ := hmiddle
  rw [Written.args, hargs, Written.negated, if_neg fun h => hb h.2, if_neg fun h => hb' h.2]

theorem Written.args_of_bang {l : Level} (w : Written l) (h : w.args.length ≤ 2)
    (hbang : w.args.head? = some Test.bang) : ∃ s, w.args = [Test.bang, s] := by
  have hpos := w.length_pos
  by_cases htwo : w.args.length = 2
  · obtain ⟨op, s, hargs, -⟩ := w.args_of_two htwo
    rw [hargs] at hbang
    exact ⟨s, by rw [hargs, Option.some.inj hbang]⟩
  · have hone : w.args.length = 1 := by omega
    obtain ⟨s, hs, -⟩ := w.eq_str 0 hone
    rw [hs] at hbang
    exact absurd (Option.some.inj hbang) s.bang

/-- Four arguments with a leading `!` are the negation of the last three. -/
theorem threeArguments_behind_bang {l : Level} (w : Written l) (hw : w.args.length = 4)
    (hbang : w.args.head? = some bang) {pos : Nat} {tail : List Arg}
    (h : behind argv argc pos = w.args ++ tail) :
    ∃ v, threeArguments env argv argc (pos + 1) = .ok (v, pos + 4) ∧
      (Written.negated w.args (w.reading env.shellCompatibilityLevel)).value = !v := by
  induction w with
  | str | n | z | eq | ne => cases hw
  | not w ih =>
    have hthree := Nat.succ.inj hw
    refine ⟨w.value env, threeArguments_of_runs w hthree (behind_cons h).2.2, ?_⟩
    rw [w.negated_not hthree]
    rfl
  | group w ih => exact absurd (Option.some.inj hbang) (by decide)
  | ofTerm w ih | ofAnd w ih => exact ih hw hbang h
  | and w u ih ih' =>
    have hu := u.length_pos
    rw [Written.args, List.length_append, List.length_cons] at hw
    rw [Written.args, List.head?_append_of_ne_nil _ (List.ne_nil_of_length_pos w.length_pos)]
      at hbang
    obtain ⟨s, hs⟩ := w.args_of_bang (by omega) hbang
    rw [hs] at hw
    obtain ⟨t, ht, -⟩ := u.eq_str 0 (by change 2 + (u.args.length + 1) = 4 at hw; omega)
    rw [Written.args, hs, ht] at h
    refine ⟨oneArgTest s && oneArgTest t.s, ?_, ?_⟩
    · rw [threeArguments_eq (behind_cons h).2.2 (by decide), if_pos rfl]
    · rw [Written.args, hs, ht]
      rfl
  | or w u ih ih' =>
    have hu := u.length_pos
    rw [Written.args, List.length_append, List.length_cons] at hw
    rw [Written.args, List.head?_append_of_ne_nil _ (List.ne_nil_of_length_pos w.length_pos)]
      at hbang
    obtain ⟨s, hs⟩ := w.args_of_bang (by omega) hbang
    rw [hs] at hw
    obtain ⟨t, ht, -⟩ := u.eq_str 0 (by change 2 + (u.args.length + 1) = 4 at hw; omega)
    have hne : dashO ≠ dashA := by decide
    rw [Written.args, hs, ht] at h
    refine ⟨oneArgTest s || oneArgTest t.s, ?_, ?_⟩
    · rw [threeArguments_eq (behind_cons h).2.2 (by decide), if_neg hne, if_pos rfl]
    · rw [Written.args, hs, ht]
      rfl

/-- `posixtest` on a written tree that does not begin with a parenthesis. -/
theorem posixtest_of_runs {w : Written .or} (hw : Runs env argv argc .or w)
    (hlead : w.leading = none) (htwo : 2 ≤ w.args.length) {fuel pos : Nat} {tail : List Arg}
    (h : behind argv argc pos = w.args ++ tail) (htail : ∀ t ∈ tail.head?, t = rparen)
    (hfuel : 5 * (w.args.length + tail.length) + 4 ≤ fuel) :
    posixtest env argv argc fuel w.args.length pos =
      .ok ((Written.negated w.args (w.reading env.shellCompatibilityLevel)).value,
        pos + w.args.length) := by
  obtain ⟨s, rest, hs, hlparen, -⟩ := w.head_of_leading hlead
  have hpos : argv[pos]? = some s :=
    (behind_cons (h.trans (by rw [hs, List.cons_append]))).2.1
  cases fuel with
  | zero => cases hfuel
  | succ n =>
    rw [posixtest, if_neg (by omega), if_neg (by omega)]
    by_cases h₂ : w.args.length = 2
    · rw [if_pos h₂, twoArguments_of_runs w h₂ h, negated_of_length (by omega), h₂]
      rfl
    by_cases h₃ : w.args.length = 3
    · rw [if_neg h₂, if_pos h₃, threeArguments_of_runs w h₃ h, negated_of_length (by omega), h₃]
      rfl
    rw [if_neg h₂, if_neg h₃]
    by_cases hbang : w.args.length = 4 ∧ s = bang
    · have hhead : w.args.head? = some bang := by
        rw [hs, hbang.2]
        rfl
      obtain ⟨v, hthree, hvalue⟩ :=
        @threeArguments_behind_bang env _ _ _ w hbang.1 hhead _ _ h
      have hbehind : behind argv argc (pos + 1) ≠ [] := by
        rw [hs] at h hbang
        rw [(behind_cons h).2.2]
        exact List.append_ne_nil_of_left_ne_nil
          (List.ne_nil_of_length_pos (by rw [List.length_cons] at hbang; omega)) tail
      rw [if_pos ⟨hbang.1, by rw [hpos, hbang.2]⟩, advance_eq hbehind, ok_bind, hthree, ok_bind,
        hvalue, hbang.1]
    · have hnegated : Written.negated w.args (w.reading env.shellCompatibilityLevel) =
          w.reading env.shellCompatibilityLevel := by
        refine negated_eq (fun hhead => hbang ⟨hhead.1, ?_⟩) _
        rw [hs] at hhead
        exact Option.some.inj hhead.2
      rw [if_neg fun h => hbang ⟨h.1, Option.some.inj (hpos.symm.trans h.2)⟩,
        if_neg fun h => hlparen (Option.some.inj (hpos.symm.trans h.2.1)),
        expr_of_runs hw h htail (Nat.le_of_succ_le_succ hfuel), hnegated]
      rfl

/-! ### Parentheses -/

/-- What the parser returns for the contents of parentheses. -/
def contents (env : Env) (argv : List Arg) (argc n nargs pos : Nat) : Except Stop Value :=
  if 52 < env.shellCompatibilityLevel ∧ pos + nargs < argc ∧ nargs ≤ 4 then
    posixtest env argv argc n nargs pos
  else expr env argv argc n pos

theorem contents_of_leading_none {w : Written .or} (hw : Runs env argv argc .or w)
    (hlead : w.leading = none) (hone : w.args.length ≠ 1)
    (hlevel : 52 < env.shellCompatibilityLevel) {n pos : Nat} {tail : List Arg}
    (h : behind argv argc pos = w.args ++ rparen :: tail)
    (hfuel : 5 * (w.args.length + (tail.length + 1)) + 4 ≤ n) :
    contents env argv argc n (closing 1 1 (w.args ++ rparen :: tail).tail) pos =
      .ok ((Written.group w).value env, pos + w.args.length) := by
  obtain ⟨s, rest, hs, hlparen, hrparen⟩ := w.head_of_leading hlead
  have hclosing : closing 1 1 (w.args ++ rparen :: tail).tail = w.args.length := by
    have h := w.closing_args Nat.one_pos 0 (rparen :: tail)
    rw [closing_one, Nat.zero_add] at h
    rw [← h, hs, List.cons_append, closing_cons hlparen hrparen Nat.one_pos]
    rfl
  have hvalue : (Written.group w).value env =
      (Written.negated w.args (w.reading env.shellCompatibilityLevel)).value := by
    rw [Written.value, Written.reading, if_pos hlevel]
  have htail : ∀ t ∈ (rparen :: tail).head?, t = rparen := fun t ht => (Option.some.inj ht).symm
  have hlt := (behind_cons (behind_append h)).1
  have hpos := w.length_pos
  rw [hclosing, hvalue, contents]
  by_cases h₄ : w.args.length ≤ 4
  · rw [if_pos ⟨hlevel, hlt, h₄⟩, posixtest_of_runs hw hlead (by omega) h htail hfuel]
  · rw [if_neg fun h => h₄ h.2.2, expr_of_runs hw h htail (Nat.le_of_succ_le hfuel),
      negated_of_length (by omega)]
    rfl

theorem posixtest_lparen {n pos : Nat} (h : argv[pos]? = some lparen)
    (h' : argv[pos + 3]? ≠ some rparen) :
    posixtest env argv argc (n + 1) 4 pos = expr env argv argc n pos := by
  have hne : ∀ k, k ≠ 4 → ¬4 = k := fun k hk => hk.symm
  have hbang : lparen ≠ bang := by decide
  rw [posixtest, if_neg (hne 0 (by decide)), if_neg (hne 1 (by decide)),
    if_neg (hne 2 (by decide)), if_neg (hne 3 (by decide)),
    if_neg fun hb => hbang (Option.some.inj (h.symm.trans hb.2)), if_neg fun hb => h' hb.2.2]

/-- The parenthesis that the scan finds belongs to the one it has not read; where that makes no
more than four arguments, they are not of the form that `posixtest` knows. -/
theorem contents_of_leading {w w' : Written .or} (hw : Runs env argv argc .or w)
    (hlead : w.leading = some w') (hplain : w.Plain) (htwo : w'.args.length ≠ 2)
    (hlevel : 52 < env.shellCompatibilityLevel) {n pos : Nat} {tail : List Arg}
    (h : behind argv argc pos = w.args ++ rparen :: tail)
    (hfuel : 5 * (w.args.length + (tail.length + 1)) + 4 ≤ n) :
    contents env argv argc n (closing 1 1 (w.args ++ rparen :: tail).tail) pos =
      .ok ((Written.group w).value env, pos + w.args.length) := by
  obtain ⟨more, hmore⟩ := w.leading_args hlead
  obtain ⟨hplain', hone⟩ := hplain.leading hlead
  have hpos := w'.length_pos
  have hclosing : closing 1 1 (w.args ++ rparen :: tail).tail = w'.args.length + 1 := by
    rw [hmore, List.cons_append, List.append_assoc, List.tail_cons,
      w'.closing_args Nat.one_pos, List.cons_append, closing_one, Nat.add_comm]
  have hvalue : (Written.group w).value env = w.value env := by
    rw [Written.value, Written.reading, if_pos hlevel, negated_eq]
    · rfl
    · rintro ⟨-, hbang⟩
      rw [hmore] at hbang
      exact absurd (Option.some.inj hbang) (by decide)
  have htail : ∀ t ∈ (rparen :: tail).head?, t = rparen := fun t ht => (Option.some.inj ht).symm
  rw [hclosing, hvalue, contents]
  split
  · next hif =>
    have hthree : w'.args.length = 3 := by omega
    obtain ⟨a, b, c, habc⟩ := List.length_eq_three.mp hthree
    have hc : c ≠ rparen := by
      rintro rfl
      have := w'.length_of_rparen hplain' (by rw [habc]; rfl)
      omega
    have hargs := h
    rw [hmore, habc] at hargs
    obtain ⟨-, h₀, h₁⟩ := behind_cons hargs
    have h₃ := (behind_cons (behind_cons (behind_cons h₁).2.2).2.2).2.1
    cases n with
    | zero => cases hfuel
    | succ n =>
      rw [hthree, posixtest_lparen h₀ fun hr => hc (Option.some.inj (h₃.symm.trans hr)),
        expr_of_runs hw h htail (Nat.le_of_succ_le_succ hfuel)]
  · exact expr_of_runs hw h htail (Nat.le_of_succ_le hfuel)

theorem runs_group {w : Written .or} (ih : Runs env argv argc .or w)
    (hplain : 52 < env.shellCompatibilityLevel → (Written.group w).Plain) :
    Runs env argv argc .term (.group w) := by
  intro fuel pos tail h _ hfuel
  rw [Written.args, List.cons_append, List.append_assoc, List.singleton_append] at h
  rw [Written.args, List.length_cons, List.length_append, List.length_singleton] at hfuel ⊢
  obtain ⟨-, -, h₁⟩ := behind_cons h
  obtain ⟨hlt, hrparen, -⟩ := behind_cons (behind_append h₁)
  have htail : ∀ t ∈ (rparen :: tail).head?, t = rparen := fun t ht => (Option.some.inj ht).symm
  cases fuel with
  | zero => omega
  | succ n =>
    have hcontents : contents env argv argc n (closing 1 1 (w.args ++ rparen :: tail).tail)
        (pos + 1) = .ok ((Written.group w).value env, pos + 1 + w.args.length) := by
      by_cases hlevel : 52 < env.shellCompatibilityLevel
      · obtain ⟨hw, hone, hleading⟩ := hplain hlevel
        cases hlead : w.leading with
        | none => exact contents_of_leading_none ih hlead hone hlevel h₁ (by omega)
        | some w' => exact contents_of_leading ih hlead hw (hleading w' hlead) hlevel h₁ (by omega)
      · rw [contents, if_neg fun h => hlevel h.1,
          expr_of_runs ih h₁ htail (by rw [List.length_cons]; omega), Written.value, Written.value,
          Written.reading, if_neg hlevel]
    have hne : argv.length ≠ pos + 1 + w.args.length := by
      intro hlen
      rw [← hlen, List.getElem?_eq_none (Nat.le_refl _)] at hrparen
      cases hrparen
    rw [term_lparen h (List.append_ne_nil_of_right_ne_nil _ (List.cons_ne_nil _ _)), ← contents,
      hcontents, ok_bind, closeParen, if_neg hne.symm, arg_eq hrparen, ok_bind, if_pos rfl]
    congr 2
    omega

/-- Every written tree runs as it is read. -/
theorem runs {l : Level} (w : Written l)
    (hplain : 52 < env.shellCompatibilityLevel → w.Plain) : Runs env argv argc l w := by
  induction w with
  | str s => exact runs_str s
  | n s => exact runs_n s
  | z s => exact runs_z s
  | eq s t => exact runs_eq s t
  | ne s t => exact runs_ne s t
  | not w ih => exact runs_not (ih hplain)
  | group w ih => exact runs_group (ih fun h => (hplain h).1) hplain
  | ofTerm w ih => exact runs_ofTerm (ih hplain)
  | and w u ih ih' => exact runs_and (ih fun h => (hplain h).1) (ih' fun h => (hplain h).2)
  | ofAnd w ih => exact runs_ofAnd (ih hplain)
  | or w u ih ih' => exact runs_or (ih fun h => (hplain h).1) (ih' fun h => (hplain h).2)

end

/-! ## `test_command` -/

/-- `test` or `[` with the arguments `args`. -/
def Invokes (margv args : List Arg) : Prop :=
  margv = [0x74, 0x65, 0x73, 0x74] :: args ∨ margv = [0x5b] :: (args ++ [[0x5d]])

theorem testCommand_eq {env : Env} {fuel argc : Nat} {margv : List Arg} {v : Bool}
    (hargc : (if margv.head? = some [0x5b] then margv.length - 1 else margv.length) = argc)
    (hbracket : margv.head? = some [0x5b] → margv[argc]? = some [0x5d]) (hone : 1 < argc)
    (hrun : posixtest env margv argc fuel (argc - 1) 1 = .ok (v, argc)) :
    testCommand env fuel margv = .ok (if v then 0 else 1) := by
  have hok : ¬(margv.head? = some [0x5b] ∧ margv[argc]? ≠ some [0x5d]) :=
    fun h => h.2 (hbracket h.1)
  rw [testCommand]
  simp only [hargc]
  rw [if_neg hok, if_neg (Nat.not_le_of_lt hone), hrun, ok_bind, if_neg fun h => h rfl]

/-- `test_command` hands the arguments to `posixtest` and returns what it finds. -/
theorem testCommand_of_posixtest {env : Env} {fuel : Nat} {margv args : List Arg} {v : Bool}
    (h : Invokes margv args) (hargs : args ≠ [])
    (hrun : ∀ argv argc, behind argv argc 1 = args →
      posixtest env argv argc fuel args.length 1 = .ok (v, 1 + args.length)) :
    testCommand env fuel margv = .ok (if v then 0 else 1) := by
  have hone : 1 < args.length + 1 := Nat.succ_lt_succ (List.length_pos_of_ne_nil hargs)
  rw [Nat.add_comm 1] at hrun
  rcases h with rfl | rfl
  · have htest : ¬(([0x74, 0x65, 0x73, 0x74] : Arg) :: args).head? = some [0x5b] :=
      fun h => absurd (Option.some.inj h) (by decide)
    refine testCommand_eq (if_neg htest) (fun h => absurd h htest) hone (hrun _ _ ?_)
    rw [List.length_cons, behind, List.take_succ_cons, List.take_length, List.drop_one,
      List.tail_cons]
  · have hlen : (([0x5b] : Arg) :: (args ++ [[0x5d]])).length - 1 = args.length + 1 := by
      rw [List.length_cons, List.length_append, List.length_singleton, Nat.add_sub_cancel]
    refine testCommand_eq ((if_pos rfl).trans hlen) (fun _ => ?_) hone (hrun _ _ ?_)
    · rw [List.getElem?_cons_succ, List.getElem?_append_right (Nat.le_refl _), Nat.sub_self]
      rfl
    · rw [behind, List.take_succ_cons, List.take_left, List.drop_one, List.tail_cons]

/-- A written tree with an `-a` or `-o` at the top is tested as it is read. -/
theorem test_reads (env : Env) (w : Written .or) (htop : w.tree.AndOr)
    (hplain : 52 < env.shellCompatibilityLevel → w.Plain) {margv : List Arg}
    (hmargv : Invokes margv w.args) {fuel : Nat} (hfuel : 5 * margv.length ≤ fuel) :
    testCommand env fuel margv =
      .ok (if (Written.negated w.args (w.reading env.shellCompatibilityLevel)).value then 0
        else 1) := by
  obtain ⟨hthree, hfive⟩ := w.length_of_andOr htop
  have hlen : w.args.length + 1 ≤ margv.length := by
    rcases hmargv with rfl | rfl
    · exact Nat.le_refl _
    · rw [List.length_cons, List.length_append]
      omega
  refine testCommand_of_posixtest hmargv (List.ne_nil_of_length_pos w.length_pos)
    fun argv argc hbehind => ?_
  have hw : Runs env argv argc .or w := runs w hplain
  rw [← List.append_nil w.args] at hbehind
  cases hlead : w.leading with
  | none =>
    rw [posixtest_of_runs hw hlead (by omega) hbehind (fun t ht => by cases ht)
      (by rw [List.length_nil]; omega)]
  | some w' =>
    have h₅ := hfive (by rw [hlead]; exact Option.some_ne_none w')
    cases fuel with
    | zero => omega
    | succ n =>
      rw [posixtest, if_neg (by omega), if_neg (by omega), if_neg (by omega), if_neg (by omega),
        if_neg (by omega), if_neg (by omega), expr_of_runs hw hbehind (fun t ht => by cases ht)
        (by rw [List.length_nil]; omega), negated_of_length (by omega)]
      rfl

/-- An environment that is not asked. -/
def Env.start (level : Nat) : Env where
  shellCompatibilityLevel := level
  posixlyCorrect := false
  validNumber _ := false
  unary _ _ := .ok false
  collate _ _ _ := 0
  binary _ _ _ := .ok false

/-- The empty string. -/
def Operand.empty : Operand := ⟨[], rfl, rfl, by decide, by decide, by decide⟩

/-- `b` -/
def Operand.b : Operand := ⟨[0x62], rfl, rfl, by decide, by decide, by decide⟩

/-- `b -o ( "" -a b )` -/
def grouped : Written .or :=
  .or (.ofAnd (.ofTerm (.str .b)))
    (.ofAnd (.ofTerm (.group (.ofAnd (.and (.ofTerm (.str .empty)) (.ofTerm (.str .b)))))))

/-- `test b -o \( "" -a b \)` -/
theorem test_reads_grouped :
    testCommand (Env.start 53) 100 ([0x74, 0x65, 0x73, 0x74] :: grouped.args) = .ok 0 := by
  have hplain : grouped.Plain :=
    ⟨trivial, ⟨trivial, trivial⟩, by decide, fun w' h => by cases h⟩
  exact test_reads (Env.start 53) grouped trivial (fun _ => hplain) (.inl rfl) (by decide)

/-- `! "" -a ""` -/
def negatedFour : Written .or :=
  .ofAnd (.and (.ofTerm (.not (.str .empty))) (.ofTerm (.str .empty)))

/-- `test ! "" -a ""` is true. -/
theorem test_not_tree :
    ¬∀ (env : Env) (w : Written .or), w.tree.AndOr → ∀ margv, Invokes margv w.args →
      ∀ fuel, 5 * margv.length ≤ fuel →
      testCommand env fuel margv = .ok (if w.tree.value then 0 else 1) := by
  intro h
  have hfalse := h (Env.start 53) negatedFour trivial _ (.inl rfl) 25 (by decide)
  revert hfalse
  decide

end Basht.Test
