import Basht.Execute.Structured

/-!
# Marks, counters, and outcomes that agree

A run of the executor on a command that carries the marks of earlier runs is compared with the
meaning of the command. `Command.Marked` says where marks can be: where `set -e` is ignored anyway.
`Agrees` compares the outcomes, and `Follows` the executors.
-/

namespace Basht.Execute

variable {σ A R V : Type}

/-! ## Marks -/

mutual

/-- The second command is the first, with marks where `set -e` is ignored; only the context says so
for `ignored`. A list of `&&` and `||` has no `!` of its own. -/
inductive Command.Marked : Bool → Command A R → Command A R → Prop
  | null {ignored : Bool} : Command.Marked ignored .null .null
  | subshell {ignored m : Bool} {h : Head R} {a : A}
      (hm : m = true → ignored = true ∨ h.invertReturn = true) :
      Command.Marked ignored (.subshell h a) (.subshell { h with ignoreReturn := m } a)
  | mk {ignored m : Bool} {h : Head R} {v w : Value A R}
      (hm : m = true → ignored = true ∨ h.invertReturn = true)
      (hv : Value.Marked ignored h.invertReturn v w) :
      Command.Marked ignored (.mk h v) (.mk { h with ignoreReturn := m } w)

inductive Value.Marked : Bool → Bool → Value A R → Value A R → Prop
  | simple {ignored invert f m : Bool} {a : A}
      (hm : m = true → ignored = true ∨ invert = true) :
      Value.Marked ignored invert (.simple f a) (.simple m a)
  | pipeline {ignored invert : Bool} {a : A} :
      Value.Marked ignored invert (.pipeline a) (.pipeline a)
  | misc {ignored invert : Bool} {a : A} : Value.Marked ignored invert (.misc a) (.misc a)
  | forIn {ignored invert f m : Bool} {a : A} {action action' : Command A R}
      (hm : m = true → ignored = true ∨ invert = true)
      (ha : Command.Marked (ignored || invert) action action') :
      Value.Marked ignored invert (.forIn f a action) (.forIn m a action')
  | arithFor {ignored invert f m : Bool} {a b c : A} {action action' : Command A R}
      (hm : m = true → ignored = true ∨ invert = true)
      (ha : Command.Marked (ignored || invert) action action') :
      Value.Marked ignored invert (.arithFor f a b c action) (.arithFor m a b c action')
  | select {ignored invert f m : Bool} {a : A} {action action' : Command A R}
      (hm : m = true → ignored = true ∨ invert = true)
      (ha : Command.Marked (ignored || invert) action action') :
      Value.Marked ignored invert (.select f a action) (.select m a action')
  | caseIn {ignored invert f m : Bool} {a : A} {clauses clauses' : Clauses A R}
      (hm : m = true → ignored = true ∨ invert = true)
      (hc : Clauses.Marked (ignored || invert) clauses clauses') :
      Value.Marked ignored invert (.caseIn f a clauses) (.caseIn m a clauses')
  | while_ {ignored invert f m isUntil : Bool} {test test' action action' : Command A R}
      (hm : m = true → ignored = true ∨ invert = true) (ht : Command.Marked true test test')
      (ha : Command.Marked (ignored || invert) action action') :
      Value.Marked ignored invert (.while_ f isUntil test action)
        (.while_ m isUntil test' action')
  | if_ {ignored invert f m : Bool} {test test' t t' e e' : Command A R}
      (hm : m = true → ignored = true ∨ invert = true) (hc : Command.Marked true test test')
      (ht : Command.Marked (ignored || invert) t t')
      (he : Command.Marked (ignored || invert) e e') :
      Value.Marked ignored invert (.if_ f test t e) (.if_ m test' t' e')
  | group {ignored invert : Bool} {c c' : Command A R}
      (hc : Command.Marked (ignored || invert) c c') :
      Value.Marked ignored invert (.group c) (.group c')
  | semicolon {ignored invert : Bool} {first first' second second' : Command A R}
      (h₁ : Command.Marked (ignored || invert) first first')
      (h₂ : Command.Marked (ignored || invert) second second') :
      Value.Marked ignored invert (.connection .semicolon first second)
        (.connection .semicolon first' second')
  | andAnd {ignored : Bool} {first first' second second' : Command A R}
      (h₁ : Command.Marked true first first') (h₂ : Command.Marked ignored second second') :
      Value.Marked ignored false (.connection .andAnd first second)
        (.connection .andAnd first' second')
  | orOr {ignored : Bool} {first first' second second' : Command A R}
      (h₁ : Command.Marked true first first') (h₂ : Command.Marked ignored second second') :
      Value.Marked ignored false (.connection .orOr first second)
        (.connection .orOr first' second')

inductive Clauses.Marked : Bool → Clauses A R → Clauses A R → Prop
  | nil {ignored : Bool} : Clauses.Marked ignored .nil .nil
  | cons {ignored f t : Bool} {a : A} {action action' : Command A R}
      {next next' : Clauses A R} (ha : Command.Marked ignored action action')
      (hn : Clauses.Marked ignored next next') :
      Clauses.Marked ignored (.cons a f t action next) (.cons a f t action' next')

end

/-- A command as the parser builds it, or as executions have left it. -/
def Command.Parsed (c : Command A R) : Prop := Command.Marked false c c

/-- A marked command that has its own mark. -/
structure Command.Held (ignored : Bool) (d c : Command A R) : Prop where
  marked : Command.Marked ignored d c
  mark : c.mark ignored = c

theorem Command.mark_mark (b : Bool) (c : Command A R) : (c.mark b).mark b = c.mark b := by
  cases c with
  | null => rfl
  | subshell h a => simp only [mark, Bool.or_assoc, Bool.or_self]
  | mk h v => simp only [mark, Bool.or_assoc, Bool.or_self]

theorem Command.Marked.held {ignored : Bool} {d c : Command A R} (h : Marked ignored d c) :
    Command.Held ignored d (c.mark ignored) := by
  refine ⟨?_, c.mark_mark ignored⟩
  cases h with
  | null => exact .null
  | subshell hm =>
    refine .subshell fun hor => ?_
    exact (Bool.or_eq_true_iff.1 hor).elim hm Or.inl
  | mk hm hv =>
    refine .mk (fun hor => ?_) hv
    exact (Bool.or_eq_true_iff.1 hor).elim hm Or.inl

theorem or_mono {i j invert : Bool} (hij : i = true → j = true) (h : (i || invert) = true) :
    (j || invert) = true := by
  rw [Bool.or_eq_true_iff] at h ⊢
  exact h.imp_left hij

mutual

/-- More marks are allowed where more is ignored. -/
theorem Command.Marked.mono {i j : Bool} {c d : Command A R} (h : Command.Marked i c d)
    (hij : i = true → j = true) : Command.Marked j c d := by
  cases h with
  | null => exact .null
  | subshell hm => exact .subshell fun h => (hm h).imp_left hij
  | mk hm hv => exact .mk (fun h => (hm h).imp_left hij) (hv.mono hij)

theorem Value.Marked.mono {i j invert : Bool} {v w : Value A R}
    (h : Value.Marked i invert v w) (hij : i = true → j = true) : Value.Marked j invert v w := by
  cases h with
  | simple hm => exact .simple fun h => (hm h).imp_left hij
  | pipeline => exact .pipeline
  | misc => exact .misc
  | forIn hm ha => exact .forIn (fun h => (hm h).imp_left hij) (ha.mono (or_mono hij))
  | arithFor hm ha => exact .arithFor (fun h => (hm h).imp_left hij) (ha.mono (or_mono hij))
  | select hm ha => exact .select (fun h => (hm h).imp_left hij) (ha.mono (or_mono hij))
  | caseIn hm hc => exact .caseIn (fun h => (hm h).imp_left hij) (hc.mono (or_mono hij))
  | while_ hm ht ha => exact .while_ (fun h => (hm h).imp_left hij) ht (ha.mono (or_mono hij))
  | if_ hm hc ht he =>
    exact .if_ (fun h => (hm h).imp_left hij) hc (ht.mono (or_mono hij)) (he.mono (or_mono hij))
  | group hc => exact .group (hc.mono (or_mono hij))
  | semicolon h₁ h₂ => exact .semicolon (h₁.mono (or_mono hij)) (h₂.mono (or_mono hij))
  | andAnd h₁ h₂ => exact .andAnd h₁ (h₂.mono hij)
  | orOr h₁ h₂ => exact .orOr h₁ (h₂.mono hij)

theorem Clauses.Marked.mono {i j : Bool} {c d : Clauses A R} (h : Clauses.Marked i c d)
    (hij : i = true → j = true) : Clauses.Marked j c d := by
  cases h with
  | nil => exact .nil
  | cons ha hn => exact .cons (ha.mono hij) (hn.mono hij)

end

/-! ## Outcomes -/

/-- The state with a store in it, where so many loops are to be left. -/
def State.put (s : State σ) (t : Store σ) (e : Exit) : State σ :=
  { s with user := t.user, last := t.last, breaking := e.breaking, continuing := e.continuing }

/-- The outcomes are the same. `P` holds of the tree, and no more loops are left than there are. -/
inductive Agrees {T : Type} (P : T → Prop) (loops : Nat) (s : State σ) :
    Run σ (Ran σ T) → Eval σ (Done σ) → Prop
  | ok {tree : T} {d : Done σ} (tree_ok : P tree) (within : d.exit.Within loops) :
      Agrees P loops s (.ok ⟨tree, s.put d.store d.exit, d.result⟩) (.ok d)
  | fuel : Agrees P loops s (.error .fuel) (.error .fuel)
  | exit (user : σ) (value : Nat) :
      Agrees P loops s (.error (.exit user value)) (.error (.exit user value))
  | errexit (user : σ) (value : Nat) :
      Agrees P loops s (.error (.errexit user value)) (.error (.errexit user value))
  | return_ (s' : State σ) (t : Store σ) (value : Nat) :
      Agrees P loops s (.error (.return_ (s'.put t .next) value)) (.error (.return_ t value))

/-- The place of a command in a state. -/
structure Place.Of (p : Place) (s : State σ) : Prop where
  loops : p.loops = s.loopLevel
  returns : p.returns = decide (s.returnCatch ≠ 0)

/-- An executor does what the meaning says. While loops are to be left, it skips commands. -/
structure Follows (execute : Executor σ A R)
    (eval : Place → Command A R → Store σ → Eval σ (Done σ)) : Prop where
  agrees : ∀ {p : Place} {d c : Command A R} {s : State σ} (t : Store σ), p.Of s →
    Command.Held p.ignored d c →
    Agrees (Command.Held p.ignored d) s.loopLevel s (execute c (s.put t .next)) (eval p d t)
  skips : ∀ {c₀ : Command A R} {s₀ : State σ} {r₀}, execute c₀ s₀ = .ok r₀ →
    ∀ (c : Command A R) {s : State σ}, s.breaking ≠ 0 ∨ s.continuing ≠ 0 →
      execute c s = .ok ⟨c, s, s.last⟩

namespace Agrees

variable {T U : Type} {P : T → Prop} {Q : U → Prop} {loops loops' : Nat} {s s' : State σ}
  {x : Run σ (Ran σ T)} {y : Eval σ (Done σ)}

/-- What agrees goes on in the same way. -/
theorem bind {f : Ran σ T → Run σ (Ran σ U)} {g : Done σ → Eval σ (Done σ)}
    (h : Agrees P loops s x y)
    (hk : ∀ tree d, P tree → d.exit.Within loops →
      x = .ok ⟨tree, s.put d.store d.exit, d.result⟩ → y = .ok d →
      Agrees Q loops' s' (f ⟨tree, s.put d.store d.exit, d.result⟩) (g d)) :
    Agrees Q loops' s' (x >>= f) (y >>= g) := by
  cases h with
  | ok tree_ok within => exact hk _ _ tree_ok within rfl rfl
  | fuel => exact .fuel
  | exit user value => exact .exit user value
  | errexit user value => exact .errexit user value
  | return_ s'' t value => exact .return_ s'' t value

/-- What agrees goes on where the meaning is complete. -/
theorem bindRight {f : Ran σ T → Run σ (Ran σ U)} (h : Agrees P loops s x y)
    (hk : ∀ tree (d : Done σ), P tree → d.exit.Within loops →
      Agrees Q loops' s' (f ⟨tree, s.put d.store d.exit, d.result⟩) (.ok d)) :
    Agrees Q loops' s' (x >>= f) y := by
  cases h with
  | ok tree_ok within => exact hk _ _ tree_ok within
  | fuel => exact .fuel
  | exit user value => exact .exit user value
  | errexit user value => exact .errexit user value
  | return_ s'' t value => exact .return_ s'' t value

/-- The level of a loop that is left. -/
theorem leaveLoop (h : Agrees P loops s.enterLoop x y) {f : T → U}
    (hP : ∀ tree, P tree → Q (f tree)) :
    Agrees Q loops s (x >>= fun r => .ok (r.leaveLoop.within f)) y :=
  h.bindRight fun tree _ htree hw => .ok (hP tree htree) hw

end Agrees

/-! ## The counters -/

section Counters

variable (s : State σ) (t : Store σ)

theorem put_user (e : Exit) : (s.put t e).user = t.user := rfl

theorem put_loopLevel (e : Exit) : (s.put t e).loopLevel = s.loopLevel := rfl

theorem put_returnCatch (e : Exit) : (s.put t e).returnCatch = s.returnCatch := rfl

theorem put_calm (hb : s.breaking = 0) (hc : s.continuing = 0) :
    s.put ⟨s.user, s.last⟩ .next = s := by
  obtain ⟨user, b, c, l, last, r⟩ := s
  subst hb hc
  rfl

theorem put_skips {e : Exit} (he : e ≠ .next) :
    (s.put t e).breaking ≠ 0 ∨ (s.put t e).continuing ≠ 0 := by
  cases e with
  | next => exact absurd rfl he
  | break_ k => exact Or.inl (Nat.succ_ne_zero k)
  | continue_ k => exact Or.inr (Nat.succ_ne_zero k)

theorem turn_put (e : Exit) : (s.put t e).turn = (!e.again, s.put t e.leave) := by
  match e with
  | .next => rfl
  | .break_ 0 | .break_ (k + 1) => rfl
  | .continue_ 0 | .continue_ (k + 1) => rfl

theorem stopped_put (e : Exit) : (s.put t e).stopped = s.put t e.leave := by
  match e with
  | .next => rfl
  | .break_ 0 | .break_ (k + 1) => rfl
  | .continue_ 0 | .continue_ (k + 1) => rfl

theorem leave_of_again {e : Exit} (h : e.again = true) : e.leave = .next := by
  match e with
  | .next | .continue_ 0 => rfl

theorem Exit.Within.leave {e : Exit} {loops : Nat} (h : e.Within (loops + 1)) :
    e.leave.Within loops := by
  match e with
  | .next | .break_ 0 | .continue_ 0 => trivial
  | .break_ (k + 1) | .continue_ (k + 1) => exact Nat.lt_of_succ_lt_succ h

theorem Exit.Within.mono {e : Exit} {m n : Nat} (h : e.Within m) (hmn : m ≤ n) : e.Within n := by
  match e with
  | .next => trivial
  | .break_ k | .continue_ k => exact Nat.lt_of_lt_of_le h hmn

end Counters

end Basht.Execute
