import Mathlib.Data.List.Basic

/-!
# Executing commands (`execute_cmd.c`, `builtins/break.def`, `builtins/return.def`)

`break` and `continue` count in `breaking` and `continuing` the loops that are still to be left;
while one of them is not zero every command returns at once. Where `set -e` must not end the shell
a command is marked with `CMD_IGNORE_RETURN`, and the marks stay in the tree: a run returns the tree
it was given with the marks it has made. What other programs, expansions and assignments do is a
parameter (`Env`), and `fuel` bounds the nesting and the turns of the loops.
-/

namespace Basht.Execute

variable {σ A R V : Type}

/-! ## Commands -/

/-- The fields of a `COMMAND` beside its value. -/
structure Head (R : Type) where
  /-- `CMD_IGNORE_RETURN` -/
  ignoreReturn : Bool
  /-- `CMD_INVERT_RETURN` -/
  invertReturn : Bool
  redirects : R

inductive Connector where
  | semicolon
  | andAnd
  | orOr

mutual

/-- `COMMAND`; `A` is what simple commands, words and expressions are. -/
inductive Command (A R : Type) where
  | null
  | subshell (h : Head R) (a : A)
  | mk (h : Head R) (value : Value A R)

/-- The value of a command, with its own `CMD_IGNORE_RETURN`. -/
inductive Value (A R : Type) where
  | simple (flags : Bool) (a : A)
  | pipeline (a : A)
  /-- `cm_arith`, `cm_cond` and `cm_function_def`. -/
  | misc (a : A)
  | forIn (flags : Bool) (a : A) (action : Command A R)
  | arithFor (flags : Bool) (init test step : A) (action : Command A R)
  | select (flags : Bool) (a : A) (action : Command A R)
  | caseIn (flags : Bool) (a : A) (clauses : Clauses A R)
  | while_ (flags : Bool) (isUntil : Bool) (test action : Command A R)
  | if_ (flags : Bool) (test trueCase falseCase : Command A R)
  | group (command : Command A R)
  | connection (connector : Connector) (first second : Command A R)

/-- `PATTERN_LIST`, with `CASEPAT_FALLTHROUGH` and `CASEPAT_TESTNEXT`. -/
inductive Clauses (A R : Type) where
  | nil
  | cons (patterns : A) (fallthrough testnext : Bool) (action : Command A R) (next : Clauses A R)

end

/-- `command->flags |= CMD_IGNORE_RETURN`, where the condition holds. -/
def Command.mark (ignore : Bool) : Command A R → Command A R
  | .null => .null
  | .subshell h a => .subshell { h with ignoreReturn := h.ignoreReturn || ignore } a
  | .mk h value => .mk { h with ignoreReturn := h.ignoreReturn || ignore } value

/-! ## The state -/

/-- The globals of the executor. `user` is all that commands read and write besides them. -/
structure State (σ : Type) where
  user : σ
  breaking : Nat
  continuing : Nat
  loopLevel : Nat
  /-- `last_command_exit_value` -/
  last : Nat
  /-- `return_catch_flag` -/
  returnCatch : Nat

/-- What a simple command is once it is expanded, with the state this leaves. -/
inductive Action (σ A R : Type) where
  | run (user : σ) (result : Nat)
  | break_ (user : σ) (newbreak : Int)
  | continue_ (user : σ) (newcont : Int)
  | return_ (user : σ) (value : Nat)
  | exit (user : σ) (value : Nat)
  /-- A shell function: its body, and what `pop_context` does. -/
  | call (user : σ) (body : Command A R) (popContext : σ → σ)

/-- What the executor asks for. -/
structure Env (σ A R V : Type) where
  shellCompatibilityLevel : Nat
  /-- `exit_immediately_on_error` -/
  errexit : σ → Bool
  simple : A → σ → Action σ A R
  /-- A subshell or a pipeline, and its exit status. -/
  forked : A → σ → σ × Nat
  misc : A → σ → σ × Nat
  /-- `do_redirections`, and the undo list. -/
  redirect : R → σ → Except σ (σ × (σ → σ))
  /-- `expand_words_no_vars` for a `for`, and for a `select`, behind `check_identifier`. -/
  words : A → σ → Except σ (σ × List V)
  selectWords : A → σ → Except σ (σ × List V)
  /-- `bind_variable` to the identifier of a `for` or `select`. -/
  bind : A → V → σ → Except σ σ
  /-- `eval_arith_for_expr` -/
  arith : A → σ → σ × Int × Bool
  /-- `select_query` -/
  query : A → List V → σ → σ × Option V
  caseWord : A → σ → σ × V
  /-- `strmatch` of the patterns of a clause, up to the first that matches. -/
  strmatch : A → V → σ → σ × Bool

/-- Jumps, and the end of the fuel; `ρ` is the state at a `return`. -/
inductive Stop (σ ρ : Type) where
  | fuel
  | exit (user : σ) (value : Nat)
  /-- `jump_to_top_level (ERREXIT)` -/
  | errexit (user : σ) (value : Nat)
  | return_ (state : ρ) (value : Nat)

/-- What is left of a tree, the state, and the exit status. -/
structure Ran (σ T : Type) where
  tree : T
  state : State σ
  result : Nat

abbrev Run (σ : Type) : Type → Type := Except (Stop σ (State σ))

/-- A part of a tree is put back into its place. -/
def Ran.within {T U : Type} (f : T → U) (r : Ran σ T) : Ran σ U := ⟨f r.tree, r.state, r.result⟩

/-- The executor of the commands inside. -/
abbrev Executor (σ A R : Type) := Command A R → State σ → Run σ (Ran σ (Command A R))

/-! ## Loops -/

/-- What follows the action of a loop: whether the loop is left. -/
def State.turn (s : State σ) : Bool × State σ :=
  if s.breaking ≠ 0 then (true, { s with breaking := s.breaking - 1 })
  else if s.continuing ≠ 0 then
    (decide (s.continuing - 1 ≠ 0), { s with continuing := s.continuing - 1 })
  else (false, s)

/-- The condition of a `while` ends the loop. -/
def State.stopped (s : State σ) : State σ :=
  { s with breaking := s.breaking - 1, continuing := s.continuing - 1 }

def State.enterLoop (s : State σ) : State σ := { s with loopLevel := s.loopLevel + 1 }

def Ran.leaveLoop {T : Type} (r : Ran σ T) : Ran σ T :=
  { r with state := { r.state with loopLevel := r.state.loopLevel - 1 } }

variable (env : Env σ A R V) (execute : Executor σ A R)

/-- The loop of `execute_while_or_until`. -/
def whileLoop (isUntil : Bool) : Nat → Command A R → Command A R → Nat → State σ →
    Run σ (Ran σ (Command A R × Command A R))
  | 0, _, _, _, _ => .error .fuel
  | n + 1, test, action, bodyStatus, s => do
    let t ← execute test s
    if decide (t.result = 0) = isUntil then
      .ok ⟨(t.tree, action), t.state.stopped, bodyStatus⟩
    else do
      let b ← execute action t.state
      if b.state.turn.1 then .ok ⟨(t.tree, b.tree), b.state.turn.2, b.result⟩
      else whileLoop isUntil n t.tree b.tree b.result b.state.turn.2

/-- `execute_while_or_until` -/
def executeWhileOrUntil (fuel : Nat) (flags isUntil : Bool) (test action : Command A R)
    (s : State σ) : Run σ (Ran σ (Value A R)) := do
  let r ← whileLoop execute isUntil fuel (test.mark true) (action.mark flags) 0 s.enterLoop
  .ok (r.leaveLoop.within fun t => .while_ flags isUntil t.1 t.2)

/-- The loop of `execute_for_command`. -/
def forLoop (a : A) : List V → Command A R → Nat → State σ → Run σ (Ran σ (Command A R))
  | [], action, retval, s => .ok ⟨action, s, retval⟩
  | w :: list, action, _, s =>
    match env.bind a w s.user with
    | .error user => .ok ⟨action, { s with user := user }, 1⟩
    | .ok user => do
      let b ← execute action { s with user := user }
      if b.state.turn.1 then .ok ⟨b.tree, b.state.turn.2, b.result⟩
      else forLoop a list b.tree b.result b.state.turn.2

/-- `execute_for_command` -/
def executeForCommand (flags : Bool) (a : A) (action : Command A R) (s : State σ) :
    Run σ (Ran σ (Value A R)) :=
  match env.words a s.user with
  | .error user => .ok ⟨.forIn flags a action, { s with user := user }, 1⟩
  | .ok list => do
    let r ← forLoop env execute a list.2 (action.mark flags) 0
      { s.enterLoop with user := list.1 }
    .ok (r.leaveLoop.within fun c => .forIn flags a c)

/-- The loop of `execute_arith_for_command`; `expok` says whether the last expression was one. -/
def arithForLoop (test step : A) : Nat → Bool → Command A R → Nat → State σ →
    Run σ (Ran σ (Command A R))
  | 0, _, _, _, _ => .error .fuel
  | n + 1, expok, action, bodyStatus, s =>
    if expok = false then .ok ⟨action, s, 1⟩
    else
      let e := env.arith test s.user
      let s := { s with user := e.1 }
      if e.2.2 = false then .ok ⟨action, s, 1⟩
      else if e.2.1 = 0 then .ok ⟨action, s, bodyStatus⟩
      else do
        let b ← execute action s
        if b.state.turn.1 then .ok ⟨b.tree, b.state.turn.2, b.result⟩
        else
          let e := env.arith step b.state.turn.2.user
          arithForLoop test step n e.2.2 b.tree b.result { b.state.turn.2 with user := e.1 }

/-- `execute_arith_for_command` -/
def executeArithForCommand (fuel : Nat) (flags : Bool) (init test step : A)
    (action : Command A R) (s : State σ) : Run σ (Ran σ (Value A R)) := do
  let e := env.arith init s.user
  let r ← arithForLoop env execute test step fuel e.2.2 (action.mark flags) 0
    { s.enterLoop with user := e.1 }
  .ok (r.leaveLoop.within fun c => .arithFor flags init test step c)

/-- The loop of `execute_select_command`. -/
def selectLoop (a : A) (list : List V) : Nat → Command A R → State σ → Run σ (Ran σ (Command A R))
  | 0, _, _ => .error .fuel
  | n + 1, action, s =>
    match env.query a list s.user with
    | (user, none) => .ok ⟨action, { s with user := user }, 1⟩
    | (user, some selection) =>
      match env.bind a selection user with
      | .error user => .ok ⟨action, { s with user := user }, 1⟩
      | .ok user => do
        let b ← execute action { s with user := user }
        if b.state.turn.1 then .ok ⟨b.tree, b.state.turn.2, b.result⟩
        else selectLoop a list n b.tree b.state.turn.2

/-- `execute_select_command` -/
def executeSelectCommand (fuel : Nat) (flags : Bool) (a : A) (action : Command A R)
    (s : State σ) : Run σ (Ran σ (Value A R)) :=
  match env.selectWords a s.user with
  | .error user => .ok ⟨.select flags a action, { s with user := user }, 1⟩
  | .ok list =>
    let s := { s.enterLoop with user := list.1 }
    -- the level is raised, and with no words it stays so
    if list.2 = [] then .ok ⟨.select flags a action, s, 0⟩
    else do
      let r ← selectLoop env execute a list.2 fuel (action.mark flags) s
      .ok (r.leaveLoop.within fun c => .select flags a c)

/-! ## Conditions -/

/-- The clauses of `execute_case_command`; `matched` says that the one before falls through. -/
def caseClauses (flags : Bool) (word : V) : Bool → Clauses A R → State σ → Nat →
    Run σ (Ran σ (Clauses A R))
  | _, .nil, s, retval => .ok ⟨.nil, s, retval⟩
  | matched, .cons patterns fallthrough testnext action next, s, retval =>
    let m := if matched then (s.user, true) else env.strmatch patterns word s.user
    let s := { s with user := m.1 }
    if m.2 then do
      let b ← execute (action.mark flags) s
      if fallthrough || testnext then do
        let r ← caseClauses flags word fallthrough next b.state b.result
        .ok (r.within fun c => .cons patterns fallthrough testnext b.tree c)
      else .ok ⟨.cons patterns fallthrough testnext b.tree next, b.state, b.result⟩
    else do
      let r ← caseClauses flags word false next s retval
      .ok (r.within fun c => .cons patterns fallthrough testnext action c)

/-- `execute_case_command` -/
def executeCaseCommand (flags : Bool) (a : A) (clauses : Clauses A R) (s : State σ) :
    Run σ (Ran σ (Value A R)) := do
  let w := env.caseWord a s.user
  let r ← caseClauses env execute flags w.2 false clauses { s with user := w.1 } 0
  .ok (r.within fun c => .caseIn flags a c)

/-- `execute_if_command` -/
def executeIfCommand (flags : Bool) (test trueCase falseCase : Command A R) (s : State σ) :
    Run σ (Ran σ (Value A R)) := do
  let t ← execute (test.mark true) s
  if t.result = 0 then do
    let b ← execute (trueCase.mark flags) t.state
    .ok (b.within fun c => .if_ flags t.tree c falseCase)
  else do
    let b ← execute (falseCase.mark flags) t.state
    .ok (b.within fun c => .if_ flags t.tree trueCase c)

/-- `execute_connection`, behind the heads of the connection. -/
def executeConnection (ignoreReturn invert : Bool) :
    Connector → Command A R → Command A R → State σ → Run σ (Ran σ (Value A R))
  | .semicolon, first, second, s => do
    let r ← execute (first.mark (ignoreReturn || invert)) s
    let b ← execute (second.mark (ignoreReturn || invert)) r.state
    .ok (b.within fun c => .connection .semicolon r.tree c)
  | .andAnd, first, second, s => do
    let r ← execute (first.mark true) s
    if r.result = 0 then do
      let b ← execute (second.mark ignoreReturn) r.state
      .ok (b.within fun c => .connection .andAnd r.tree c)
    else .ok (r.within fun c => .connection .andAnd c second)
  | .orOr, first, second, s => do
    let r ← execute (first.mark true) s
    if r.result ≠ 0 then do
      let b ← execute (second.mark ignoreReturn) r.state
      .ok (b.within fun c => .connection .orOr r.tree c)
    else .ok (r.within fun c => .connection .orOr c second)

/-! ## Simple commands -/

/-- `break_builtin` -/
def breakBuiltin (newbreak : Int) (s : State σ) : Ran σ Unit :=
  if s.loopLevel = 0 then ⟨(), s, 0⟩
  else if newbreak ≤ 0 then ⟨(), { s with breaking := s.loopLevel }, 1⟩
  else ⟨(), { s with breaking := min newbreak.toNat s.loopLevel }, 0⟩

/-- `continue_builtin`; for a bad count it sets `breaking`. -/
def continueBuiltin (newcont : Int) (s : State σ) : Ran σ Unit :=
  if s.loopLevel = 0 then ⟨(), s, 0⟩
  else if newcont ≤ 0 then ⟨(), { s with breaking := s.loopLevel }, 1⟩
  else ⟨(), { s with continuing := min newcont.toNat s.loopLevel }, 0⟩

/-- What is unwound when a function is left, also by a `return`. -/
def leaveFunction {T : Type} (popContext : σ → σ) (s : State σ) :
    Run σ (Ran σ T) → Run σ (Ran σ Unit)
  | .ok r => .ok ⟨(), unwind r.state, r.result⟩
  | .error (.return_ s' value) => .ok ⟨(), unwind s', value⟩
  | .error .fuel => .error .fuel
  | .error (.exit user value) => .error (.exit user value)
  | .error (.errexit user value) => .error (.errexit user value)
where
  unwind (s' : State σ) : State σ :=
    { s' with user := popContext s'.user, loopLevel := s.loopLevel, returnCatch := s.returnCatch }

/-- `execute_function` -/
def executeFunction (flags : Bool) (body : Command A R) (popContext : σ → σ) (s : State σ) :
    Run σ (Ran σ Unit) :=
  -- the body is a copy of the function's
  leaveFunction popContext s (execute (body.mark flags)
    { s with
      loopLevel := if 43 < env.shellCompatibilityLevel then 0 else s.loopLevel
      returnCatch := s.returnCatch + 1 })

/-- `execute_simple_command` -/
def executeSimpleCommand (flags : Bool) (a : A) (s : State σ) : Run σ (Ran σ Unit) :=
  match env.simple a s.user with
  | .run user result => .ok ⟨(), { s with user := user }, result⟩
  | .break_ user newbreak => .ok (breakBuiltin newbreak { s with user := user })
  | .continue_ user newcont => .ok (continueBuiltin newcont { s with user := user })
  | .return_ user value =>
    if s.returnCatch ≠ 0 then .error (.return_ { s with user := user } value)
    else .ok ⟨(), { s with user := user }, 2⟩
  | .exit user value => .error (.exit user value)
  | .call user body popContext =>
    executeFunction env execute flags body popContext { s with user := user }

/-! ## All commands -/

/-- The end of a command whose failure counts: `set -e` may end the shell. -/
def checkErrexit {T : Type} (h : Head R) (tree : T) (s : State σ) (result : Nat) : Run σ (Ran σ T) :=
  if h.ignoreReturn = false ∧ h.invertReturn = false ∧ env.errexit s.user ∧ result ≠ 0 then
    .error (.errexit s.user result)
  else .ok ⟨tree, s, result⟩

/-- The `switch` of `execute_command_internal`. -/
def executeValue (fuel : Nat) (h : Head R) (s : State σ) : Value A R → Run σ (Ran σ (Value A R))
  | .simple flags a => do
    let flags := flags || (h.ignoreReturn || h.invertReturn)
    let r ← executeSimpleCommand env execute flags a s
    checkErrexit env h (.simple flags a) r.state r.result
  | .pipeline a =>
    let r := env.forked a s.user
    checkErrexit env h (.pipeline a) { s with user := r.1 } r.2
  | .misc a =>
    let r := env.misc a s.user
    checkErrexit env h (.misc a) { s with user := r.1 } r.2
  | .forIn flags a action =>
    executeForCommand env execute (flags || (h.ignoreReturn || h.invertReturn)) a action s
  | .arithFor flags init test step action =>
    executeArithForCommand env execute fuel (flags || (h.ignoreReturn || h.invertReturn)) init
      test step action s
  | .select flags a action =>
    executeSelectCommand env execute fuel (flags || (h.ignoreReturn || h.invertReturn)) a action s
  | .caseIn flags a clauses =>
    executeCaseCommand env execute (flags || (h.ignoreReturn || h.invertReturn)) a clauses s
  | .while_ flags isUntil test action =>
    executeWhileOrUntil execute fuel (flags || (h.ignoreReturn || h.invertReturn)) isUntil test
      action s
  | .if_ flags test trueCase falseCase =>
    executeIfCommand execute (flags || (h.ignoreReturn || h.invertReturn)) test trueCase falseCase s
  | .group command => do
    let r ← execute (command.mark (h.ignoreReturn || h.invertReturn)) s
    .ok (r.within .group)
  | .connection connector first second =>
    executeConnection execute h.ignoreReturn h.invertReturn connector first second s

/-- The exit status that a command with `!` returns. -/
def inverted (invert : Bool) (result : Nat) : Nat :=
  if invert then if result = 0 then 1 else 0 else result

/-- A `return` unwinds the redirections of the commands it leaves. -/
def unwindRedirects {T : Type} (undo : σ → σ) (x : Run σ (Ran σ T)) : Run σ (Ran σ T) :=
  match x with
  | .error (.return_ s value) => .error (.return_ { s with user := undo s.user } value)
  | x => x

/-- `execute_command_internal` -/
def executeCommandInternal : Nat → Executor σ A R
  | 0, _, _ => .error .fuel
  | n + 1, command, s =>
    if s.breaking ≠ 0 ∨ s.continuing ≠ 0 then .ok ⟨command, s, s.last⟩
    else match command with
    | .null => .ok ⟨.null, s, 0⟩
    | .subshell h a =>
      let h := { h with ignoreReturn := h.ignoreReturn || (env.errexit s.user && h.invertReturn) }
      let r := env.forked a s.user
      let result := inverted h.invertReturn r.2
      checkErrexit env h (.subshell h a) { s with user := r.1, last := result } result
    | .mk h value =>
      let h := { h with ignoreReturn := h.ignoreReturn || (env.errexit s.user && h.invertReturn) }
      match env.redirect h.redirects s.user with
      | .error user =>
        -- the status is not inverted
        checkErrexit env h (.mk h value) { s with user := user, last := 1 } 1
      | .ok redirected => do
        let r ← unwindRedirects redirected.2
          (executeValue env (executeCommandInternal n) n h { s with user := redirected.1 } value)
        let result := inverted h.invertReturn r.result
        .ok ⟨.mk h r.tree, { r.state with user := redirected.2 r.state.user, last := result },
          result⟩

end Basht.Execute
