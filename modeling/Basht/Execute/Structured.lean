import Basht.Execute.Commands

/-!
# What commands mean

The same commands with structured exits. A command ends with the number of loops that are still to
be left, if any (`Exit`), and what follows it inside of them is not looked at. Where `set -e` does
not count is read off the place of a command: `ignored` is passed down, no mark is made or read, and
there are no counters.
-/

namespace Basht.Execute

variable {σ A R V : Type}

/-- How a command ends: the loops that are left beside the innermost one. -/
inductive Exit where
  | next
  | break_ (outer : Nat)
  | continue_ (outer : Nat)
deriving DecidableEq

namespace Exit

/-- The exit behind a loop that is left. -/
def leave : Exit → Exit
  | .break_ (k + 1) => .break_ k
  | .continue_ (k + 1) => .continue_ k
  | _ => .next

/-- The loop goes on. -/
def again : Exit → Bool
  | .next | .continue_ 0 => true
  | _ => false

/-- No more loops are left than there are. -/
def Within (loops : Nat) : Exit → Prop
  | .next => True
  | .break_ k | .continue_ k => k < loops

/-- `breaking` and `continuing`. -/
def breaking : Exit → Nat
  | .break_ k => k + 1
  | _ => 0

def continuing : Exit → Nat
  | .continue_ k => k + 1
  | _ => 0

def ofCounters : Nat → Nat → Exit
  | k + 1, _ => .break_ k
  | 0, k + 1 => .continue_ k
  | 0, 0 => .next

end Exit

/-- Where a command is: whether `set -e` ignores it, the loops around it, and whether `return` has a
place to go. -/
structure Place where
  ignored : Bool
  loops : Nat
  returns : Bool

def Place.ignoring (b : Bool) (p : Place) : Place := { p with ignored := p.ignored || b }

def Place.inLoop (p : Place) : Place := { p with loops := p.loops + 1 }

/-- What commands read and write: `user`, and `$?`. -/
structure Store (σ : Type) where
  user : σ
  last : Nat

structure Done (σ : Type) where
  store : Store σ
  result : Nat
  exit : Exit

abbrev Eval (σ : Type) : Type → Type := Except (Stop σ (Store σ))

def Done.leaveLoop (d : Done σ) : Done σ := { d with exit := d.exit.leave }

variable (env : Env σ A R V) (eval : Place → Command A R → Store σ → Eval σ (Done σ))

/-- The next command, unless loops are being left: then it is not looked at. -/
def andThen (d : Done σ) (k : Store σ → Eval σ (Done σ)) : Eval σ (Done σ) :=
  if d.exit = .next then k d.store else .ok { d with result := d.store.last }

/-! ## Loops -/

/-- `while` and `until`. An exit in the condition is one of the loop; the exit status of the
condition still decides whether the loop has ended. -/
def whileMeans (p : Place) (isUntil : Bool) (test action : Command A R) :
    Nat → Nat → Store σ → Eval σ (Done σ)
  | 0, _, _ => .error .fuel
  | n + 1, bodyStatus, s => do
    let t ← eval (p.ignoring true) test s
    if decide (t.result = 0) = isUntil then
      .ok { t.leaveLoop with result := bodyStatus }
    else do
      let b ← andThen t (eval p action)
      if b.exit.again then whileMeans p isUntil test action n b.result b.store
      else .ok b.leaveLoop

def forMeans (p : Place) (a : A) (action : Command A R) :
    List V → Nat → Store σ → Eval σ (Done σ)
  | [], retval, s => .ok ⟨s, retval, .next⟩
  | w :: list, _, s =>
    match env.bind a w s.user with
    | .error user => .ok ⟨{ s with user := user }, 1, .next⟩
    | .ok user => do
      let b ← eval p action { s with user := user }
      if b.exit.again then forMeans p a action list b.result b.store else .ok b.leaveLoop

def arithForMeans (p : Place) (test step : A) (action : Command A R) :
    Nat → Bool → Nat → Store σ → Eval σ (Done σ)
  | 0, _, _, _ => .error .fuel
  | n + 1, expok, bodyStatus, s =>
    if expok = false then .ok ⟨s, 1, .next⟩
    else
      let e := env.arith test s.user
      let s := { s with user := e.1 }
      if e.2.2 = false then .ok ⟨s, 1, .next⟩
      else if e.2.1 = 0 then .ok ⟨s, bodyStatus, .next⟩
      else do
        let b ← eval p action s
        if b.exit.again then
          let e := env.arith step b.store.user
          arithForMeans p test step action n e.2.2 b.result { b.store with user := e.1 }
        else .ok b.leaveLoop

def selectMeans (p : Place) (a : A) (list : List V) (action : Command A R) :
    Nat → Store σ → Eval σ (Done σ)
  | 0, _ => .error .fuel
  | n + 1, s =>
    match env.query a list s.user with
    | (user, none) => .ok ⟨{ s with user := user }, 1, .next⟩
    | (user, some selection) =>
      match env.bind a selection user with
      | .error user => .ok ⟨{ s with user := user }, 1, .next⟩
      | .ok user => do
        let b ← eval p action { s with user := user }
        if b.exit.again then selectMeans p a list action n b.store else .ok b.leaveLoop

/-! ## Conditions -/

/-- The clauses of a `case`, behind what the ones before have done. Behind `;;&` the patterns are
looked at also where loops are being left. -/
def clausesMean (p : Place) (word : V) : Bool → Clauses A R → Done σ → Eval σ (Done σ)
  | _, .nil, d => .ok d
  | matched, .cons patterns fallthrough testnext action next, d =>
    let m := if matched then (d.store.user, true) else env.strmatch patterns word d.store.user
    let d := { d with store := { d.store with user := m.1 } }
    if m.2 then do
      let b ← andThen d (eval p action)
      if fallthrough || testnext then clausesMean p word fallthrough next b else .ok b
    else clausesMean p word false next d

def connectionMeans (p : Place) : Connector → Command A R → Command A R → Store σ →
    Eval σ (Done σ)
  | .semicolon, first, second, s => do
    let r ← eval p first s
    andThen r (eval p second)
  | .andAnd, first, second, s => do
    let r ← eval (p.ignoring true) first s
    if r.result = 0 then andThen r (eval p second) else .ok r
  | .orOr, first, second, s => do
    let r ← eval (p.ignoring true) first s
    if r.result ≠ 0 then andThen r (eval p second) else .ok r

/-! ## Simple commands -/

/-- `break`, and a `continue` with a bad count. -/
def breakMeans (p : Place) (newbreak : Int) (s : Store σ) : Done σ :=
  if p.loops = 0 then ⟨s, 0, .next⟩
  else if newbreak ≤ 0 then ⟨s, 1, .break_ (p.loops - 1)⟩
  else ⟨s, 0, .break_ (min newbreak.toNat p.loops - 1)⟩

def continueMeans (p : Place) (newcont : Int) (s : Store σ) : Done σ :=
  if p.loops = 0 then ⟨s, 0, .next⟩
  else if newcont ≤ 0 then ⟨s, 1, .break_ (p.loops - 1)⟩
  else ⟨s, 0, .continue_ (min newcont.toNat p.loops - 1)⟩

/-- A function is left, also by a `return`. -/
def functionLeft (popContext : σ → σ) : Eval σ (Done σ) → Eval σ (Done σ)
  | .ok d => .ok { d with store := { d.store with user := popContext d.store.user } }
  | .error (.return_ s value) => .ok ⟨{ s with user := popContext s.user }, value, .next⟩
  | .error .fuel => .error .fuel
  | .error (.exit user value) => .error (.exit user value)
  | .error (.errexit user value) => .error (.errexit user value)

/-- The body of a function is not in the loops around the call. -/
def functionMeans (p : Place) (body : Command A R) (popContext : σ → σ) (s : Store σ) :
    Eval σ (Done σ) :=
  functionLeft popContext (eval
    { p with loops := if 43 < env.shellCompatibilityLevel then 0 else p.loops, returns := true }
    body s)

def simpleMeans (p : Place) (a : A) (s : Store σ) : Eval σ (Done σ) :=
  match env.simple a s.user with
  | .run user result => .ok ⟨{ s with user := user }, result, .next⟩
  | .break_ user newbreak => .ok (breakMeans p newbreak { s with user := user })
  | .continue_ user newcont => .ok (continueMeans p newcont { s with user := user })
  | .return_ user value =>
    if p.returns then .error (.return_ { s with user := user } value)
    else .ok ⟨{ s with user := user }, 2, .next⟩
  | .exit user value => .error (.exit user value)
  | .call user body popContext =>
    functionMeans env eval p body popContext { s with user := user }

/-! ## All commands -/

/-- `set -e` ends the shell where a failure counts. -/
def unlessErrexit (p : Place) (d : Done σ) : Eval σ (Done σ) :=
  if p.ignored = false ∧ env.errexit d.store.user ∧ d.result ≠ 0 then
    .error (.errexit d.store.user d.result)
  else .ok d

def valueMeans (fuel : Nat) (p : Place) (s : Store σ) : Value A R → Eval σ (Done σ)
  | .simple _ a => do
    let d ← simpleMeans env eval p a s
    unlessErrexit env p d
  | .pipeline a =>
    let r := env.forked a s.user
    unlessErrexit env p ⟨{ s with user := r.1 }, r.2, .next⟩
  | .misc a =>
    let r := env.misc a s.user
    unlessErrexit env p ⟨{ s with user := r.1 }, r.2, .next⟩
  | .forIn _ a action =>
    match env.words a s.user with
    | .error user => .ok ⟨{ s with user := user }, 1, .next⟩
    | .ok list => forMeans env eval p.inLoop a action list.2 0 { s with user := list.1 }
  | .arithFor _ init test step action =>
    let e := env.arith init s.user
    arithForMeans env eval p.inLoop test step action fuel e.2.2 0 { s with user := e.1 }
  | .select _ a action =>
    match env.selectWords a s.user with
    | .error user => .ok ⟨{ s with user := user }, 1, .next⟩
    | .ok list =>
      if list.2 = [] then .ok ⟨{ s with user := list.1 }, 0, .next⟩
      else selectMeans env eval p.inLoop a list.2 action fuel { s with user := list.1 }
  | .caseIn _ a clauses =>
    let w := env.caseWord a s.user
    clausesMean env eval p w.2 false clauses ⟨{ s with user := w.1 }, 0, .next⟩
  | .while_ _ isUntil test action => whileMeans eval p.inLoop isUntil test action fuel 0 s
  | .if_ _ test trueCase falseCase => do
    let t ← eval (p.ignoring true) test s
    andThen t (eval p (if t.result = 0 then trueCase else falseCase))
  | .group command => eval p command s
  | .connection connector first second => connectionMeans eval p connector first second s

/-- What a redirection has set up is undone, also where a function is left. -/
def undone (undo : σ → σ) : Eval σ (Done σ) → Eval σ (Done σ)
  | .ok d => .ok { d with store := { d.store with user := undo d.store.user } }
  | .error (.return_ s value) => .error (.return_ { s with user := undo s.user } value)
  | .error e => .error e

/-- The meaning of a command. -/
def means : Nat → Place → Command A R → Store σ → Eval σ (Done σ)
  | 0, _, _, _ => .error .fuel
  | _ + 1, _, .null, s => .ok ⟨s, 0, .next⟩
  | _ + 1, p, .subshell h a, s =>
    let r := env.forked a s.user
    let result := inverted h.invertReturn r.2
    unlessErrexit env (p.ignoring h.invertReturn) ⟨⟨r.1, result⟩, result, .next⟩
  | n + 1, p, .mk h value, s =>
    match env.redirect h.redirects s.user with
    | .error user => unlessErrexit env (p.ignoring h.invertReturn) ⟨⟨user, 1⟩, 1, .next⟩
    | .ok redirected => do
      let d ← undone redirected.2 (valueMeans env (means n) n (p.ignoring h.invertReturn)
        { s with user := redirected.1 } value)
      let result := inverted h.invertReturn d.result
      .ok ⟨{ d.store with last := result }, result, d.exit⟩

end Basht.Execute
