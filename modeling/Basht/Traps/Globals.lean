import Basht.Traps.Pending

/-!
# The variables of the shell around a trap

`run_pending_traps` and `_run_trap_internal` of `trap.c`, and `run_sigchld_trap` of `jobs.c`, with
the variables that they save. What the commands of an action do to these variables is free, up to
what they must put back: a nested call, a function or `eval` may come anywhere. Actions that leave
through `return` or an error are not runs here. `EVALNEST_MAX` is 0, so the test of `evalnest`
never fails.
-/

namespace Basht.Traps

/-- An entry of `trap_list`: `DEFAULT_SIG`, `IGNORE_SIG`, `IMPOSSIBLE_TRAP_HANDLER` or a string. -/
inductive Trap where
  | default
  | ignore
  | impossible
  | command (string : String)
deriving DecidableEq

/-- The bits `SIG_TRAPPED`, `SIG_IGNORED`, `SIG_INPROGRESS` and `SIG_CHANGED` of `sigmodes`. -/
structure Modes where
  trapped : Bool
  ignored : Bool
  inProgress : Bool
  changed : Bool

/-- A variable: its value, `att_readonly`, and what an assignment stores of a string (an integer is
evaluated, letters may change case). -/
structure Variable where
  value : Option String
  readonly : Bool
  store : String → String

namespace Variable

def unset : Variable := ⟨none, false, id⟩

/-- `bind_variable` -/
def bind (v : Variable) (s : String) : Variable :=
  if v.readonly then v else { v with value := some (v.store s) }

/-- `restore_bash_trapsig` -/
def restore (v : Variable) : Option String → Variable
  | none => unset
  | some oldval => v.bind oldval

/-- An assignment stores the string it is given. -/
def Plain (v : Variable) : Prop := v.readonly = false ∧ ∀ s, v.store s = s

end Variable

/-- `restore_pipestatus_array`: without an array there is nothing to assign. -/
def restorePipestatus : Option (List String) → Option (List String) → Option (List String)
  | none, _ => none
  | some _, a => a

/-- What `save_parser_state` saves: `token`, `shell_eof_token` and the rest. -/
structure Parser (P : Type) where
  token : Option String
  shellEofToken : Nat
  rest : P

/-- `save_parser_state` forces a new `token`. -/
def Parser.save {P : Type} (p : Parser P) : Parser P := { p with token := none }

/-- The variables of the shell; `nest` is `funcnest + sourcenest`. -/
structure Globals (P E W : Type) where
  catchFlag : Bool
  pendingTraps : Nat → Nat
  trapList : Nat → Trap
  sigmodes : Nat → Modes
  runningTrap : Nat
  trapReturnContext : Int
  nest : Nat
  interruptState : Nat
  lastCommandExitValue : Nat
  trapSavedExitValue : Nat
  pipestatus : Option (List String)
  bashTrapsig : Variable
  temporaryEnv : Option E
  substAssignVarlist : Option W
  evalnest : Nat
  parser : Parser P

/-- What `run_pending_traps` saves before its loop. -/
structure Saved where
  exitValue : Nat
  pipestatus : Option (List String)
  running : Nat
  context : Int
  trapsig : Option String

/-- `SPECIAL_TRAP`: `EXIT`, `DEBUG`, `ERR` and `RETURN`. -/
def specialTrap (sig : Nat) : Bool := sig = 0 || nsig ≤ sig && sig ≤ nsig + 2

namespace Globals

variable {P E W : Type}

def setPending (g : Globals P E W) (sig n : Nat) : Globals P E W :=
  { g with pendingTraps := Function.update g.pendingTraps sig n }

def setModes (g : Globals P E W) (sig : Nat) (m : Modes) : Globals P E W :=
  { g with sigmodes := Function.update g.sigmodes sig m }

/-- `change_signal` -/
def changeSignal (g : Globals P E W) (sig : Nat) (value : Trap) : Globals P E W :=
  { g with
    trapList := Function.update g.trapList sig value
    sigmodes := Function.update g.sigmodes sig
      { g.sigmodes sig with
        trapped := true
        ignored := value = .ignore
        changed := (g.sigmodes sig).changed || (g.sigmodes sig).inProgress } }

/-- Handlers queue signals. -/
def queue (g : Globals P E W) (pending : Nat → Nat) : Globals P E W :=
  { g with
    catchFlag := true
    pendingTraps := pending }

/-! ## `_run_trap_internal` -/

/-- The test of `_run_trap_internal`. -/
def takes (g : Globals P E W) (sig : Nat) : Bool :=
  (g.sigmodes sig).trapped && !(g.sigmodes sig).ignored && g.trapList sig ≠ .impossible &&
    (!specialTrap sig || !(g.sigmodes sig).inProgress)

/-- Up to `parse_and_execute`. -/
def enterTrap (resetParser : Parser P → Parser P) (g : Globals P E W) (sig : Nat) :
    Globals P E W :=
  { g.setModes sig { g.sigmodes sig with inProgress := true, changed := false } with
    trapSavedExitValue := g.lastCommandExitValue
    bashTrapsig := g.bashTrapsig.bind (toString sig)
    runningTrap := sig + 1
    trapReturnContext := g.nest
    interruptState := 0
    substAssignVarlist := none
    temporaryEnv := none
    parser := if g.parser.shellEofToken ≠ 0
      then { resetParser g.parser.save with shellEofToken := 0 } else g.parser.save
    evalnest := g.evalnest + 1 }

/-- After `parse_and_execute`, in a call that began in `old`. -/
def leaveTrap (old g : Globals P E W) (sig : Nat) : Globals P E W :=
  { g.setModes sig { g.sigmodes sig with
      inProgress := (old.sigmodes sig).inProgress && (g.sigmodes sig).inProgress
      changed := false } with
    evalnest := g.evalnest - 1
    substAssignVarlist := old.substAssignVarlist
    parser := old.parser
    lastCommandExitValue := old.lastCommandExitValue
    pipestatus := restorePipestatus g.pipestatus old.pipestatus
    temporaryEnv := old.temporaryEnv
    bashTrapsig := g.bashTrapsig.restore old.bashTrapsig.value
    runningTrap := old.runningTrap
    interruptState := old.interruptState
    trapReturnContext := old.trapReturnContext }

/-! ## `run_sigchld_trap` -/

/-- Up to the loop; what `restore_default_signal` sets, `change_signal` sets again. -/
def enterSigchld (g : Globals P E W) : Globals P E W :=
  let g₁ := g.changeSignal sigchld .impossible
  { g₁.setModes sigchld { g₁.sigmodes sigchld with trapped := false } with
    substAssignVarlist := none
    temporaryEnv := none
    runningTrap := sigchld + 1 }

/-- `uw_maybe_set_sigchld_trap` -/
def maybeSetSigchldTrap (g : Globals P E W) (trap : Trap) : Globals P E W :=
  if (g.sigmodes sigchld).trapped = false ∧ g.trapList sigchld = .impossible
  then g.changeSignal sigchld trap else g

/-- `run_unwind_frame`, and `running_trap = 0` -/
def leaveSigchld (old g : Globals P E W) : Globals P E W :=
  { g.maybeSetSigchldTrap (old.trapList sigchld) with
    temporaryEnv := old.temporaryEnv
    substAssignVarlist := old.substAssignVarlist
    lastCommandExitValue := old.lastCommandExitValue
    runningTrap := 0 }

/-! ## `run_pending_traps` -/

def saved (g : Globals P E W) : Saved where
  exitValue := g.lastCommandExitValue
  pipestatus := g.pipestatus
  running := g.runningTrap
  context := g.trapReturnContext
  trapsig := g.bashTrapsig.value

/-- `catch_flag = trapped_signal_received = 0`, and `$?` is kept. -/
def enterPending (g : Globals P E W) : Globals P E W :=
  { g with
    catchFlag := false
    trapSavedExitValue := g.lastCommandExitValue }

def leavePending (old : Saved) (g : Globals P E W) : Globals P E W :=
  { g with
    pipestatus := restorePipestatus g.pipestatus old.pipestatus
    bashTrapsig := g.bashTrapsig.restore old.trapsig
    lastCommandExitValue := old.exitValue }

/-- `sig` is pending. -/
def beginTurn (g : Globals P E W) (sig : Nat) : Globals P E W :=
  { g with
    runningTrap := sig + 1
    trapReturnContext := g.nest
    bashTrapsig := g.bashTrapsig.bind (toString sig) }

def endTurn (old : Saved) (g : Globals P E W) (sig : Nat) : Globals P E W :=
  { g.setPending sig 0 with
    runningTrap := old.running
    trapReturnContext := old.context }

/-- `SIGINT`, up to `_run_trap_internal` in `run_interrupt_trap` -/
def beginInterrupt (old : Saved) (g : Globals P E W) : Globals P E W :=
  { (g.beginTurn sigint).setPending sigint 0 with
    runningTrap := old.running
    trapReturnContext := old.context
    catchFlag := false }

/-- `SIGCHLD`, up to `run_sigchld_trap` -/
def beginSigchld (g : Globals P E W) : Globals P E W :=
  { ((g.beginTurn sigchld).setModes sigchld
      { g.sigmodes sigchld with inProgress := true }).setPending sigchld 0 with
    evalnest := g.evalnest + 1 }

def endSigchld (g : Globals P E W) : Globals P E W :=
  { g.setModes sigchld { g.sigmodes sigchld with inProgress := false } with
    runningTrap := 0
    evalnest := g.evalnest - 1 }

/-- Any other signal, up to `parse_and_execute` -/
def beginAction (g : Globals P E W) (sig : Nat) : Globals P E W :=
  { (g.beginTurn sig).setPending sig 0 with
    parser := g.parser.save
    substAssignVarlist := none
    temporaryEnv := none
    evalnest := g.evalnest + 1 }

/-- After `parse_and_execute`, in a turn that began in `old`. -/
def endAction (old g : Globals P E W) : Globals P E W :=
  { g with
    evalnest := g.evalnest - 1
    substAssignVarlist := old.substAssignVarlist
    parser := old.parser
    lastCommandExitValue := old.lastCommandExitValue
    pipestatus := restorePipestatus g.pipestatus old.pipestatus
    temporaryEnv := old.temporaryEnv }

end Globals

/-- What a command of an action may do: it leaves `evalnest` as it was and `PIPESTATUS` an array.
With `declares` it may give `BASH_TRAPSIG` attributes. -/
structure Command {P E W : Type} (declares : Prop) (g g' : Globals P E W) : Prop where
  evalnest : g'.evalnest = g.evalnest
  pipestatus : g.pipestatus.isSome → g'.pipestatus.isSome
  bashTrapsig : ¬declares → g.bashTrapsig.Plain → g'.bashTrapsig.Plain

/-- What runs. `skips` says that the turn of `SIGCHLD` ended in a `continue`. -/
inductive Call where
  /-- part of an action -/
  | commands
  /-- `parse_and_execute`, so many times -/
  | actions (n : Nat)
  | runSigchldTrap (nchild : Nat)
  | runTrapInternal (sig : Nat)
  /-- an iteration of the loop of `run_pending_traps` -/
  | turn (old : Saved) (sig : Nat) (skips : Bool)
  /-- the iterations from `sig` on -/
  | turns (old : Saved) (sig : Nat) (skips : Bool)
  | runPendingTraps (skips : Bool)

/-- The runs that complete. -/
inductive Returns {P E W : Type} (resetParser : Parser P → Parser P) (declares : Prop) :
    Call → Globals P E W → Globals P E W → Prop
  | nothing (g : Globals P E W) : Returns resetParser declares .commands g g
  | command {g g' : Globals P E W} (h : Command declares g g') :
      Returns resetParser declares .commands g g'
  | sequence {g g₁ g' : Globals P E W} (h : Returns resetParser declares .commands g g₁)
      (h' : Returns resetParser declares .commands g₁ g') :
      Returns resetParser declares .commands g g'
  /-- `eval` -/
  | eval {g g' : Globals P E W}
      (h : Returns resetParser declares .commands { g with evalnest := g.evalnest + 1 } g') :
      Returns resetParser declares .commands g { g' with evalnest := g.evalnest }
  /-- a function or `source` -/
  | function {g g' : Globals P E W}
      (h : Returns resetParser declares .commands { g with nest := g.nest + 1 } g') :
      Returns resetParser declares .commands g { g' with nest := g.nest }
  | pendingTraps {g g' : Globals P E W} {skips : Bool}
      (h : Returns resetParser declares (.runPendingTraps skips) g g') :
      Returns resetParser declares .commands g g'
  /-- `run_debug_trap` and the like -/
  | trapInternal {g g' : Globals P E W} {sig : Nat}
      (h : Returns resetParser declares (.runTrapInternal sig) g g') :
      Returns resetParser declares .commands g g'
  /-- `wait` -/
  | waitSigchld {g g' : Globals P E W} {nchild : Nat}
      (h : Returns resetParser declares (.runSigchldTrap nchild) g g') :
      Returns resetParser declares .commands g g'
  | actionsZero (g : Globals P E W) : Returns resetParser declares (.actions 0) g g
  | actionsSucc {g g₁ g' : Globals P E W} {n : Nat}
      (h : Returns resetParser declares .commands g g₁)
      (h' : Returns resetParser declares (.actions n) g₁ g') :
      Returns resetParser declares (.actions (n + 1)) g g'
  | sigchldTrap {g g' : Globals P E W} {nchild : Nat}
      (h : Returns resetParser declares (.actions nchild) g.enterSigchld g') :
      Returns resetParser declares (.runSigchldTrap nchild) g (g.leaveSigchld g')
  | untaken {g : Globals P E W} {sig : Nat} (htakes : g.takes sig = false) :
      Returns resetParser declares (.runTrapInternal sig) g
        { g with trapSavedExitValue := g.lastCommandExitValue }
  | taken {g g' : Globals P E W} {sig : Nat} (htakes : g.takes sig = true)
      (h : Returns resetParser declares .commands (g.enterTrap resetParser sig) g') :
      Returns resetParser declares (.runTrapInternal sig) g (g.leaveTrap g' sig)
  | notPending {g : Globals P E W} {old : Saved} {sig : Nat} (hpending : g.pendingTraps sig = 0) :
      Returns resetParser declares (.turn old sig false) g g
  /-- `run_interrupt_trap (0); CLRINTERRUPT` -/
  | interrupt {g g' : Globals P E W} {old : Saved} (hpending : g.pendingTraps sigint ≠ 0)
      (h : Returns resetParser declares (.runTrapInternal sigint) (g.beginInterrupt old) g') :
      Returns resetParser declares (.turn old sigint false) g
        (Globals.endTurn old { g' with interruptState := 0 } sigint)
  /-- `run_sigchld_trap (x); running_trap = 0; continue` -/
  | sigchld {g g' : Globals P E W} {old : Saved} (hpending : g.pendingTraps sigchld ≠ 0)
      (htrap : g.trapList sigchld ≠ .impossible)
      (hprogress : (g.sigmodes sigchld).inProgress = false)
      (h : Returns resetParser declares (.runSigchldTrap (g.pendingTraps sigchld))
        g.beginSigchld g') :
      Returns resetParser declares (.turn old sigchld true) g g'.endSigchld
  /-- `running_trap = 0; continue`, while the trap of `SIGCHLD` runs -/
  | sigchldBusy {g : Globals P E W} {old : Saved} (hpending : g.pendingTraps sigchld ≠ 0)
      (hprogress : (g.sigmodes sigchld).inProgress = true) :
      Returns resetParser declares (.turn old sigchld true) g
        { g.beginTurn sigchld with runningTrap := 0 }
  /-- `bad value in trap_list` -/
  | badValue {g : Globals P E W} {old : Saved} {sig : Nat} (hpending : g.pendingTraps sig ≠ 0)
      (hint : sig ≠ sigint)
      (hchld : sig = sigchld →
        g.trapList sigchld = .impossible ∧ (g.sigmodes sigchld).inProgress = false)
      (htrap : g.trapList sig = .default ∨ g.trapList sig = .ignore ∨
        g.trapList sig = .impossible) :
      Returns resetParser declares (.turn old sig false) g
        (Globals.endTurn old (g.beginTurn sig) sig)
  | action {g g' : Globals P E W} {old : Saved} {sig : Nat} {string : String}
      (hpending : g.pendingTraps sig ≠ 0) (hint : sig ≠ sigint) (hchld : sig ≠ sigchld)
      (htrap : g.trapList sig = .command string)
      (h : Returns resetParser declares .commands (g.beginAction sig) g') :
      Returns resetParser declares (.turn old sig false) g
        (Globals.endTurn old (g.endAction g') sig)
  | turnsOver (g : Globals P E W) (old : Saved) :
      Returns resetParser declares (.turns old nsig false) g g
  | turnsNext {g g₁ g' : Globals P E W} {old : Saved} {sig : Nat} {skips skips' : Bool}
      (hsig : sig < nsig) (h : Returns resetParser declares (.turn old sig skips) g g₁)
      (h' : Returns resetParser declares (.turns old (sig + 1) skips') g₁ g') :
      Returns resetParser declares (.turns old sig (skips || skips')) g g'
  /-- A handler runs between two iterations. -/
  | turnsQueue {g g' : Globals P E W} {old : Saved} {sig : Nat} {skips : Bool}
      (pending : Nat → Nat)
      (h : Returns resetParser declares (.turns old sig skips) (g.queue pending) g') :
      Returns resetParser declares (.turns old sig skips) g g'
  /-- No signal is caught, or `SIGWINCH` comes again during its trap. -/
  | pendingRefused {g : Globals P E W}
      (hrefused : g.catchFlag = false ∨
        g.runningTrap = sigwinch + 1 ∧ g.pendingTraps sigwinch ≠ 0) :
      Returns resetParser declares (.runPendingTraps false) g g
  | pendingRun {g g' : Globals P E W} {skips : Bool} (hflag : g.catchFlag = true)
      (hwinch : ¬(g.runningTrap = sigwinch + 1 ∧ g.pendingTraps sigwinch ≠ 0))
      (h : Returns resetParser declares (.turns g.saved 1 skips) g.enterPending g') :
      Returns resetParser declares (.runPendingTraps skips) g (Globals.leavePending g.saved g')

end Basht.Traps
