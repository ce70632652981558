import Mathlib.Logic.Function.Basic

/-!
# Pending traps

`run_pending_traps`, `run_interrupt_trap`, `run_sigchld_trap`, `trap_handler` and
`queue_sigchld_trap`, from `trap.c` and `jobs.c`, as steps. A signal may arrive between any two
steps; a trap action calls `run_pending_traps` again, ends, or returns from the function that
was interrupted. The traps do not change: `trapped` says which signals have a command.
-/

namespace Basht.Traps

/-- `NSIG`. -/
def nsig : Nat := 65

def sigint : Nat := 2

def sigchld : Nat := 17

def sigwinch : Nat := 28

/-- Where a call of `run_pending_traps` is. -/
inductive Pc where
  /-- before `catch_flag = trapped_signal_received = 0` -/
  | enter
  /-- before the test of `pending_traps[sig]` -/
  | test
  /-- `SIGINT`: before `pending_traps[sig] = 0` -/
  | intClear
  /-- in `run_interrupt_trap`, before `pending_traps[SIGINT] = 0` -/
  | interruptClear
  /-- before `catch_flag = 0` -/
  | interruptFlag
  /-- in `_run_trap_internal`, before the action -/
  | interruptStart
  | interruptAction
  /-- `SIGCHLD`: before `x = pending_traps[sig]` -/
  | chldRead
  /-- before `pending_traps[sig] = 0` -/
  | chldClear (x : Nat)
  /-- in `run_sigchld_trap`, with `x` actions to go -/
  | chldLoop (x : Nat)
  | chldAction (x : Nat)
  /-- any other signal: before `pending_traps[sig] = 0` -/
  | clear
  /-- before the action -/
  | start
  | action
  /-- before the last `pending_traps[sig] = 0` -/
  | finish

/-- A call of `run_pending_traps`. -/
structure Frame where
  sig : Nat
  oldRunning : Nat
  pc : Pc

/-- `pending_traps`, `catch_flag`, `sigmodes[SIGCHLD] & SIG_INPROGRESS`, whether
`trap_list[SIGCHLD]` is `IMPOSSIBLE_TRAP_HANDLER`, `running_trap`, and the active calls, the
innermost first. -/
structure Shell where
  pendingTraps : Nat → Nat
  catchFlag : Bool
  inProgress : Bool
  impossible : Bool
  runningTrap : Nat
  calls : List Frame

/-- What a step shows. -/
inductive Label where
  | arrive (sig : Nat)
  | call
  | refuse
  | clearFlag
  | start (sig : Nat)
  | clearPending (sig : Nat)
  | leave
  | return
  | silent

namespace Pc

/-- The action of the call is running. -/
def InAction : Pc → Prop
  | interruptAction | chldAction _ | action => True
  | _ => False

/-- The call is in the branch of `SIGCHLD`. -/
def InChld : Pc → Prop
  | chldRead | chldClear _ | chldLoop _ | chldAction _ => True
  | _ => False

/-- Where a pending signal that is trapped takes the call. -/
def ofSignal (trapped : Nat → Bool) (s : Shell) (sig : Nat) : Pc :=
  if sig = sigint then intClear
  else if sig = sigchld ∧ ¬s.impossible ∧ ¬s.inProgress then chldRead
  else if trapped sig = false ∨ sig = sigchld ∧ s.impossible then finish
  else clear

end Pc

namespace Shell

def initial : Shell where
  pendingTraps _ := 0
  catchFlag := false
  inProgress := false
  impossible := false
  runningTrap := 0
  calls := []

def setPending (s : Shell) (sig n : Nat) : Shell :=
  { s with pendingTraps := Function.update s.pendingTraps sig n }

/-- `set_trap_state`, and `queue_sigchld_trap` with `n` children. -/
def queue (s : Shell) (sig n : Nat) : Shell :=
  { s.setPending sig (s.pendingTraps sig + n) with catchFlag := true }

def setCalls (s : Shell) (calls : List Frame) : Shell := { s with calls }

end Shell

/-- A step of the shell or of a signal handler. -/
inductive Step (trapped : Nat → Bool) : Shell → Label → Shell → Prop
  /-- `trap_handler` -/
  | trapHandler (s : Shell) (sig : Nat) (hsig : 1 ≤ sig ∧ sig < nsig)
      (htrapped : trapped sig = true) (hchld : sig = sigchld → s.impossible = false) :
      Step trapped s (.arrive sig) (s.queue sig 1)
  /-- `queue_sigchld_trap` -/
  | queueSigchldTrap (s : Shell) (n : Nat) (hn : 0 < n) (htrapped : trapped sigchld = true) :
      Step trapped s (.arrive sigchld) (s.queue sigchld n)
  /-- `run_pending_traps` returns at once. -/
  | refuse (s : Shell) (htop : ∀ f ∈ s.calls.head?, f.pc.InAction)
      (hflag : s.catchFlag = false ∨
        s.runningTrap = sigwinch + 1 ∧ s.pendingTraps sigwinch ≠ 0) :
      Step trapped s .refuse s
  /-- `run_pending_traps` is called. -/
  | call (s : Shell) (htop : ∀ f ∈ s.calls.head?, f.pc.InAction) (hflag : s.catchFlag = true)
      (hwinch : ¬(s.runningTrap = sigwinch + 1 ∧ s.pendingTraps sigwinch ≠ 0)) :
      Step trapped s .call (s.setCalls (⟨1, s.runningTrap, .enter⟩ :: s.calls))
  | enter (s : Shell) (sig old : Nat) (rest : List Frame)
      (hcalls : s.calls = ⟨sig, old, .enter⟩ :: rest) :
      Step trapped s .clearFlag
        { s.setCalls (⟨sig, old, .test⟩ :: rest) with catchFlag := false }
  /-- The loop is over. -/
  | done (s : Shell) (old : Nat) (rest : List Frame)
      (hcalls : s.calls = ⟨nsig, old, .test⟩ :: rest) :
      Step trapped s .return (s.setCalls rest)
  | skip (s : Shell) (sig old : Nat) (rest : List Frame)
      (hcalls : s.calls = ⟨sig, old, .test⟩ :: rest) (hsig : sig < nsig)
      (hpending : s.pendingTraps sig = 0) :
      Step trapped s .silent (s.setCalls (⟨sig + 1, old, .test⟩ :: rest))
  /-- `SIGCHLD` while its trap runs: `running_trap = 0; continue`. -/
  | chldSkip (s : Shell) (old : Nat) (rest : List Frame)
      (hcalls : s.calls = ⟨sigchld, old, .test⟩ :: rest)
      (hpending : s.pendingTraps sigchld ≠ 0) (hprogress : s.inProgress = true) :
      Step trapped s .silent
        { s.setCalls (⟨sigchld + 1, old, .test⟩ :: rest) with runningTrap := 0 }
  | found (s : Shell) (sig old : Nat) (rest : List Frame)
      (hcalls : s.calls = ⟨sig, old, .test⟩ :: rest) (hsig : sig < nsig)
      (hpending : s.pendingTraps sig ≠ 0) (hprogress : sig = sigchld → s.inProgress = false) :
      Step trapped s .silent
        { s.setCalls (⟨sig, old, .ofSignal trapped s sig⟩ :: rest) with
          runningTrap := sig + 1
          inProgress := s.inProgress || (sig = sigchld && !s.impossible) }
  /-- `pending_traps[sig] = 0`, and `running_trap = old_running` -/
  | intClear (s : Shell) (sig old : Nat) (rest : List Frame)
      (hcalls : s.calls = ⟨sig, old, .intClear⟩ :: rest) :
      Step trapped s .silent
        { (s.setPending sig 0).setCalls (⟨sig, old, .interruptClear⟩ :: rest) with
          runningTrap := old }
  | interruptClear (s : Shell) (sig old : Nat) (rest : List Frame)
      (hcalls : s.calls = ⟨sig, old, .interruptClear⟩ :: rest) :
      Step trapped s .silent
        ((s.setPending sigint 0).setCalls (⟨sig, old, .interruptFlag⟩ :: rest))
  | interruptFlag (s : Shell) (sig old : Nat) (rest : List Frame)
      (hcalls : s.calls = ⟨sig, old, .interruptFlag⟩ :: rest) :
      Step trapped s .clearFlag
        { s.setCalls (⟨sig, old, .interruptStart⟩ :: rest) with catchFlag := false }
  | interruptStart (s : Shell) (sig old : Nat) (rest : List Frame)
      (hcalls : s.calls = ⟨sig, old, .interruptStart⟩ :: rest) (htrapped : trapped sigint = true) :
      Step trapped s (.start sigint)
        { s.setCalls (⟨sig, old, .interruptAction⟩ :: rest) with runningTrap := sigint + 1 }
  | interruptUntrapped (s : Shell) (sig old : Nat) (rest : List Frame)
      (hcalls : s.calls = ⟨sig, old, .interruptStart⟩ :: rest)
      (htrapped : trapped sigint = false) :
      Step trapped s .silent (s.setCalls (⟨sig, old, .finish⟩ :: rest))
  | interruptEnd (s : Shell) (sig old : Nat) (rest : List Frame)
      (hcalls : s.calls = ⟨sig, old, .interruptAction⟩ :: rest) :
      Step trapped s .silent
        { s.setCalls (⟨sig, old, .finish⟩ :: rest) with runningTrap := old }
  | chldRead (s : Shell) (sig old : Nat) (rest : List Frame)
      (hcalls : s.calls = ⟨sig, old, .chldRead⟩ :: rest) :
      Step trapped s .silent (s.setCalls (⟨sig, old, .chldClear (s.pendingTraps sig)⟩ :: rest))
  /-- `pending_traps[sig] = 0`, and what `run_sigchld_trap` sets -/
  | chldClear (s : Shell) (sig old x : Nat) (rest : List Frame)
      (hcalls : s.calls = ⟨sig, old, .chldClear x⟩ :: rest) :
      Step trapped s .silent
        { (s.setPending sig 0).setCalls (⟨sig, old, .chldLoop x⟩ :: rest) with
          impossible := true
          runningTrap := sigchld + 1 }
  | chldStart (s : Shell) (sig old x : Nat) (rest : List Frame)
      (hcalls : s.calls = ⟨sig, old, .chldLoop (x + 1)⟩ :: rest) :
      Step trapped s (.start sigchld) (s.setCalls (⟨sig, old, .chldAction x⟩ :: rest))
  | chldEnd (s : Shell) (sig old x : Nat) (rest : List Frame)
      (hcalls : s.calls = ⟨sig, old, .chldAction x⟩ :: rest) :
      Step trapped s .silent (s.setCalls (⟨sig, old, .chldLoop x⟩ :: rest))
  /-- The trap is set again, `running_trap = 0`, `SIG_INPROGRESS` is cleared; `continue`. -/
  | chldDone (s : Shell) (sig old : Nat) (rest : List Frame)
      (hcalls : s.calls = ⟨sig, old, .chldLoop 0⟩ :: rest) :
      Step trapped s .silent
        { s.setCalls (⟨sig + 1, old, .test⟩ :: rest) with
          impossible := false
          inProgress := false
          runningTrap := 0 }
  | clear (s : Shell) (sig old : Nat) (rest : List Frame)
      (hcalls : s.calls = ⟨sig, old, .clear⟩ :: rest) :
      Step trapped s .silent ((s.setPending sig 0).setCalls (⟨sig, old, .start⟩ :: rest))
  | start (s : Shell) (sig old : Nat) (rest : List Frame)
      (hcalls : s.calls = ⟨sig, old, .start⟩ :: rest) :
      Step trapped s (.start sig) (s.setCalls (⟨sig, old, .action⟩ :: rest))
  | actionEnd (s : Shell) (sig old : Nat) (rest : List Frame)
      (hcalls : s.calls = ⟨sig, old, .action⟩ :: rest) :
      Step trapped s .silent (s.setCalls (⟨sig, old, .finish⟩ :: rest))
  /-- `pending_traps[sig] = 0`, and `running_trap = old_running` -/
  | finish (s : Shell) (sig old : Nat) (rest : List Frame)
      (hcalls : s.calls = ⟨sig, old, .finish⟩ :: rest) :
      Step trapped s (.clearPending sig)
        { (s.setPending sig 0).setCalls (⟨sig + 1, old, .test⟩ :: rest) with runningTrap := old }
  /-- The action returns from the function that it interrupted (`sh_longjmp (return_catch, 1)`). -/
  | leave (s : Shell) (sig old : Nat) (pc : Pc) (rest : List Frame)
      (hcalls : s.calls = ⟨sig, old, pc⟩ :: rest) (hpc : pc = .action ∨ pc = .interruptAction) :
      Step trapped s .leave { s.setCalls rest with runningTrap := old }
  /-- So does that of `SIGCHLD`; `SIG_INPROGRESS` stays. -/
  | chldLeave (s : Shell) (sig old x : Nat) (rest : List Frame)
      (hcalls : s.calls = ⟨sig, old, .chldAction x⟩ :: rest) :
      Step trapped s .leave { s.setCalls rest with impossible := false }

end Basht.Traps
