import Basht.Traps.Globals
import Mathlib.Data.Nat.Init

/-!
# What the traps put back

By induction on the run. An action may leave the variables of the shell in any state as long as
`evalnest` is balanced and `PIPESTATUS` stays an array; `_run_trap_internal` puts all of them back,
and so does every turn of `run_pending_traps` except that of `SIGCHLD`, which ends in `continue`
with `running_trap = 0`.
-/

namespace Basht.Traps

variable {P E W : Type} {resetParser : Parser P → Parser P}

/-! ## What is restored -/

/-- What `run_pending_traps` puts back whatever is pending. -/
structure Globals.Keeps (g g' : Globals P E W) : Prop where
  lastCommandExitValue : g'.lastCommandExitValue = g.lastCommandExitValue
  pipestatus : g'.pipestatus = g.pipestatus
  temporaryEnv : g'.temporaryEnv = g.temporaryEnv
  substAssignVarlist : g'.substAssignVarlist = g.substAssignVarlist
  evalnest : g'.evalnest = g.evalnest
  bashTrapsig : g'.bashTrapsig.value = g.bashTrapsig.value

/-- What it puts back when the turn of `SIGCHLD` does not end in a `continue`. -/
structure Globals.Context (g g' : Globals P E W) : Prop where
  runningTrap : g'.runningTrap = g.runningTrap
  trapReturnContext : g'.trapReturnContext = g.trapReturnContext
  parser : g'.parser = g.parser

/-- What an action leaves in order. -/
structure Globals.Balanced (g g' : Globals P E W) : Prop where
  evalnest : g'.evalnest = g.evalnest
  pipestatus : g.pipestatus.isSome → g'.pipestatus.isSome
  bashTrapsig : g.bashTrapsig.Plain → g'.bashTrapsig.Plain

/-- The variables that an action runs without. -/
structure Globals.Emptied (g g' : Globals P E W) : Prop where
  temporaryEnv : g'.temporaryEnv = g.temporaryEnv
  substAssignVarlist : g'.substAssignVarlist = g.substAssignVarlist

namespace Variable

variable {v : Variable}

theorem plain_unset : unset.Plain := ⟨rfl, fun _ => rfl⟩

theorem Plain.bind (h : v.Plain) (s : String) : (v.bind s).Plain := by
  unfold Variable.bind
  split
  · exact h
  · exact h

theorem Plain.restore (h : v.Plain) (old : Option String) : (v.restore old).Plain := by
  cases old with
  | none => exact plain_unset
  | some s => exact h.bind s

theorem Plain.value_restore (h : v.Plain) (old : Option String) :
    (v.restore old).value = old := by
  cases old with
  | none => rfl
  | some s =>
    change (v.bind s).value = some s
    unfold Variable.bind
    rw [if_neg (by simp [h.1])]
    exact congrArg some (h.2 s)

end Variable

theorem restorePipestatus_eq {a b : Option (List String)} (h : a.isSome → b.isSome) :
    restorePipestatus b a = a := by
  cases b with
  | some x => rfl
  | none =>
    cases a with
    | none => rfl
    | some y => exact absurd (h rfl) (by simp)

namespace Globals

variable {g g₁ g' : Globals P E W}

theorem Balanced.refl (g : Globals P E W) : Balanced g g := ⟨rfl, id, id⟩

theorem Balanced.trans (h : Balanced g g₁) (h' : Balanced g₁ g') : Balanced g g' where
  evalnest := h'.evalnest.trans h.evalnest
  pipestatus hp := h'.pipestatus (h.pipestatus hp)
  bashTrapsig hp := h'.bashTrapsig (h.bashTrapsig hp)

theorem Emptied.refl (g : Globals P E W) : Emptied g g := ⟨rfl, rfl⟩

theorem Emptied.trans (h : Emptied g g₁) (h' : Emptied g₁ g') : Emptied g g' where
  temporaryEnv := h'.temporaryEnv.trans h.temporaryEnv
  substAssignVarlist := h'.substAssignVarlist.trans h.substAssignVarlist

theorem Context.refl (g : Globals P E W) : Context g g := ⟨rfl, rfl, rfl⟩

theorem Context.trans (h : Context g g₁) (h' : Context g₁ g') : Context g g' where
  runningTrap := h'.runningTrap.trans h.runningTrap
  trapReturnContext := h'.trapReturnContext.trans h.trapReturnContext
  parser := h'.parser.trans h.parser

theorem balanced_queue (pending : Nat → Nat) : Balanced g (g.queue pending) := ⟨rfl, id, id⟩

theorem balanced_beginTurn (sig : Nat) : Balanced g (g.beginTurn sig) :=
  ⟨rfl, id, fun h => h.bind _⟩

theorem balanced_endTurn (old : Saved) (sig : Nat) : Balanced g (endTurn old g sig) :=
  ⟨rfl, id, id⟩

/-- The end of a turn sets `running_trap` and `trap_return_context` to the saved values. -/
theorem context_endTurn {old : Saved} {sig : Nat} (hrunning : g.runningTrap = old.running)
    (hcontext : g.trapReturnContext = old.context) (hparser : g'.parser = g.parser) :
    Context g (endTurn old g' sig) :=
  ⟨hrunning.symm, hcontext.symm, hparser⟩

/-! ## The brackets around an action -/

section Brackets

variable {sig : Nat}

theorem balanced_leaveTrap (h : Balanced (g.enterTrap resetParser sig) g') :
    Balanced g (g.leaveTrap g' sig) where
  evalnest := by
    have heval : g'.evalnest = g.evalnest + 1 := h.evalnest
    change g'.evalnest - 1 = g.evalnest
    omega
  pipestatus hp := by
    have hsome : g.pipestatus.isSome → g'.pipestatus.isSome := h.pipestatus
    change (restorePipestatus g'.pipestatus g.pipestatus).isSome
    rw [restorePipestatus_eq hsome]
    exact hp
  bashTrapsig hp := (h.bashTrapsig (hp.bind _)).restore _

theorem emptied_leaveTrap : Emptied g (g.leaveTrap g' sig) := ⟨rfl, rfl⟩

theorem context_leaveTrap : Context g (g.leaveTrap g' sig) := ⟨rfl, rfl, rfl⟩

theorem kept_leaveTrap (h : Balanced (g.enterTrap resetParser sig) g')
    (hplain : g.bashTrapsig.Plain) : Keeps g (g.leaveTrap g' sig) where
  lastCommandExitValue := rfl
  pipestatus := restorePipestatus_eq h.pipestatus
  temporaryEnv := rfl
  substAssignVarlist := rfl
  evalnest := (balanced_leaveTrap h).evalnest
  bashTrapsig := (h.bashTrapsig (hplain.bind _)).value_restore _

theorem balanced_endAction (h : Balanced (g.beginAction sig) g') : Balanced g (g.endAction g') where
  evalnest := by
    have heval : g'.evalnest = g.evalnest + 1 := h.evalnest
    change g'.evalnest - 1 = g.evalnest
    omega
  pipestatus hp := by
    have hsome : g.pipestatus.isSome → g'.pipestatus.isSome := h.pipestatus
    change (restorePipestatus g'.pipestatus g.pipestatus).isSome
    rw [restorePipestatus_eq hsome]
    exact hp
  bashTrapsig hp := h.bashTrapsig (hp.bind _)

theorem balanced_leaveSigchld (h : Balanced g.enterSigchld g') :
    Balanced g (g.leaveSigchld g') := by
  unfold leaveSigchld maybeSetSigchldTrap
  split
  · exact ⟨h.evalnest, h.pipestatus, h.bashTrapsig⟩
  · exact ⟨h.evalnest, h.pipestatus, h.bashTrapsig⟩

theorem emptied_leaveSigchld : Emptied g (g.leaveSigchld g') := ⟨rfl, rfl⟩

theorem balanced_endSigchld (h : Balanced g.beginSigchld g') : Balanced g g'.endSigchld where
  evalnest := by
    have heval : g'.evalnest = g.evalnest + 1 := h.evalnest
    change g'.evalnest - 1 = g.evalnest
    omega
  pipestatus := h.pipestatus
  bashTrapsig hp := h.bashTrapsig (hp.bind _)

theorem balanced_leavePending (h : Balanced g.enterPending g') :
    Balanced g (leavePending g.saved g') where
  evalnest := h.evalnest
  pipestatus hp := by
    have hsome : g.pipestatus.isSome → g'.pipestatus.isSome := h.pipestatus
    change (restorePipestatus g'.pipestatus g.pipestatus).isSome
    rw [restorePipestatus_eq hsome]
    exact hp
  bashTrapsig hp := (h.bashTrapsig hp).restore _

theorem kept_leavePending (h : Balanced g.enterPending g') (hempty : Emptied g.enterPending g')
    (hplain : g.bashTrapsig.Plain) : Keeps g (leavePending g.saved g') where
  lastCommandExitValue := rfl
  pipestatus := restorePipestatus_eq h.pipestatus
  temporaryEnv := hempty.temporaryEnv
  substAssignVarlist := hempty.substAssignVarlist
  evalnest := h.evalnest
  bashTrapsig := (h.bashTrapsig hplain).value_restore _

end Brackets

end Globals

/-! ## Runs -/

open Globals

/-- What a run of each kind restores. A turn restores `running_trap` and `trap_return_context` to
the values saved by its call. -/
def Call.Restores : Call → Globals P E W → Globals P E W → Prop
  | .commands, g, g' => Balanced g g'
  | .actions _, g, g' => Balanced g g'
  | .runSigchldTrap _, g, g' => Balanced g g' ∧ Emptied g g'
  | .runTrapInternal _, g, g' => Balanced g g' ∧ Emptied g g' ∧ Context g g' ∧
      (g.bashTrapsig.Plain → Keeps g g')
  | .turn old _ skips, g, g' => Balanced g g' ∧ Emptied g g' ∧ (skips = false →
      g.runningTrap = old.running → g.trapReturnContext = old.context → Context g g')
  | .turns old _ skips, g, g' => Balanced g g' ∧ Emptied g g' ∧ (skips = false →
      g.runningTrap = old.running → g.trapReturnContext = old.context → Context g g')
  | .runPendingTraps skips, g, g' => Balanced g g' ∧ (g.bashTrapsig.Plain → Keeps g g') ∧
      (skips = false → Context g g')

theorem Returns.restores {call : Call} {g g' : Globals P E W}
    (h : Returns resetParser False call g g') : call.Restores g g' := by
  induction h with
  | nothing g => exact Balanced.refl g
  | command h => exact ⟨h.evalnest, h.pipestatus, h.bashTrapsig not_false⟩
  | sequence _ _ ih ih' => exact Balanced.trans ih ih'
  | eval _ ih =>
    have hbalanced : Balanced _ _ := ih
    exact ⟨rfl, hbalanced.pipestatus, hbalanced.bashTrapsig⟩
  | function _ ih =>
    have hbalanced : Balanced _ _ := ih
    exact ⟨hbalanced.evalnest, hbalanced.pipestatus, hbalanced.bashTrapsig⟩
  | pendingTraps _ ih => exact ih.1
  | trapInternal _ ih => exact ih.1
  | waitSigchld _ ih => exact ih.1
  | actionsZero g => exact Balanced.refl g
  | actionsSucc _ _ ih ih' => exact Balanced.trans ih ih'
  | sigchldTrap _ ih => exact ⟨balanced_leaveSigchld ih, emptied_leaveSigchld⟩
  | untaken _ =>
    exact ⟨⟨rfl, id, id⟩, ⟨rfl, rfl⟩, ⟨rfl, rfl, rfl⟩, fun _ => ⟨rfl, rfl, rfl, rfl, rfl, rfl⟩⟩
  | taken _ _ ih =>
    exact ⟨balanced_leaveTrap ih, emptied_leaveTrap, context_leaveTrap, kept_leaveTrap ih⟩
  | @notPending g old sig _ =>
    exact ⟨Balanced.refl g, Emptied.refl g, fun _ _ _ => Context.refl g⟩
  | @interrupt g g' old _ _ ih =>
    obtain ⟨hbalanced, hempty, hcontext, -⟩ := ih
    refine ⟨?_, ⟨hempty.temporaryEnv, hempty.substAssignVarlist⟩, ?_⟩
    · exact (balanced_beginTurn sigint).trans ⟨hbalanced.1, hbalanced.2, hbalanced.3⟩
    · intro _ hrunning hold
      exact context_endTurn hrunning hold hcontext.parser
  | sigchld _ _ _ _ ih =>
    obtain ⟨hbalanced, hempty⟩ := ih
    refine ⟨balanced_endSigchld hbalanced, ⟨hempty.1, hempty.2⟩, ?_⟩
    intro hskips
    exact absurd hskips (by decide)
  | sigchldBusy _ _ =>
    refine ⟨⟨rfl, id, fun hp => hp.bind _⟩, ⟨rfl, rfl⟩, ?_⟩
    intro hskips
    exact absurd hskips (by decide)
  | @badValue g old sig _ _ _ _ =>
    refine ⟨(balanced_beginTurn sig).trans (balanced_endTurn old sig), ⟨rfl, rfl⟩, ?_⟩
    intro _ hrunning hold
    exact context_endTurn hrunning hold rfl
  | @action g g' old sig _ _ _ _ _ _ ih =>
    refine ⟨(balanced_endAction ih).trans (balanced_endTurn old sig), ⟨rfl, rfl⟩, ?_⟩
    intro _ hrunning hold
    exact context_endTurn hrunning hold rfl
  | turnsOver g old => exact ⟨Balanced.refl g, Emptied.refl g, fun _ _ _ => Context.refl g⟩
  | turnsNext _ _ _ ih ih' =>
    obtain ⟨hbalanced, hempty, hcontext⟩ := ih
    obtain ⟨hbalanced', hempty', hcontext'⟩ := ih'
    refine ⟨hbalanced.trans hbalanced', hempty.trans hempty', ?_⟩
    intro hskips hrunning hold
    obtain ⟨hskip, hskip'⟩ := Bool.or_eq_false_iff.mp hskips
    have hturn := hcontext hskip hrunning hold
    have hrest := hcontext' hskip' (hturn.runningTrap.trans hrunning)
      (hturn.trapReturnContext.trans hold)
    exact hturn.trans hrest
  | turnsQueue pending _ ih =>
    obtain ⟨hbalanced, hempty, hcontext⟩ := ih
    exact ⟨(balanced_queue pending).trans hbalanced, ⟨hempty.1, hempty.2⟩,
      fun hskips hrunning hold =>
        ⟨(hcontext hskips hrunning hold).1, (hcontext hskips hrunning hold).2,
          (hcontext hskips hrunning hold).3⟩⟩
  | @pendingRefused g _ =>
    exact ⟨Balanced.refl g, fun _ => ⟨rfl, rfl, rfl, rfl, rfl, rfl⟩, fun _ => Context.refl g⟩
  | pendingRun _ _ _ ih =>
    obtain ⟨hbalanced, hempty, hcontext⟩ := ih
    refine ⟨balanced_leavePending hbalanced, kept_leavePending hbalanced hempty, ?_⟩
    intro hskips
    have hturns := hcontext hskips rfl rfl
    exact ⟨hturns.runningTrap, hturns.trapReturnContext, hturns.parser⟩

/-- Whatever is pending, `run_pending_traps` keeps the variables of the commands. -/
theorem Returns.kept {skips : Bool} {g g' : Globals P E W}
    (h : Returns resetParser False (.runPendingTraps skips) g g') (hplain : g.bashTrapsig.Plain) :
    Keeps g g' :=
  h.restores.2.1 hplain

/-- The command `:`. -/
def colon (g : Globals Unit Unit Unit) : Globals Unit Unit Unit :=
  { g with
    lastCommandExitValue := 0
    pipestatus := some ["0"] }

end Basht.Traps
