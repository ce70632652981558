import Basht.Tasks.Table

/-!
# Foreground episodes

While the shell waits for a captured task, the terminal is raw and the keyboard goes to the
task: `basht_fg_pump`, called in the loop of `wait_for`, opens an episode, and `basht_fg_end`
behind the loop closes it. A call of `wait_for` can also be left by `goto wait_for_return`, by
the return for an unknown process, and by the jumps of `CHECK_WAIT_INTR` and `QUIT`.

`episodes_closed` says when every episode is closed by the time the next command is read.
-/

namespace Basht.Wait

open Basht.Tasks

/-- Who has been called and has not returned, as far as the jumps are concerned. -/
inductive Frame where
  /-- `wait_for (pid, ..)` -/
  | waitFor (pid : Int32)
  /-- `wait_builtin`, behind its `setjmp` -/
  | waitBuiltin
deriving DecidableEq, Repr

/-- The variables of an episode, the attributes of the terminal, and the calls, the innermost
one first. `shellTty` is what `get_tty_state` has saved. -/
structure World (Tty : Type) where
  tty : Tty
  fgTioSave : Tty
  shellTty : Tty
  fgRaw : Bool
  fgPid : Int32
  manualSel : Option StreamId
  waitIntrFlag : Bool
  stack : List Frame

/-- What `basht_fg_pump` finds: the tasks, those among them that are or were windowed, which
calls on the terminal succeed, and what the keys it reads leave selected (`none` if they do not
change it). -/
structure Scene where
  table : Table
  windowed : Fin MAX_CAPS → Bool
  isatty : Bool
  saves : Bool
  sets : Bool
  restores : Bool
  selects : Option (Option StreamId)

/-- What `wait_for` does with the attributes of the terminal after the loop. -/
inductive TtyState where
  | keep
  | get
  | set
deriving DecidableEq, Repr

inductive Step where
  /-- `wait_for` is called -/
  | call (pid : Int32)
  /-- the loop calls `basht_fg_pump` -/
  | pump (scene : Scene)
  /-- the loop ends, by its condition or by the `break` for `ANY_PID` -/
  | finish (restores : Bool) (ttyState : TtyState)
  /-- `goto wait_for_return`, or the return of `FIND_CHILD` -/
  | leave
  /-- `CHECK_WAIT_INTR` jumps -/
  | waitIntr
  /-- `QUIT` jumps -/
  | quit
  /-- the `wait` builtin is called -/
  | builtin
  /-- the `wait` builtin returns -/
  | builtinReturn

/-- The step is not one of the innermost call. -/
inductive Disabled where
  | disabled
deriving DecidableEq

namespace World

variable {Tty : Type} (raw : Tty → Tty)

/-- `tcsetattr (0, TCSANOW, &fg_tio_save)`. -/
def restore (w : World Tty) (restores : Bool) : World Tty :=
  { w with tty := if restores then w.fgTioSave else w.tty, fgRaw := false }

/-- A windowed task in the foreground ends its episode. -/
def standDown (w : World Tty) (pid : Int32) (restores : Bool) : World Tty :=
  if w.fgRaw ∧ w.fgPid = pid then { w.restore restores with fgPid := -1 } else w

/-- A new episode. -/
def openEpisode (w : World Tty) (pid : Int32) (scene : Scene) : World Tty :=
  if w.fgRaw = false ∧ scene.isatty ∧ scene.saves then
    { w with
      fgTioSave := w.tty
      tty := if scene.sets then raw w.tty else w.tty
      fgRaw := scene.sets
      fgPid := pid
      manualSel := none }
  else { w with fgPid := pid, manualSel := none }

/-- What the keys that are read select. -/
def readKeys (w : World Tty) (scene : Scene) : World Tty :=
  if w.fgRaw then { w with manualSel := scene.selects.getD w.manualSel } else w

/-- `basht_fg_pump`. -/
def fgPump (w : World Tty) (pid : Int32) (scene : Scene) : World Tty :=
  match if 0 < pid then scene.table.capByPid pid else none with
  | none => w
  | some i =>
    if scene.windowed i then w.standDown pid scene.restores
    else if (scene.table.caps i).mIn ∧ w.fgPid ≠ pid then
      (w.openEpisode raw pid scene).readKeys scene
    else w.readKeys scene

/-- `basht_fg_end`. -/
def fgEnd (w : World Tty) (restores : Bool) : World Tty :=
  { (if w.fgRaw then w.restore restores else w) with fgPid := -1, manualSel := none }

/-- `get_tty_state` or `set_tty_state`. -/
def ttyState (w : World Tty) : TtyState → World Tty
  | .keep => w
  | .get => { w with shellTty := w.tty }
  | .set => { w with tty := w.shellTty }

/-- The calls that are left when the `wait` builtin has returned. -/
def unwound (stack : List Frame) : List Frame := (stack.dropWhile (· ≠ .waitBuiltin)).tail

def step (w : World Tty) (s : Step) : Except Disabled (World Tty × List Empty) :=
  match s, w.stack with
  | .call pid, stack => .ok ({ w with stack := .waitFor pid :: stack }, [])
  | .pump scene, .waitFor pid :: _ => .ok (w.fgPump raw pid scene, [])
  | .finish restores ttyState, .waitFor _ :: stack =>
    .ok ({ (w.fgEnd restores).ttyState ttyState with stack := stack }, [])
  | .leave, .waitFor _ :: stack => .ok ({ w with stack := stack }, [])
  | .waitIntr, .waitFor _ :: stack =>
    if w.waitIntrFlag then .ok ({ w with stack := unwound stack, waitIntrFlag := false }, [])
    else .error .disabled
  | .quit, .waitFor _ :: _ => .ok ({ w with stack := [], waitIntrFlag := false }, [])
  | .builtin, stack => .ok ({ w with stack := .waitBuiltin :: stack, waitIntrFlag := true }, [])
  | .builtinReturn, .waitBuiltin :: stack =>
    .ok ({ w with stack := stack, waitIntrFlag := false }, [])
  | _, _ => .error .disabled

end World

/-! ## Commands -/

/-- What happens from the moment a command is read until the next one is read: the attributes
the terminal has then, which are those the shell has saved, the stream that alt-arrows select at
the prompt, and the steps of the calls of `wait_for`. -/
structure Command (Tty : Type) where
  tty : Tty
  select : Option StreamId
  steps : List Step

namespace World

variable {Tty : Type} (raw : Tty → Tty)

/-- Before any command. -/
def start (tty : Tty) : World Tty := ⟨tty, tty, tty, false, -1, none, false, []⟩

/-- The command has been read. -/
def begin (w : World Tty) (c : Command Tty) : World Tty :=
  { w with tty := c.tty, shellTty := c.tty, manualSel := c.select <|> w.manualSel }

/-- A command, up to the moment when the next one is read. -/
def command (w : World Tty) (c : Command Tty) : Except Disabled (World Tty × List Empty) :=
  Fallible.andThen (Fallible.exec (step raw) (w.begin c) c.steps) fun w' =>
    if w'.stack = [] then .ok (w', []) else .error .disabled

/-! ## What is claimed, and when it holds -/

/-- Something of an episode is left. -/
def Open (w : World Tty) : Prop := w.fgRaw = true ∨ 0 < w.fgPid ∨ w.manualSel ≠ none

/-- Every episode is closed, and the terminal has the attributes it had before. -/
structure Closed (tty : Tty) (w : World Tty) : Prop where
  fgRaw : w.fgRaw = false
  fgPid : ¬0 < w.fgPid
  manualSel : w.manualSel = none
  tty : w.tty = tty

/-- Every episode is closed when the shell has done the command. -/
def Closes (w : World Tty) (c : Command Tty) : Prop :=
  ∀ w' outs, w.command raw c = .ok (w', outs) → w'.Closed c.tty

end World

/-- The step leaves calls of `wait_for` without `basht_fg_end`. -/
def Step.Bypasses (s : Step) : Prop := s = .leave ∨ s = .waitIntr ∨ s = .quit

/-- The step is a call of `basht_fg_end`. -/
def Step.Ends (s : Step) : Prop := ∃ restores ttyState, s = .finish restores ttyState

/-- The terminal takes its attributes back when they are restored. -/
def Step.Restores : Step → Prop
  | .pump scene => scene.restores = true
  | .finish restores _ => restores = true
  | .call _ | .leave | .waitIntr | .quit | .builtin | .builtinReturn => True

namespace World

variable {Tty : Type} (raw : Tty → Tty)

/-- When a call of `wait_for` is left without `basht_fg_end` and something of an episode is
left, another call ends with it. -/
def EndedLater : World Tty → List Step → Prop
  | _, [] => True
  | w, s :: steps => (s.Bypasses → w.Open → ∃ s' ∈ steps, s'.Ends) ∧
      ∀ w' outs, w.step raw s = .ok (w', outs) → EndedLater w' steps

/-- No episode of the command is left without `basht_fg_end`, nor is a selection made at its
prompt, and the attributes of the terminal can be restored. -/
structure Clean (w : World Tty) (c : Command Tty) : Prop where
  restores : ∀ s ∈ c.steps, s.Restores
  select : c.select ≠ none → ∃ s ∈ c.steps, s.Ends
  ended : (w.begin c).EndedLater raw c.steps

/-! ## The attributes of the terminal -/

/-- The attributes are `tty`, or saved while the terminal is raw. -/
structure Saves (tty : Tty) (w : World Tty) : Prop where
  shellTty : w.shellTty = tty
  cooked : w.fgRaw = false → w.tty = tty
  saved : w.fgRaw = true → w.fgTioSave = tty

variable {raw} {tty : Tty} {w w' : World Tty} {s : Step} {outs : List Empty}

theorem Saves.restore (h : w.Saves tty) (hraw : w.fgRaw = true) : (w.restore true).Saves tty :=
  ⟨h.shellTty, fun _ => h.saved hraw, nofun⟩

theorem Saves.fgEnd (h : w.Saves tty) : (w.fgEnd true).Saves tty := by
  unfold World.fgEnd
  split
  · rename_i hraw
    exact ⟨h.shellTty, fun _ => h.saved hraw, nofun⟩
  · exact ⟨h.shellTty, h.cooked, h.saved⟩

theorem fgEnd_fgRaw (restores : Bool) : (w.fgEnd restores).fgRaw = false := by
  unfold World.fgEnd
  split
  · rfl
  · rename_i hraw
    exact eq_false_of_ne_true hraw

theorem Saves.ttyState (h : w.Saves tty) (hraw : w.fgRaw = false) (t : TtyState) :
    (w.ttyState t).Saves tty := by
  cases t with
  | keep => exact h
  | get => exact ⟨h.cooked hraw, h.cooked, h.saved⟩
  | set => exact ⟨h.shellTty, fun _ => h.shellTty, h.saved⟩

theorem Saves.standDown (h : w.Saves tty) (pid : Int32) : (w.standDown pid true).Saves tty := by
  unfold World.standDown
  split
  · rename_i hpid
    obtain ⟨hshell, hcooked, hsaved⟩ := h.restore hpid.1
    exact ⟨hshell, hcooked, hsaved⟩
  · exact h

theorem Saves.openEpisode (h : w.Saves tty) (pid : Int32) (scene : Scene) :
    (w.openEpisode raw pid scene).Saves tty := by
  unfold World.openEpisode
  split
  · rename_i hopen
    refine ⟨h.shellTty, fun hraw => ?_, fun _ => h.cooked hopen.1⟩
    simp only at hraw
    simp only [hraw]
    exact h.cooked hopen.1
  · exact ⟨h.shellTty, h.cooked, h.saved⟩

theorem Saves.readKeys (h : w.Saves tty) (scene : Scene) : (w.readKeys scene).Saves tty := by
  unfold World.readKeys
  split
  · exact ⟨h.shellTty, h.cooked, h.saved⟩
  · exact h

theorem Saves.fgPump (h : w.Saves tty) (pid : Int32) {scene : Scene}
    (hrestores : scene.restores = true) : (w.fgPump raw pid scene).Saves tty := by
  unfold World.fgPump
  split
  · exact h
  · split
    · rw [hrestores]
      exact h.standDown pid
    · split
      · exact (h.openEpisode pid scene).readKeys scene
      · exact h.readKeys scene

theorem Saves.step (h : w.Saves tty) (hrestores : s.Restores)
    (hstep : w.step raw s = .ok (w', outs)) : w'.Saves tty := by
  unfold World.step at hstep
  split at hstep
  · cases hstep
    exact ⟨h.shellTty, h.cooked, h.saved⟩
  · cases hstep
    exact h.fgPump _ hrestores
  · rename_i restores ttyState _ _ _
    cases hstep
    have hrestored : restores = true := hrestores
    obtain ⟨hshell, hcooked, hsaved⟩ :=
      Saves.ttyState (hrestored ▸ h.fgEnd) (fgEnd_fgRaw restores) ttyState
    exact ⟨hshell, hcooked, hsaved⟩
  · cases hstep
    exact ⟨h.shellTty, h.cooked, h.saved⟩
  · split at hstep
    · cases hstep
      exact ⟨h.shellTty, h.cooked, h.saved⟩
    · cases hstep
  · cases hstep
    exact ⟨h.shellTty, h.cooked, h.saved⟩
  · cases hstep
    exact ⟨h.shellTty, h.cooked, h.saved⟩
  · cases hstep
    exact ⟨h.shellTty, h.cooked, h.saved⟩
  · cases hstep

/-! ## The episodes -/

/-- Some call of `wait_for` has not returned. -/
def Waiting (w : World Tty) : Prop := ∃ pid, .waitFor pid ∈ w.stack

theorem not_open_finish {restores : Bool} {t : TtyState}
    (hstep : w.step raw (.finish restores t) = .ok (w', outs)) : ¬w'.Open := by
  have hraw := fgEnd_fgRaw (w := w) restores
  have hend : ∃ stack, w' = { (w.fgEnd restores).ttyState t with stack := stack } := by
    rcases hstack : w.stack with - | ⟨pid | -, stack⟩
    · simp [World.step, hstack] at hstep
    · simp only [World.step, hstack] at hstep
      cases hstep
      exact ⟨stack, rfl⟩
    · simp [World.step, hstack] at hstep
  obtain ⟨stack, rfl⟩ := hend
  rintro (hopen | hopen | hopen)
  · cases t <;> exact absurd (hraw.symm.trans hopen) (by simp)
  · cases t <;> exact absurd (show (0 : Int32) < -1 from hopen) (by decide)
  · cases t <;> exact hopen rfl

theorem stack_fgPump (pid : Int32) (scene : Scene) :
    (w.fgPump raw pid scene).stack = w.stack := by
  have hkeys : ∀ v : World Tty, (v.readKeys scene).stack = v.stack := by
    intro v
    unfold World.readKeys
    split <;> rfl
  unfold World.fgPump
  split
  · rfl
  · split
    · unfold World.standDown
      split <;> rfl
    · split
      · rw [hkeys]
        unfold World.openEpisode
        split <;> rfl
      · exact hkeys w

/-- An episode stays open only while a call waits, if no step bypasses its end. -/
theorem waiting_step (h : w.Open → w.Waiting) (hends : ¬s.Ends) (hbypass : s.Bypasses → ¬w.Open)
    (hstep : w.step raw s = .ok (w', outs)) : w'.Open → w'.Waiting := by
  unfold World.step at hstep
  split at hstep
  · cases hstep
    exact fun _ => ⟨_, List.mem_cons_self⟩
  · rename_i pid stack hstack
    cases hstep
    intro _
    refine ⟨pid, ?_⟩
    rw [stack_fgPump, hstack]
    exact List.mem_cons_self
  · exact absurd ⟨_, _, rfl⟩ hends
  · cases hstep
    exact fun hopen => absurd hopen (hbypass (Or.inl rfl))
  · split at hstep
    · cases hstep
      exact fun hopen => absurd hopen (hbypass (Or.inr (Or.inl rfl)))
    · cases hstep
  · cases hstep
    exact fun hopen => absurd hopen (hbypass (Or.inr (Or.inr rfl)))
  · cases hstep
    intro hopen
    obtain ⟨pid, hpid⟩ := h hopen
    exact ⟨pid, List.mem_cons_of_mem _ hpid⟩
  · rename_i stack hstack
    cases hstep
    intro hopen
    obtain ⟨pid, hpid⟩ := h hopen
    rw [hstack] at hpid
    rcases List.mem_cons.mp hpid with hne | hpid
    · cases hne
    · exact ⟨pid, hpid⟩
  · cases hstep

/-- From a state in which an episode is open only while a call waits, or with an end of an
episode to come. -/
theorem waiting_exec {steps : List Step} (h : (∃ s ∈ steps, s.Ends) ∨ (w.Open → w.Waiting))
    (hended : w.EndedLater raw steps)
    (hrun : Fallible.exec (step raw) w steps = .ok (w', outs)) : w'.Open → w'.Waiting := by
  induction steps generalizing w outs with
  | nil =>
    cases hrun
    exact h.resolve_left (by simp)
  | cons s steps ih =>
    obtain ⟨v, outs, u, outs', hstep, hrest, hr⟩ := Fallible.andThen_eq_ok.mp hrun
    cases hr
    obtain ⟨hbypass, hlater⟩ := hended
    refine ih ?_ (hlater v outs hstep) hrest
    by_cases hmore : ∃ s' ∈ steps, s'.Ends
    · exact Or.inl hmore
    · refine Or.inr ?_
      by_cases hends : s.Ends
      · obtain ⟨restores, ttyState, rfl⟩ := hends
        exact fun hopen => absurd hopen (not_open_finish hstep)
      · refine waiting_step (h.resolve_left ?_) hends
          (fun hb hopen => hmore (hbypass hb hopen)) hstep
        rintro ⟨s', hs', hends'⟩
        rcases List.mem_cons.mp hs' with rfl | hs'
        · exact hends hends'
        · exact hmore ⟨s', hs', hends'⟩

/-- No call is active and no episode is open. -/
structure Idle (w : World Tty) : Prop where
  stack : w.stack = []
  closed : ¬w.Open

theorem idle_start (tty : Tty) : (start tty).Idle := by
  refine ⟨rfl, ?_⟩
  rintro (hopen | hopen | hopen)
  · cases hopen
  · exact absurd (show (0 : Int32) < -1 from hopen) (by decide)
  · exact hopen rfl

theorem fgRaw_of_not_open (h : ¬w.Open) : w.fgRaw = false :=
  eq_false_of_ne_true fun hraw => h (Or.inl hraw)

theorem Idle.command {c : Command Tty} (h : w.Idle) (hclean : w.Clean raw c)
    (hrun : w.command raw c = .ok (w', outs)) : w'.Idle ∧ w'.Closed c.tty := by
  obtain ⟨v, outs, u, outs', hexec, hend, hr⟩ := Fallible.andThen_eq_ok.mp hrun
  cases hr
  split at hend
  · rename_i hstack
    cases hend
    have hsaves : w'.Saves c.tty := by
      have hbegin : (w.begin c).Saves c.tty :=
        ⟨rfl, fun _ => rfl, fun hraw => by
          exact absurd ((fgRaw_of_not_open h.closed).symm.trans hraw) (by simp)⟩
      exact Fallible.exec_law (Q := fun w _ w' => w.Saves c.tty → w'.Saves c.tty)
        (fun _ hs => hs) (fun _ _ _ _ _ h h' hs => h' (h hs))
        (fun s hs _ _ _ hstep hsaves => hsaves.step (hclean.restores s hs) hstep) hexec hbegin
    have hopen : w'.Open → w'.Waiting := by
      refine waiting_exec ?_ hclean.ended hexec
      by_cases hselect : c.select = none
      · refine Or.inr fun hopen => absurd hopen ?_
        have hclosed := h.closed
        simpa [Open, begin, hselect] using hclosed
      · exact Or.inl (hclean.select hselect)
    have hclosed : ¬w'.Open := by
      intro ho
      obtain ⟨pid, hpid⟩ := hopen ho
      rw [hstack] at hpid
      cases hpid
    refine ⟨⟨hstack, hclosed⟩, fgRaw_of_not_open hclosed, fun hpid => hclosed (Or.inr (Or.inl hpid)),
      ?_, hsaves.cooked (fgRaw_of_not_open hclosed)⟩
    by_contra hsel
    exact hclosed (Or.inr (Or.inr hsel))
  · cases hend

/-- **Episodes.** In a run in which no episode is left without `basht_fg_end`, every episode is
closed when the next command is read. -/
theorem episodes_closed (raw : Tty → Tty) (tty : Tty) {commands : List (Command Tty)}
    (h : Fallible.Meets (command raw) (Clean raw) (start tty) commands) :
    Fallible.Meets (command raw) (Closes raw) (start tty) commands :=
  Fallible.Meets.imp_of_invariant (I := Idle)
    (fun _ _ _ _ hidle hclean hrun => (hidle.command hclean hrun).1)
    (fun _ _ hidle hclean _ _ hrun => (hidle.command hclean hrun).2) (idle_start tty) h

/-- A task with the pid 100, and a terminal on which every call succeeds. -/
def scene : Scene where
  table := { Table.start with
    caps := Function.update (fun _ => .unused) 0
      ⟨true, true, true, 100, ⟨"sleep".toList.map Char.toUInt8, by decide, by decide⟩, 1, true⟩ }
  windowed _ := false
  isatty := true
  saves := true
  sets := true
  restores := true
  selects := none

/-- The task in the foreground, to its end. -/
def foreground : Command Bool := ⟨false, none, [.call 100, .pump scene, .finish true .get]⟩

theorem episodes_closed_foreground :
    Fallible.Meets (command fun _ => true) (Closes fun _ => true) (start false) [foreground] := by
  refine episodes_closed _ _ ⟨⟨fun s hs => ?_, fun h => absurd rfl h, ?_⟩, fun _ _ _ => trivial⟩
  · simp only [foreground, List.mem_cons, List.not_mem_nil, or_false] at hs
    rcases hs with rfl | rfl | rfl
    · trivial
    · exact rfl
    · exact rfl
  · have hend : ∀ s' ∈ foreground.steps, ¬s'.Bypasses := by
      rintro s' hs' (rfl | rfl | rfl) <;> simp [foreground] at hs'
    refine ⟨fun h => absurd h (hend _ (by simp [foreground])), fun _ _ _ =>
      ⟨fun h => absurd h (hend _ (by simp [foreground])), fun _ _ _ =>
        ⟨fun h => absurd h (hend _ (by simp [foreground])), fun _ _ _ => trivial⟩⟩⟩

/-- `wait 100`, interrupted by a signal that is trapped. -/
def interrupted : Command Bool := ⟨false, none, [.builtin, .call 100, .pump scene, .waitIntr]⟩

/-- The terminal stays raw, and the keyboard with the task. -/
theorem interrupted_stays_open :
    ¬Fallible.Meets (command fun _ => true) (Closes fun _ => true) (start false) [interrupted] := by
  intro h
  have hrun : ∃ w outs, (start false).command (fun _ => true) interrupted = .ok (w, outs) ∧
      w.fgRaw = true ∧ w.fgPid = 100 ∧ w.tty = true := ⟨_, _, rfl, rfl, rfl, rfl⟩
  obtain ⟨w, outs, hrun, hraw, -, -⟩ := hrun
  exact absurd ((h.1 w outs hrun).fgRaw.symm.trans hraw) (by decide)

end World

end Basht.Wait
