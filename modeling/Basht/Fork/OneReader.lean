import Basht.Fork.Turns

/-!
# One multiplexer

A run of the shell and of all processes forked from it. If no forked process finds anything
to read or to draw when it drains (`Quiet`), the shell alone reads and writes, and displays
every byte once (`Multiplexed`); else it is not alone (`multiplexed_iff`).
-/

namespace Basht.Fork

open Basht.Filter (Call LineBuf)
open Basht.Display (Console Ident Write numbersOf textsOf)
open Basht.Tasks (MAX_CAPS Pty)

/-- The shell is the one multiplexer. -/
structure Multiplexed (w : World) (outs : List Out) : Prop where
  alone : ∀ o ∈ outs, o.ByShell
  once : ∀ m, outs.flatMap (Out.taken m) ++ w.queue m = outs.flatMap (Out.sent m)
  shown : ∀ m, outs.flatMap (Out.given m) ++ w.shell.pending m = outs.flatMap (Out.shown m)
  texts : ∀ h, ∃ lb, Fallible.exec Call.run .zeroed (outs.filterMap (Out.callOn h))
    = .ok (lb, textsOf h (writesOf outs))
  numbers : ∀ k i n, (numbersOf Handle.lines k (writesOf outs))[i]? = some n →
    i + 1 < 2147483648 → n.toInt = ((i + 1 : Nat) : Int)

/-- The drain of a process forked from the shell, `s` being its variables, goes on. -/
def World.Drains (w : World) (p : Nat) (s : Proc) : Prop :=
  p ≠ SHELL ∧ w.proc p = some s ∧ s.active = true

/-- A forked process finds nothing to read, no unfinished line of a task that has ended, and
no bottom line to erase or to draw. -/
def Quiet (w : World) : Act → Prop
  | .drainSelf p _ => ∀ s, w.Drains p s → w.queue .self = []
  | .drainCap p i pty _ _ => ∀ s cp, w.Drains p s → s.caps i = some cp → cp.isOpen pty = true →
      w.queue (.cap cp.task pty) = [] ∧ (pty ≠ .mIn → w.ended (.cap cp.task pty) = true →
        (s.console.stream (Master.cap cp.task pty).stream).lb.moved = true ∨
          (s.console.stream (Master.cap cp.task pty).stream).lb.len = 0)
  | .sync p _ => ∀ s, w.Drains p s → s.console.dirty = true →
      s.console.shown = 0 ∧ (s.console.bot <|> s.console.dflt) = none
  | .fork .. | .write .. | .close .. | .pump .. | .release .. | .setDefault .. => True

/-! ## Quiet steps -/

theorem flush_lines_eq_nil (lb : LineBuf) :
    lb.flush.2 = [] ↔ lb.moved = true ∨ lb.len = 0 := by
  unfold LineBuf.flush
  dsimp only
  split_ifs with hmoved hlen
  · simp [hmoved]
  · simp [LineBuf.emit, hmoved, Nat.ne_of_gt hlen]
  · simp [Nat.eq_zero_of_not_pos hlen]

/-- A flush writes nothing if there is no unfinished line. -/
theorem flush_writes_eq_nil {c c' : Console Handle Counter} {k : Handle}
    {ws : List (Write Handle)} (h : c.filterCall k .flush = .ok (c', ws)) :
    ws = [] ↔ (c.stream k).lb.moved = true ∨ (c.stream k).lb.len = 0 := by
  obtain ⟨lb, texts, d, hrun, hexec, -⟩ := Console.filterCall_eq_ok.mp h
  have hlines : (c.stream k).lb.flush.2 = texts := congrArg Prod.snd (Except.ok.inj hrun)
  rw [← flush_lines_eq_nil, hlines]
  have htexts := Console.textsOf_exec_displayLine k hexec
  rw [if_pos rfl] at htexts
  constructor
  · rintro rfl
    exact htexts.symm
  · rintro rfl
    cases hexec
    rfl

theorem sync_writes_eq_nil {c c' : Console Handle Counter} {cols : Nat}
    {ws : List (Write Handle)} (h : c.displaySync cols = .ok (c', ws)) :
    ws = [] ↔ (c.dirty = true → c.shown = 0 ∧ (c.bot <|> c.dflt) = none) := by
  have herase : c.eraseBottom = [] ↔ c.shown = 0 := by
    unfold Console.eraseBottom
    split_ifs with hshown <;> simp [hshown]
  rcases Console.displaySync_cases h with ⟨hclean, -, rfl⟩ | ⟨hdirty, hnone, -, rfl⟩ |
    ⟨k, tag, text, hdirty, hsome, -, -, rfl⟩
  · simp [hclean]
  · simp [hdirty, hnone, herase]
  · simp [hdirty, hsome]

namespace World

variable {w v : World} {p : Nat} {s : Proc} {outs : List Out}

theorem byShell_of_forall_by (h : ∀ o ∈ outs, o.By SHELL) : ∀ o ∈ outs, o.ByShell :=
  fun o ho => Out.byShell_of_by (h o ho)

theorem read_byShell_iff {m : Master} {n : Nat} (h : w.read p s m n = .ok (v, outs)) :
    (∀ o ∈ outs, o.ByShell) ↔ p = SHELL := by
  unfold read at h
  dsimp only at h
  split at h
  · cases h
  · rename_i hfilter
    cases h
    rw [List.forall_mem_cons]
    refine ⟨fun hby => hby.1, ?_⟩
    rintro rfl
    exact ⟨rfl, byShell_of_forall_by (Proc.filter_by hfilter)⟩

theorem drainSelf_byShell_iff {ident : Handle → Ident} {n : Nat} (hs : s.Sound ident p)
    (h : w.drainSelf p s n = .ok (v, outs)) :
    (∀ o ∈ outs, o.ByShell) ↔ (p ≠ SHELL → w.queue .self = []) := by
  unfold drainSelf at h
  split at h
  · rename_i hlive
    have hp : p = SHELL := by
      by_contra hne
      rw [hs.pump hne] at hlive
      cases hlive
    subst hp
    unfold takeChunks at h
    split at h
    · cases h
    · rename_i hexec
      cases h
      exact iff_of_true (byShell_of_forall_by (Proc.exec_filter_by hexec)) fun hne =>
        (hne rfl).elim
  · split at h
    · rename_i hqueue
      cases h
      exact iff_of_true (by simp) fun _ => hqueue
    · rename_i hqueue
      rw [read_byShell_iff h, not_imp_comm]
      exact ⟨fun hp _ => hp, fun himp => himp hqueue⟩

theorem drainCap_byShell_iff {i : Fin MAX_CAPS} {pty : Pty} {n : Nat} {hidden : Bool}
    (h : w.drainCap p s i pty n hidden = .ok (v, outs)) :
    (∀ o ∈ outs, o.ByShell) ↔ (p ≠ SHELL → ∀ cp, s.caps i = some cp → cp.isOpen pty = true →
      w.queue (.cap cp.task pty) = [] ∧ (pty ≠ .mIn → w.ended (.cap cp.task pty) = true →
        (s.console.stream (Master.cap cp.task pty).stream).lb.moved = true ∨
          (s.console.stream (Master.cap cp.task pty).stream).lb.len = 0)) := by
  unfold drainCap at h
  dsimp only at h
  split at h
  · rename_i hcap
    cases h
    exact iff_of_true (by simp) fun _ cp hcp => by
      rw [hcap] at hcp
      cases hcp
  · rename_i cp hcap
    simp only [hcap, Option.some.injEq, forall_eq']
    split_ifs at h with hclosed hqueue hhidden hended
    · cases h
      exact iff_of_true (by simp) fun _ hopen => by
        rw [hclosed] at hopen
        cases hopen
    · cases h
      rw [List.forall_mem_singleton]
      refine ⟨fun hp hne => (hne hp).elim, fun himp => ?_⟩
      by_contra hne
      exact hqueue (himp hne (Bool.eq_true_of_not_eq_false hclosed)).1
    · rw [read_byShell_iff h]
      refine ⟨fun hp hne => (hne hp).elim, fun himp => ?_⟩
      by_contra hne
      exact hqueue (himp hne (Bool.eq_true_of_not_eq_false hclosed)).1
    · split at h
      · cases h
      · rename_i hfilter
        cases h
        have hempty : w.queue (.cap cp.task pty) = [] := not_not.mp hqueue
        have hopen : cp.isOpen pty = true := Bool.eq_true_of_not_eq_false hclosed
        obtain ⟨c, ws, hcall, -, rfl⟩ := Proc.filter_eq_ok hfilter
        have hwrites := flush_writes_eq_nil hcall
        simp only [hempty, hopen, hended, true_and, forall_const, ne_eq, not_false_eq_true,
          ← hwrites]
        rw [List.forall_mem_cons, List.forall_mem_map]
        constructor
        · rintro ⟨-, hws⟩ hne
          refine List.eq_nil_iff_forall_not_mem.mpr fun w hw => hne (hws w hw)
        · intro himp
          refine ⟨trivial, fun w hw => ?_⟩
          by_contra hne
          rw [himp hne] at hw
          cases hw
    · cases h
      exact iff_of_true (by simp) fun _ _ =>
        ⟨not_not.mp hqueue, fun hpty hend => (hended ⟨hpty, hend⟩).elim⟩

theorem sync_byShell_iff {wsCol : Option Nat} (h : w.sync p s wsCol = .ok (v, outs)) :
    (∀ o ∈ outs, o.ByShell) ↔ (p ≠ SHELL → s.console.dirty = true →
      s.console.shown = 0 ∧ (s.console.bot <|> s.console.dflt) = none) := by
  unfold sync at h
  split at h
  · cases h
  · rename_i c ws hsync
    cases h
    rw [← sync_writes_eq_nil hsync, List.forall_mem_map]
    constructor
    · intro hws hne
      exact List.eq_nil_iff_forall_not_mem.mpr fun w hw => hne (hws w hw)
    · intro himp w hw
      by_contra hne
      rw [himp hne] at hw
      cases hw

/-- The condition of a drain is one on the process it is in. -/
theorem active_byShell_iff {k : Proc → Except Stuck (World × List Out)} {P : Proc → Prop}
    (hk : ∀ s, w.proc p = some s → k s = .ok (v, outs) →
      ((∀ o ∈ outs, o.ByShell) ↔ (p ≠ SHELL → P s)))
    (h : w.active p k = .ok (v, outs)) :
    (∀ o ∈ outs, o.ByShell) ↔ ∀ s, w.Drains p s → P s := by
  unfold active at h
  split at h
  · cases h
  · rename_i s hproc
    split at h
    · rename_i hactive
      rw [hk s hproc h]
      constructor
      · rintro himp t ⟨hne, ht, -⟩
        rw [hproc] at ht
        cases ht
        exact himp hne
      · intro himp hne
        exact himp s ⟨hne, hproc, hactive⟩
    · rename_i hactive
      cases h
      refine iff_of_true (by simp) ?_
      rintro t ⟨-, ht, hon⟩
      rw [hproc] at ht
      cases ht
      exact (hactive hon).elim

/-- A step keeps to the shell exactly when it is quiet. -/
theorem byShell_iff_quiet {ident : Handle → Ident} (hw : w.Sound ident) {a : Act} (h : w.step a = .ok (v, outs)) :
    (∀ o ∈ outs, o.ByShell) ↔ Quiet w a := by
  cases a with
  | fork p flags opened forked =>
    simp only [step] at h
    split at h
    · cases h
    · cases h
      exact iff_of_true (by simp) trivial
  | write m bytes =>
    simp only [step] at h
    split at h
    · cases h
    · cases h
      exact iff_of_true (List.forall_mem_singleton.mpr trivial) trivial
  | close m =>
    cases h
    exact iff_of_true (by simp) trivial
  | pump n full =>
    simp only [step] at h
    split at h
    · cases h
    · cases h
      exact iff_of_true (List.forall_mem_singleton.mpr rfl) trivial
  | drainSelf p n =>
    exact active_byShell_iff (fun s hproc h => drainSelf_byShell_iff (hw.proc p s hproc) h) h
  | drainCap p i pty n hidden =>
    refine (active_byShell_iff (fun s hproc h => drainCap_byShell_iff h) h).trans ?_
    exact forall_congr' fun s => ⟨fun himp cp hdrains => himp hdrains cp,
      fun himp hdrains cp => himp cp hdrains⟩
  | release p i =>
    refine iff_of_true ?_ trivial
    refine (active_byShell_iff (P := fun _ => True) (fun s hproc h => ?_) h).mpr fun _ _ => trivial
    cases h
    simp
  | sync p wsCol => exact active_byShell_iff (fun s hproc h => sync_byShell_iff h) h
  | setDefault p dflt =>
    refine iff_of_true ?_ trivial
    refine (active_byShell_iff (P := fun _ => True) (fun s hproc h => ?_) h).mpr fun _ _ => trivial
    cases h
    simp

end World

/-- **One multiplexer.** In every run, the shell alone reads the masters and writes to the
terminal, and displays every byte once, exactly when every drain of a process forked from it
is quiet. -/
theorem multiplexed_iff (ident : Handle → Ident) (pumpLive : Bool) (acts : List Act) (w : World)
    (outs : List Out)
    (h : Fallible.exec World.step (World.start ident pumpLive) acts = .ok (w, outs)) :
    Multiplexed w outs ↔ Fallible.Meets World.step Quiet (World.start ident pumpLive) acts := by
  have hstart := World.sound_start ident pumpLive
  have hquiet := Fallible.forall_mem_iff_meets (I := World.Sound ident)
    (fun w a v outs hw h => (Progress.step hw h).sound)
    (fun w a v outs hw h => World.byShell_iff_quiet hw h) hstart h
  rw [← hquiet]
  refine ⟨Multiplexed.alone, fun halone => ?_⟩
  have hrun := Progress.exec hstart h
  have hturn := hrun.turn halone
  refine ⟨halone, hrun.once, fun m => ?_, fun k => ⟨_, hturn.calls k⟩, fun k i n hn hi => ?_⟩
  · rw [hturn.shown m]
    simp [World.start, Proc.start, Proc.pending]
  · obtain ⟨m, -, hnum⟩ := hturn.wrote.numbers k
    rw [hnum, List.getElem?_map] at hn
    obtain ⟨j, hj, rfl⟩ := Option.map_eq_some_iff.mp hn
    obtain ⟨-, rfl⟩ := List.getElem?_eq_some_iff.mp hj
    rw [List.getElem_range, World.start, Proc.start, Console.start, Int32.zero_add,
      Int32.toInt_ofNat_of_lt hi]

/-- A background task `1`, and a subshell `2` that waits for its child `3`. The processes `p` and
`q` each read a line of the task. -/
def twoLines (p q : Nat) : List Act :=
  [.fork SHELL ⟨false, false⟩ ⟨true, true, true⟩ true,
    .fork SHELL ⟨false, false⟩ ⟨true, true, true⟩ true,
    .fork 2 ⟨false, false⟩ ⟨true, true, true⟩ true,
    .write (.cap 1 .mOut) ['\n'.toUInt8], .drainCap p 0 .mOut 0 false,
    .write (.cap 1 .mOut) ['\n'.toUInt8], .drainCap q 0 .mOut 0 false]

/-- The shell displays both lines. -/
theorem multiplexed_twoLines :
    ∃ w outs, Fallible.exec World.step (World.start (fun _ => .unnamed) true)
        (twoLines SHELL SHELL) = .ok (w, outs) ∧
      numbersOf Handle.lines (.task 1) (writesOf outs) = [1, 2] ∧ Multiplexed w outs := by
  refine ⟨_, _, rfl, rfl, (multiplexed_iff (fun _ => .unnamed) true (twoLines SHELL SHELL) _ _
    rfl).mpr ?_⟩
  have hshell : ∀ (w : World) n, Quiet w (.drainCap SHELL 0 .mOut n false) :=
    fun w n s cp hdrains => (hdrains.1 rfl).elim
  exact ⟨trivial, fun _ _ _ => ⟨trivial, fun _ _ _ => ⟨trivial, fun _ _ _ => ⟨trivial,
    fun w _ _ => ⟨hshell w 0, fun _ _ _ => ⟨trivial, fun w _ _ => ⟨hshell w 0,
      fun _ _ _ => trivial⟩⟩⟩⟩⟩⟩⟩

/-- The subshell displays the first line, and the shell the second: both are number 1. -/
theorem subshell_drains :
    ∃ w outs, Fallible.exec World.step (World.start (fun _ => .unnamed) true)
        (twoLines 2 SHELL) = .ok (w, outs) ∧
      numbersOf Handle.lines (.task 1) (writesOf outs) = [1, 1] ∧ ¬ Multiplexed w outs := by
  refine ⟨_, _, rfl, rfl, fun h => ?_⟩
  have hsecond := h.numbers (.task 1) 1 1 rfl
  revert hsecond
  decide

end Basht.Fork
