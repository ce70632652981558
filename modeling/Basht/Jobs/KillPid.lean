import Basht.Jobs.Table
import Basht.Library.Circular

/-!
# Signals for a job

`kill_pid` of `jobs.c`, with `find_pipeline`, `find_job` and `set_job_running`. A pipeline is a
circular chain of `PROCESS`es in memory. `SIGCHLD` is blocked meanwhile, so that no status
changes. `RECYCLES_PIDS` is not defined. The loops have fuel.
-/

namespace Basht.KillPid

open JobTable Circular

def SIGHUP : Int := 1

def SIGTERM : Int := 15

def SIGCONT : Int := 18

def EXECUTION_SUCCESS : Int := 0

/-- A `PROCESS` in memory. -/
structure Node extends Process where
  next : Nat

/-- A `JOB`, with `J_FOREGROUND` and `J_NOTIFIED`. -/
structure Job where
  pipe : Nat
  pgrp : Int
  state : JobState
  foreground : Bool
  notified : Bool

/-- `the_pipeline`, the pipelines of `saved_pipeline`, the processes of `procsubs`, `jobs` and
`shell_pgrp`. -/
structure Shell where
  mem : Nat → Node
  thePipeline : Option Nat
  savedPipeline : List (Option Nat)
  procsubs : List Nat
  jobs : List (Option Job)
  shellPgrp : Int

/-- A call of `kill`, or of `killpg` if `group` holds. -/
structure Call where
  group : Bool
  pid : Int
  sig : Int
  deriving DecidableEq

namespace Shell

def next (s : Shell) (p : Nat) : Nat := (s.mem p).next

def setJob (s : Shell) (job : Nat) (j : Job) : Shell := { s with jobs := s.jobs.set job (some j) }

/-- A round of `find_pid_in_pipeline`. -/
def findRound (s : Shell) (pid : Int) (p : Nat) (_ : Unit) : Nat ⊕ Nat × Unit :=
  if (s.mem p).pid = pid then .inl p else .inr (s.next p, ())

/-- `find_pid_in_pipeline (pid, pipeline, 0)` -/
def findPidInPipeline (fuel : Nat) (s : Shell) (pid : Int) (pipeline : Nat) : Option (Option Nat) :=
  (doWhile (s.findRound pid) pipeline fuel pipeline ()).map Sum.getLeft?

/-- Is there a process `pid` in one of the pipelines? -/
def findSaved (fuel : Nat) (s : Shell) (pid : Int) : List (Option Nat) → Option (Option Nat)
  | [] => some none
  | none :: saves => findSaved fuel s pid saves
  | some pipeline :: saves => do
    let p ← s.findPidInPipeline fuel pid pipeline
    if p.isSome then some p else findSaved fuel s pid saves

/-- `find_job (pid, 0, &p)`, from the slot `i` on; the loop over a job is that of
`find_pid_in_pipeline`. -/
def findJob (fuel : Nat) (s : Shell) (pid : Int) : Nat → List (Option Job) → Option (Option Nat)
  | _, [] => some none
  | i, none :: js => findJob fuel s pid (i + 1) js
  | i, some j :: js => do
    let p ← s.findPidInPipeline fuel pid j.pipe
    if p.isSome then some (some i) else findJob fuel s pid (i + 1) js

/-- The job that `find_pipeline (pid, 0, &job)` finds; `none` is `NO_JOB`. -/
def findPipeline (fuel : Nat) (s : Shell) (pid : Int) : Option (Option Nat) := do
  let p ← findSaved fuel s pid (s.thePipeline :: s.savedPipeline)
  if p.isSome then some none
  else if (s.procsubs.find? fun q => (s.mem q).pid = pid).isSome then some none
  else findJob fuel s pid 0 s.jobs

/-- A round of the loop of `set_job_running`. -/
def runRound (p : Nat) (mem : Nat → Node) : Empty ⊕ Nat × (Nat → Node) :=
  let mem := if (mem p).isStopped then
      Function.update mem p { mem p with running := .running }
    else mem
  .inr ((mem p).next, mem)

/-- `set_job_running` -/
def setJobRunning (fuel : Nat) (s : Shell) (job : Nat) (j : Job) : Option Shell := do
  let mem ← (doWhile runRound j.pipe fuel j.pipe s.mem).bind Sum.getRight?
  some ({ s with mem }.setJob job { j with state := .running })

/-- The calls for a process that is alive. -/
def callsFor (s : Shell) (sig : Int) (p : Nat) : List Call :=
  ⟨false, (s.mem p).pid, sig⟩ ::
    if (s.mem p).running = .done ∧ (sig = SIGTERM ∨ sig = SIGHUP) then
      [⟨false, (s.mem p).pid, SIGCONT⟩]
    else []

/-- A round of the loop of `kill_pid`; for a process that is not alive, `continue` goes to the test
behind the loop without a step to the next process. -/
def killRound (s : Shell) (sig : Int) (p : Nat) (calls : List Call) :
    Empty ⊕ Nat × List Call :=
  if (s.mem p).isAlive = false then .inr (p, calls)
  else .inr (s.next p, calls ++ s.callsFor sig p)

/-- The loop of `kill_pid`. -/
def killMembers (fuel : Nat) (s : Shell) (sig : Int) (pipe : Nat) : Option (List Call) :=
  (doWhile (s.killRound sig) pipe fuel pipe []).bind Sum.getRight?

end Shell

/-- What `kill_pid` leaves, with the calls that it makes. -/
structure Outcome where
  result : Int
  shell : Shell
  calls : List Call

section

variable (answer : Call → Int)

/-- A call whose result is that of `kill_pid`. -/
def callOnce (s : Shell) (call : Call) : Outcome := ⟨answer call, s, [call]⟩

/-- A job with a process group of its own. -/
def killGroup (fuel : Nat) (s : Shell) (job : Nat) (j : Job) (sig : Int) : Option Outcome :=
  let call : Call := ⟨true, j.pgrp, sig⟩
  let stopped := j.state = .stopped
  let calls :=
    if stopped ∧ (sig = SIGTERM ∨ sig = SIGHUP) then [call, ⟨true, j.pgrp, SIGCONT⟩] else [call]
  if stopped ∧ sig = SIGCONT then do
    let t ← s.setJobRunning fuel job j
    let t := t.setJob job { j with state := .running, foreground := false, notified := true }
    some ⟨answer call, t, calls⟩
  else some ⟨answer call, s, calls⟩

/-- `kill_pid (pid, sig, group)`; `answer` is what `kill` and `killpg` return. -/
def killPid (fuel : Nat) (s : Shell) (pid sig : Int) (group : Bool) : Option Outcome :=
  let negative := decide (pid < -1)
  let group := group || negative
  let pid := if negative then -pid else pid
  if group then do
    let job ← s.findPipeline fuel pid
    match job.bind fun i => (s.jobs.getD i none).map fun j => (i, j) with
    | none => some (callOnce answer s ⟨true, pid, sig⟩)
    | some (i, j) =>
      let j := { j with notified := false }
      let s := s.setJob i j
      if negative ∧ j.pgrp = s.shellPgrp then some (callOnce answer s ⟨true, pid, sig⟩)
      else if j.pgrp = s.shellPgrp then do
        let calls ← s.killMembers fuel sig j.pipe
        some ⟨EXECUTION_SUCCESS, s, calls⟩
      else killGroup answer fuel s i j sig
  else some (callOnce answer s ⟨false, pid, sig⟩)

end

/-! ## The job of a process -/

namespace Shell

variable {s : Shell} {pid sig : Int} {p i : Nat} {j : Job} {rest : List Nat}

/-- A pipeline without a process `pid`. -/
def Lacks (s : Shell) (pid : Int) (p : Nat) : Prop :=
  ∃ rest, Circular s.next p rest ∧ ∀ q ∈ p :: rest, (s.mem q).pid ≠ pid

/-- The process `pid` is a member of the job `j` in the slot `i`, and no other process that is
looked at before has its number. -/
structure Owns (s : Shell) (pid : Int) (i : Nat) (j : Job) (rest : List Nat) : Prop where
  slot : s.jobs[i]? = some (some j)
  ring : Circular s.next j.pipe rest
  member : ∃ q ∈ j.pipe :: rest, (s.mem q).pid = pid
  positive : 0 < pid
  saved : ∀ p, some p ∈ s.thePipeline :: s.savedPipeline → s.Lacks pid p
  procsubs : ∀ q ∈ s.procsubs, (s.mem q).pid ≠ pid
  earlier : ∀ j', some j' ∈ s.jobs.take i → s.Lacks pid j'.pipe

theorem findPid_lacks (h : s.Lacks pid p) :
    ∃ n, ∀ fuel, n ≤ fuel → s.findPidInPipeline fuel pid p = some none := by
  obtain ⟨rest, hring, hpid⟩ := h
  refine ⟨rest.length + 1, fun fuel hfuel => ?_⟩
  have hround : ∀ u ∈ p :: rest, ∀ t, s.findRound pid u t = .inr (s.next u, ()) := fun u hu _ =>
    if_neg (hpid u hu)
  unfold findPidInPipeline
  rw [hring.doWhile_around (f := fun _ _ => ()) hround hfuel]
  rfl

theorem findPid_member (hring : Circular s.next p rest)
    (hpid : ∃ q ∈ p :: rest, (s.mem q).pid = pid) :
    ∃ n, ∀ fuel, n ≤ fuel → ∃ q, s.findPidInPipeline fuel pid p = some (some q) := by
  obtain ⟨q, hfind⟩ : ∃ q, (p :: rest).find? (fun q => (s.mem q).pid = pid) = some q := by
    obtain ⟨q, hq, heq⟩ := hpid
    exact Option.isSome_iff_exists.mp (List.find?_isSome.mpr ⟨q, hq, decide_eq_true heq⟩)
  obtain ⟨hq, us, vs, hsplit, hus⟩ := List.find?_eq_some_iff_append.mp hfind
  refine ⟨us.length + 1, fun fuel hfuel => ⟨q, ?_⟩⟩
  have hround : ∀ u ∈ us, ∀ t, s.findRound pid u t = .inr (s.next u, ()) := fun u hu _ =>
    if_neg (by simpa using hus u hu)
  have hleave : ∀ t, s.findRound pid q t = .inl q := fun _ => if_pos (of_decide_eq_true hq)
  unfold findPidInPipeline
  rw [hring.doWhile_leaves (f := fun _ _ => ()) hsplit hround hleave hfuel]
  rfl

theorem findSaved_none {saves : List (Option Nat)} (h : ∀ p, some p ∈ saves → s.Lacks pid p) :
    ∃ n, ∀ fuel, n ≤ fuel → findSaved fuel s pid saves = some none := by
  induction saves with
  | nil => exact ⟨0, fun _ _ => rfl⟩
  | cons save saves ih =>
    obtain ⟨n, hn⟩ := ih fun p hp => h p (List.mem_cons_of_mem _ hp)
    cases save with
    | none => exact ⟨n, hn⟩
    | some pipeline =>
      obtain ⟨m, hm⟩ := findPid_lacks (h pipeline List.mem_cons_self)
      refine ⟨max m n, fun fuel hfuel => ?_⟩
      rw [findSaved, hm fuel (le_trans (le_max_left m n) hfuel)]
      exact hn fuel (le_trans (le_max_right m n) hfuel)

theorem findJob_eq {js : List (Option Job)} (hslot : js[i]? = some (some j))
    (hring : Circular s.next j.pipe rest) (hpid : ∃ q ∈ j.pipe :: rest, (s.mem q).pid = pid)
    (hearlier : ∀ j', some j' ∈ js.take i → s.Lacks pid j'.pipe) (k : Nat) :
    ∃ n, ∀ fuel, n ≤ fuel → findJob fuel s pid k js = some (some (k + i)) := by
  induction js generalizing i k with
  | nil => cases hslot
  | cons slot js ih =>
    cases i with
    | zero =>
      obtain rfl : slot = some j := by simpa using hslot
      obtain ⟨n, hn⟩ := findPid_member hring hpid
      refine ⟨n, fun fuel hfuel => ?_⟩
      obtain ⟨q, hq⟩ := hn fuel hfuel
      rw [findJob, hq]
      rfl
    | succ i =>
      rw [List.take_succ_cons] at hearlier
      obtain ⟨n, hn⟩ := ih (by simpa using hslot)
        (fun j' hj' => hearlier j' (List.mem_cons_of_mem _ hj')) (k + 1)
      rw [Nat.add_right_comm] at hn
      cases slot with
      | none => exact ⟨n, hn⟩
      | some j' =>
        obtain ⟨m, hm⟩ := findPid_lacks (hearlier j' List.mem_cons_self)
        refine ⟨max m n, fun fuel hfuel => ?_⟩
        rw [findJob, hm fuel (le_trans (le_max_left m n) hfuel)]
        exact hn fuel (le_trans (le_max_right m n) hfuel)

theorem findPipeline_eq (h : s.Owns pid i j rest) :
    ∃ n, ∀ fuel, n ≤ fuel → s.findPipeline fuel pid = some (some i) := by
  obtain ⟨m, hm⟩ := findSaved_none h.saved
  obtain ⟨n, hn⟩ := findJob_eq h.slot h.ring h.member h.earlier 0
  refine ⟨max m n, fun fuel hfuel => ?_⟩
  have hprocsubs : (s.procsubs.find? fun q => decide ((s.mem q).pid = pid)) = none :=
    List.find?_eq_none.mpr fun q hq => by simpa using h.procsubs q hq
  unfold findPipeline
  rw [hm fuel (le_trans (le_max_left m n) hfuel), hprocsubs]
  have hjob := hn fuel (le_trans (le_max_right m n) hfuel)
  rw [Nat.zero_add] at hjob
  exact hjob

/-! ## The loop -/

theorem killRound_alive (h : (s.mem p).isAlive = true) (calls : List Call) :
    s.killRound sig p calls = .inr (s.next p, calls ++ s.callsFor sig p) :=
  if_neg (by rw [h]; exact Bool.noConfusion)

theorem killRound_dead (h : (s.mem p).isAlive = false) (calls : List Call) :
    s.killRound sig p calls = .inr (p, calls) := if_pos h

theorem foldl_calls (s : Shell) (sig : Int) (ps : List Nat) (calls : List Call) :
    ps.foldl (fun calls q => calls ++ s.callsFor sig q) calls =
      calls ++ ps.flatMap (s.callsFor sig) := by
  induction ps generalizing calls with
  | nil => exact (List.append_nil calls).symm
  | cons q ps ih => rw [List.foldl_cons, ih, List.append_assoc, List.flatMap_cons]

/-- If all are alive, there are calls for each. -/
theorem killMembers_alive (sig : Int) (hring : Circular s.next p rest)
    (halive : ∀ q ∈ p :: rest, (s.mem q).isAlive = true) {fuel : Nat}
    (hfuel : rest.length < fuel) :
    s.killMembers fuel sig p = some ((p :: rest).flatMap (s.callsFor sig)) := by
  unfold killMembers
  rw [hring.doWhile_around (fun q hq => killRound_alive (halive q hq)) hfuel, foldl_calls]
  rfl

/-- A first process that is not alive ends the loop. -/
theorem killMembers_first (hfirst : (s.mem p).isAlive = false) {fuel : Nat} (hfuel : 0 < fuel) :
    s.killMembers fuel sig p = some [] := by
  obtain ⟨fuel, rfl⟩ := Nat.exists_eq_succ_of_ne_zero (Nat.ne_of_gt hfuel)
  unfold killMembers
  rw [doWhile_go (killRound_dead hfirst []), if_pos rfl]
  rfl

/-- Another one is never left. -/
theorem killMembers_stuck (hring : Circular s.next p rest) (hfirst : (s.mem p).isAlive = true)
    (hdead : ∃ q ∈ p :: rest, (s.mem q).isAlive = false) (fuel : Nat) :
    s.killMembers fuel sig p = none := by
  obtain ⟨q, hfind⟩ : ∃ q, (p :: rest).find? (fun q => !(s.mem q).isAlive) = some q := by
    obtain ⟨q, hq, hdead⟩ := hdead
    exact Option.isSome_iff_exists.mp (List.find?_isSome.mpr ⟨q, hq, by rw [hdead]; rfl⟩)
  obtain ⟨hq, us, vs, hsplit, hus⟩ := List.find?_eq_some_iff_append.mp hfind
  have hqdead : (s.mem q).isAlive = false := by simpa using hq
  have hne : q ≠ p := by
    rintro rfl
    rw [hfirst] at hqdead
    cases hqdead
  have hgo : ∀ u ∈ us, ∀ calls, s.killRound sig u calls = .inr (s.next u, calls ++ s.callsFor sig u) :=
    fun u hu => killRound_alive (by simpa using hus u hu)
  unfold killMembers
  rw [hring.doWhile_stuck hsplit hne hgo (killRound_dead hqdead)]
  rfl

/-! ## All members of a job -/

/-- The signal is sent once to each of the processes that is alive, and to no other one. -/
def Reached (s : Shell) (sig : Int) (ps : List Nat) (o : Outcome) : Prop :=
  (o.calls.filter fun call => call.sig = sig).Perm
    ((ps.filter fun p => (s.mem p).isAlive).map fun p => ⟨false, (s.mem p).pid, sig⟩)

theorem filter_callsFor (s : Shell) (sig : Int) (p : Nat) :
    (s.callsFor sig p).filter (fun call => call.sig = sig) = [⟨false, (s.mem p).pid, sig⟩] := by
  unfold callsFor
  split
  · rename_i h
    rcases h.2 with rfl | rfl
    · rfl
    · rfl
  · simp

theorem filter_calls (s : Shell) (sig : Int) (ps : List Nat) :
    (ps.flatMap (s.callsFor sig)).filter (fun call => call.sig = sig) =
      ps.map fun p => ⟨false, (s.mem p).pid, sig⟩ := by
  rw [List.filter_flatMap]
  simp only [filter_callsFor]
  exact List.flatMap_pure_eq_map _ _

end Shell

open Shell

variable {s : Shell} {pid : Int} {i : Nat} {j : Job} {rest : List Nat}

theorem killPid_eq (answer : Call → Int) (h : s.Owns pid i j rest) (hpgrp : j.pgrp = s.shellPgrp)
    (sig : Int) : ∃ n, ∀ fuel, n ≤ fuel → killPid answer fuel s pid sig true =
      (s.killMembers fuel sig j.pipe).map fun calls =>
        ⟨EXECUTION_SUCCESS, s.setJob i { j with notified := false }, calls⟩ := by
  obtain ⟨n, hn⟩ := findPipeline_eq h
  refine ⟨n, fun fuel hfuel => ?_⟩
  have hpos := h.positive
  have hnegative : decide (pid < -1) = false := decide_eq_false (by omega)
  have hslot : s.jobs.getD i none = some j := by
    rw [List.getD_eq_getElem?_getD, h.slot]
    rfl
  unfold killPid
  simp only [hnegative, Bool.or_false, Bool.false_eq_true, if_false, if_true, false_and]
  rw [hn fuel hfuel]
  simp only [Option.bind_eq_bind, Option.bind_some, hslot, Option.map_some]
  rw [if_pos (show j.pgrp = (s.setJob i { j with notified := false }).shellPgrp from hpgrp)]
  change (s.killMembers fuel sig j.pipe).bind _ = _
  cases s.killMembers fuel sig j.pipe with
  | none => rfl
  | some calls => rfl

/-- `kill_pid` returns and reaches the members of a job that are alive if and only if all are or
none is. -/
theorem kill_reaches_alive (answer : Call → Int) (h : s.Owns pid i j rest)
    (hpgrp : j.pgrp = s.shellPgrp) (sig : Int) :
    (∃ n, ∀ fuel, n ≤ fuel → ∃ o, killPid answer fuel s pid sig true = some o ∧
      s.Reached sig (j.pipe :: rest) o) ↔
      (∀ p ∈ j.pipe :: rest, (s.mem p).isAlive = true) ∨
        (∀ p ∈ j.pipe :: rest, (s.mem p).isAlive = false) := by
  obtain ⟨n, hn⟩ := killPid_eq answer h hpgrp sig
  cases hfirst : (s.mem j.pipe).isAlive with
  | true =>
    by_cases hall : ∀ p ∈ j.pipe :: rest, (s.mem p).isAlive = true
    · refine ⟨fun _ => Or.inl hall, fun _ => ⟨max n (rest.length + 1), fun fuel hfuel => ?_⟩⟩
      have hcalls := killMembers_alive sig h.ring hall
        (le_trans (le_max_right n (rest.length + 1)) hfuel)
      have hkill := hn fuel (le_trans (le_max_left n (rest.length + 1)) hfuel)
      rw [hcalls] at hkill
      refine ⟨_, hkill, ?_⟩
      have halive : (j.pipe :: rest).filter (fun p => (s.mem p).isAlive) = j.pipe :: rest :=
        List.filter_eq_self.mpr hall
      unfold Reached
      rw [halive]
      exact List.Perm.of_eq (filter_calls s sig (j.pipe :: rest))
    · obtain ⟨q, hq, hnot⟩ := not_forall₂.mp hall
      have hdead : ∃ q ∈ j.pipe :: rest, (s.mem q).isAlive = false :=
        ⟨q, hq, Bool.eq_false_iff.mpr hnot⟩
      constructor
      · rintro ⟨m, hm⟩
        obtain ⟨o, ho, -⟩ := hm (max n m) (le_max_right n m)
        rw [hn _ (le_max_left n m), killMembers_stuck h.ring hfirst hdead] at ho
        cases ho
      · rintro (h' | h')
        · exact absurd h' hall
        · have hpipe := h' j.pipe List.mem_cons_self
          rw [hfirst] at hpipe
          cases hpipe
  | false =>
    by_cases hnone : ∀ p ∈ j.pipe :: rest, (s.mem p).isAlive = false
    · refine ⟨fun _ => Or.inr hnone, fun _ => ⟨max n 1, fun fuel hfuel => ?_⟩⟩
      have hkill := hn fuel (le_trans (le_max_left n 1) hfuel)
      rw [killMembers_first hfirst (le_trans (le_max_right n 1) hfuel)] at hkill
      refine ⟨_, hkill, ?_⟩
      have hdead : (j.pipe :: rest).filter (fun p => (s.mem p).isAlive) = [] :=
        List.filter_eq_nil_iff.mpr fun p hp => by rw [hnone p hp]; exact Bool.false_ne_true
      unfold Reached
      rw [hdead]
      exact List.Perm.refl _
    · constructor
      · rintro ⟨m, hm⟩
        obtain ⟨o, ho, hreached⟩ := hm (max n (max m 1))
          (le_trans (le_max_left m 1) (le_max_right n _))
        rw [hn _ (le_max_left n _), killMembers_first hfirst
          (le_trans (le_max_right m 1) (le_max_right n _))] at ho
        cases ho
        -- nothing is sent, so that none of them is alive
        have hempty := List.nil_perm.mp hreached
        refine Or.inr fun p hp => ?_
        have hnot := List.filter_eq_nil_iff.mp (List.map_eq_nil_iff.mp hempty) p hp
        exact Bool.eq_false_iff.mpr hnot
      · rintro (h' | h')
        · have hpipe := h' j.pipe List.mem_cons_self
          rw [hfirst] at hpipe
          cases hpipe
        · exact absurd h' hnone

/-- A job of two processes, in a shell that has nothing else. -/
def twoMembers (first second : Running) : Shell where
  mem p := if p = 0 then ⟨⟨71, .exited 0, first⟩, 1⟩ else ⟨⟨72, .exited 0, second⟩, 0⟩
  thePipeline := none
  savedPipeline := []
  procsubs := []
  jobs := [some ⟨0, 50, .running, false, false⟩]
  shellPgrp := 50

theorem twoMembers_circular (first second : Running) :
    Circular (twoMembers first second).next 0 [1] :=
  ⟨by decide, List.isChain_cons_cons.mpr ⟨rfl, List.isChain_pair.mpr rfl⟩⟩

theorem twoMembers_owns (first second : Running) :
    (twoMembers first second).Owns 72 0 ⟨0, 50, .running, false, false⟩ [1] where
  slot := rfl
  ring := twoMembers_circular first second
  member := ⟨1, by decide, rfl⟩
  positive := by decide
  saved p hp := by simp [twoMembers] at hp
  procsubs q hq := absurd hq List.not_mem_nil
  earlier j' hj' := absurd hj' List.not_mem_nil

theorem kill_reaches_alive_two : ∃ n, ∀ fuel, n ≤ fuel → ∃ o,
    killPid (fun _ => 0) fuel (twoMembers .running .running) 72 SIGTERM true = some o ∧
      (twoMembers .running .running).Reached SIGTERM [0, 1] o := by
  apply (kill_reaches_alive (fun _ => 0) (twoMembers_owns .running .running) rfl SIGTERM).mpr
  left
  intro p hp
  rcases List.mem_cons.mp hp with rfl | hp
  · rfl
  · rw [List.mem_singleton.mp hp]
    rfl

/-- With a second process that has exited, `kill_pid` never returns. -/
theorem kill_hangs : ¬∃ n, ∀ fuel, n ≤ fuel → ∃ o,
    killPid (fun _ => 0) fuel (twoMembers .running .done) 72 SIGTERM true = some o := by
  rintro ⟨m, hm⟩
  obtain ⟨n, hn⟩ := killPid_eq (fun _ => 0) (twoMembers_owns .running .done) rfl SIGTERM
  obtain ⟨o, ho⟩ := hm (max n m) (le_max_right n m)
  rw [hn _ (le_max_left n m), killMembers_stuck (twoMembers_circular .running .done) rfl
    ⟨1, by decide, rfl⟩] at ho
  cases ho

end Basht.KillPid
