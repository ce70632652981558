import Basht.Library.SlotTable

/-!
# The job table

The job table of `jobs.c`: `stop_pipeline`, `waitchld` with `set_job_status_and_cleanup`,
`start_job`, `delete_job`, `cleanup_dead_jobs`, `compact_jobs_list`, `realloc_jobs_list` and
`delete_all_jobs`, with `jobs_list_frozen` zero. An operation fails (`none`) where a loop would not
end or `realloc_jobs_list` would write past the new list.
-/

namespace Basht.JobTable

open SlotTable

/-- What `wait` says of a process. -/
inductive Status where
  | exited (code : Nat)
  | signaled (sig : Nat)
  | stopped (sig : Nat)
  | continued
deriving DecidableEq

/-- `PS_DONE`, `PS_RUNNING`, `PS_STOPPED` and `PS_RECYCLED`. -/
inductive Running where
  | done
  | running
  | stopped
  | recycled
deriving DecidableEq

structure Process where
  pid : Int
  status : Status
  running : Running
deriving DecidableEq

/-- `PRUNNING` -/
def Process.isRunning (p : Process) : Bool := p.running = .running

/-- `PSTOPPED` -/
def Process.isStopped (p : Process) : Bool :=
  match p.status with
  | .stopped _ => true
  | _ => false

/-- `PALIVE` -/
def Process.isAlive (p : Process) : Bool := p.isRunning || p.isStopped

inductive JobState where
  | running
  | stopped
  | dead
deriving DecidableEq

/-- A job; the flags are `J_FOREGROUND`, `J_NOTIFIED`, `J_JOBCONTROL`, `J_ASYNC` and
`J_PIPEFAIL`. -/
structure Job where
  pipe : List Process
  state : JobState
  foreground : Bool
  notified : Bool
  jobcontrol : Bool
  async : Bool
  pipefail : Bool
deriving DecidableEq

/-- `jobs` and `js`; `j_jobslots` is the length of the list, and `none` is `NO_JOB`. -/
structure Table where
  jobs : List (Option Job)
  firstj : Nat
  lastj : Nat
  njobs : Int
  ndead : Int
  current : Option Nat
  previous : Option Nat
deriving DecidableEq

/-- What else the shell is: `subshell` says that `subshell_environment` is not zero. -/
structure Shell where
  interactive : Bool
  interactiveShell : Bool
  subshell : Bool
  jobControl : Bool
  pipefailOpt : Bool
  lastAsynchronousPid : Int
  childmax : Int

/-- `JOB_SLOTS` -/
def jobSlots : Nat := 8

/-- `MAX_JOBS_IN_ARRAY` -/
def maxJobsInArray : Nat := 4096

namespace Job

/-- `raw_job_exit_status` -/
def rawExitStatus (j : Job) : Status :=
  if j.pipefail then
    j.pipe.foldl (fun fail p => if p.status ≠ .exited 0 then p.status else fail) (.exited 0)
  else
    match j.pipe.getLast? with
    | some p => p.status
    | none => .exited 0

/-- `job_killed_by_signal`: neither `SIGINT` nor `SIGPIPE` counts. -/
def killedBySignal (j : Job) : Bool :=
  match j.rawExitStatus with
  | .signaled sig => sig ≠ 0 && sig ≠ 2 && sig ≠ 13
  | _ => false

/-- `find_last_pid` -/
def lastPid (j : Job) : Int :=
  match j.pipe.getLast? with
  | some p => p.pid
  | none => 0

/-- `set_job_running` -/
def setRunning (j : Job) : Job :=
  { j with
    pipe := j.pipe.map fun p => if p.isStopped then { p with running := .running } else p
    state := .running }

/-- `child->status = status`, and whether it runs, for the process `pid`. -/
def setStatus (j : Job) (pid : Int) (status : Status) : Job :=
  { j with
    pipe := go j.pipe }
where
  go : List Process → List Process
    | [] => []
    | p :: ps =>
      if p.pid = pid
      then { p with status, running := if status = .continued then .running else .done } :: ps
      else p :: go ps

end Job

/-- Whether a slot holds a dead job. -/
def isDead : Option Job → Bool
  | some j => j.state = .dead
  | none => false

namespace Table

def start : Table := ⟨[], 0, 0, 0, 0, none, none⟩

/-- `js.j_jobslots` -/
def jobslots (t : Table) : Nat := t.jobs.length

/-- `jobs[i]` -/
def job (t : Table) (i : Nat) : Option Job := slot t.jobs i

/-- Job `i` is there and in `state`. -/
def inState (t : Table) (state : JobState) (i : Nat) : Bool := (t.job i).any (·.state = state)

def setJob (t : Table) (i : Nat) (j : Job) : Table := { t with jobs := t.jobs.set i (some j) }

/-! ## The current and the previous job -/

/-- `most_recent_job_in_state` -/
def mostRecentJobInState (t : Table) (state : JobState) : Nat → Option Nat
  | 0 => none
  | i + 1 => if t.inState state i then some i else t.mostRecentJobInState state i

/-- `set_current_job` -/
def setCurrentJob (t : Table) (job : Nat) : Table :=
  let t := if t.current = some job then t
    else { t with previous := t.current, current := some job }
  if t.previous ≠ t.current && t.previous.any (t.inState .stopped) then t
  else
    match if t.inState .stopped job then t.mostRecentJobInState .stopped job else none with
    | some candidate => { t with previous := some candidate }
    | none =>
      match t.mostRecentJobInState .running
        (if t.inState .running job then job else t.jobslots) with
      | some candidate => { t with previous := some candidate }
      | none => { t with previous := t.current }

/-- `reset_current` -/
def resetCurrent (t : Table) : Table :=
  let candidate :=
    if t.current.any (t.inState .stopped) then t.current
    else if t.previous.any (t.inState .stopped) then t.previous
    else
      match t.mostRecentJobInState .stopped t.jobslots with
      | some i => some i
      | none => t.mostRecentJobInState .running t.jobslots
  match candidate with
  | some i => t.setCurrentJob i
  | none => { t with current := none, previous := none }

/-! ## Deletion -/

/-- The first loop of `reset_job_indices`: `js.j_firstj` at its end. -/
def scanForward (t : Table) (old : Nat) : Nat → Nat → Option Nat
  | 0, _ => none
  | fuel + 1, i =>
    if i = old then some i
    else
      let i := if t.jobslots ≤ i then 0 else i
      if (t.job i).isSome || i = old then some i else t.scanForward old fuel (i + 1)

/-- The second loop: `js.j_lastj` at its end. -/
def scanBackward (t : Table) (old : Int) : Nat → Int → Option Int
  | 0, _ => none
  | fuel + 1, i =>
    if i = old then some i
    else
      let i : Int := if i < 0 then t.jobslots - 1 else i
      if (t.job i.toNat).isSome || i = old then some i else t.scanBackward old fuel (i - 1)

/-- The first half of `reset_job_indices`. -/
def resetFirst (t : Table) : Option Table :=
  if (t.job t.firstj).isSome then some t
  else do
    let old := if t.jobslots ≤ t.firstj then t.jobslots - 1 else t.firstj
    let i ← t.scanForward old (t.jobslots + 1) (t.firstj + 1)
    some (if i = old then { t with firstj := 0, lastj := 0, njobs := 0 }
      else { t with firstj := i })

/-- The second half. -/
def resetLast (t : Table) : Option Table :=
  if (t.job t.lastj).isSome then some t
  else do
    let i ← t.scanBackward t.lastj (t.jobslots + 1) ((t.lastj : Int) - 1)
    some (if i = t.lastj then { t with firstj := 0, lastj := 0, njobs := 0 }
      else { t with lastj := i.toNat })

/-- `reset_job_indices` -/
def resetJobIndices (t : Table) : Option Table := do
  let t ← t.resetFirst
  t.resetLast

/-- `jobs[job_index] = 0`, and the counters. -/
def clearJob (t : Table) (i : Nat) (temp : Job) : Table :=
  { t with
    jobs := t.jobs.set i none
    ndead := if temp.state = .dead then t.ndead - 1 else t.ndead
    njobs := t.njobs - 1 }

/-- `js.j_firstj` and `js.j_lastj` after a deletion. -/
def fixIndices (t : Table) : Option Table :=
  if t.njobs = 0 then some { t with firstj := 0, lastj := 0 }
  else if (t.job t.firstj).isNone || (t.job t.lastj).isNone then t.resetJobIndices
  else some t

/-- `delete_job` -/
def deleteJob (t : Table) (i : Nat) : Option Table :=
  match t.job i with
  | none => some t
  | some temp => do
    let t ← (t.clearJob i temp).fixIndices
    some (if t.current = some i ∨ t.previous = some i then t.resetCurrent else t)

/-- Delete the jobs that `p` holds of, in their order. -/
def deleteWhere (t : Table) (p : Job → Bool) : Option Table :=
  (List.range t.jobslots).foldlM (fun t i => if (t.job i).any p then t.deleteJob i else some t) t

/-- `cleanup_dead_jobs` -/
def cleanupDeadJobs (t : Table) : Option Table :=
  t.deleteWhere fun j => j.state = .dead && (j.notified || j.foreground && !j.killedBySignal)

/-- The last loop of `mark_dead_jobs_as_notified`. -/
def markLoop (sh : Shell) : Int → List (Option Job) → List (Option Job)
  | _, [] => []
  | ndeadproc, none :: js => none :: markLoop sh ndeadproc js
  | ndeadproc, some j :: js =>
    if j.state = .dead && (sh.interactiveShell || j.lastPid ≠ sh.lastAsynchronousPid) then
      if ndeadproc - j.pipe.length ≤ sh.childmax then some j :: js
      else some { j with notified := true } :: markLoop sh (ndeadproc - j.pipe.length) js
    else some j :: markLoop sh ndeadproc js

/-- The number of processes in the dead jobs. -/
def deadProcesses : List (Option Job) → Int
  | [] => 0
  | none :: js => deadProcesses js
  | some j :: js => (if j.state = .dead then (j.pipe.length : Int) else 0) + deadProcesses js

/-- `mark_dead_jobs_as_notified (0)` -/
def markDeadJobsAsNotified (sh : Shell) (t : Table) : Table :=
  if deadProcesses t.jobs ≤ sh.childmax then t
  else { t with jobs := markLoop sh (deadProcesses t.jobs) t.jobs }

/-- `reap_dead_jobs` -/
def reapDeadJobs (sh : Shell) (t : Table) : Option Table :=
  (t.markDeadJobsAsNotified sh).cleanupDeadJobs

/-- `delete_all_jobs` -/
def deleteAllJobs (t : Table) (runningOnly : Bool) : Option Table :=
  if t.jobslots = 0 then some t
  else do
    let t ← Table.deleteWhere { t with current := none, previous := none }
      fun j => !runningOnly || j.state = .running
    some (if runningOnly then t
      else { t with jobs := [], firstj := 0, lastj := 0, njobs := 0, ndead := 0 })

/-! ## Compaction -/

/-- What the copying loop of `realloc_jobs_list` builds. -/
structure Copy where
  nlist : List Job
  ncur : Option Nat
  nprev : Option Nat
  ndead : Int

/-- The copying loop, from slot `i` on. -/
def copyJobs (t : Table) : Nat → List (Option Job) → Copy → Copy
  | _, [], c => c
  | i, none :: js, c => t.copyJobs (i + 1) js c
  | i, some j :: js, c => t.copyJobs (i + 1) js
    { nlist := c.nlist ++ [j]
      ncur := if t.current = some i then some c.nlist.length else c.ncur
      nprev := if t.previous = some i then some c.nlist.length else c.nprev
      ndead := if j.state = .dead then c.ndead + 1 else c.ndead }

/-- `nsize` -/
def newSize (t : Table) : Nat :=
  let nsize := (t.njobs + jobSlots - 1) / jobSlots * jobSlots
  let i := t.njobs % jobSlots
  (if i = 0 ∨ (jobSlots : Int) / 2 < i then nsize + jobSlots else nsize).toNat

/-- `realloc_jobs_list`, up to the test of `js.j_current` and `js.j_previous` -/
def packed (t : Table) : Table :=
  let c := t.copyJobs 0 t.jobs ⟨[], none, none, 0⟩
  { jobs := c.nlist.map some ++ List.replicate (t.newSize - c.nlist.length) none
    firstj := 0
    lastj := c.nlist.length - 1
    njobs := c.nlist.length
    ndead := c.ndead
    current := if c.ncur = none then t.current else c.ncur
    previous := if c.nprev = none then t.previous else c.nprev }

/-- Whether `js.j_current` or `js.j_previous` does not name a job of the list. -/
def astray (t : Table) : Option Nat → Bool
  | none => true
  | some i => t.lastj < i

/-- `realloc_jobs_list` -/
def reallocJobsList (t : Table) : Option Table :=
  if t.newSize < (t.copyJobs 0 t.jobs ⟨[], none, none, 0⟩).nlist.length then none
  else some (if t.packed.astray t.packed.current || t.packed.astray t.packed.previous
    then t.packed.resetCurrent else t.packed)

/-- `compact_jobs_list`, with the slot that it returns -/
def compactJobsList (sh : Shell) (t : Table) : Option (Table × Nat) :=
  if t.jobslots = 0 then some (t, 0)
  else do
    let t ← t.reapDeadJobs sh
    let t ← t.reallocJobsList
    some (t, if t.lastj ≠ 0 ∨ (t.job t.lastj).isSome then t.lastj + 1 else 0)

/-! ## A new job -/

/-- From the last slot backward, past the free ones. -/
def lastUsed (t : Table) : Nat → Nat
  | 0 => 0
  | i + 1 => if (t.job i).isSome then i + 1 else t.lastUsed i

/-- From slot `i` on, with `n` slots to go, up to a free one. -/
def nextFree (t : Table) : Nat → Nat → Nat
  | 0, i => i
  | n + 1, i => if (t.job i).isNone then i else t.nextFree n (i + 1)

/-- `stop_pipeline`: a table with slots. -/
def withSlots (t : Table) : Table :=
  if t.jobslots = 0
  then { t with jobs := List.replicate jobSlots none, firstj := 0, lastj := 0, njobs := 0 }
  else t

/-- The slot that the search of `stop_pipeline` finds. -/
def findSlot (sh : Shell) (t : Table) : Nat :=
  if sh.interactive then t.lastUsed t.jobslots
  else
    let i := if t.lastj ≠ 0 then t.lastj + 1 else t.lastj
    t.nextFree (t.jobslots - i) i

/-- "First try compaction": where the array is full and large. -/
def compactIfFull (sh : Shell) (t : Table) : Option (Table × Nat) :=
  if (!sh.interactiveShell || sh.subshell) && t.findSlot sh = t.jobslots &&
      maxJobsInArray ≤ t.jobslots
  then t.compactJobsList sh else some (t, t.findSlot sh)

/-- "If we can't compact, reallocate." -/
def grow (t : Table) (i : Nat) : Table :=
  if i = t.jobslots then { t with jobs := t.jobs ++ List.replicate jobSlots none } else t

/-- `stop_pipeline`, up to the new job: the table and the slot. -/
def makeRoom (sh : Shell) (t : Table) : Option (Table × Nat) := do
  let t ← t.cleanupDeadJobs
  let (t, i) ← t.withSlots.compactIfFull sh
  some (t.grow i, i)

/-- The job of a pipeline. -/
def newJob (sh : Shell) (async : Bool) (pipe : List Process) : Job where
  pipe := pipe
  state := if pipe.any (·.isRunning) then .running
    else if pipe.any (·.isStopped) then .stopped else .dead
  foreground := !async
  notified := false
  jobcontrol := sh.jobControl
  async := async
  pipefail := sh.pipefailOpt

/-- The table with a new job in slot `i`. -/
def install (t : Table) (i : Nat) (j : Job) : Table :=
  { t.setJob i j with
    ndead := if j.state = .dead then t.ndead + 1 else t.ndead
    lastj := i
    njobs := t.njobs + 1 }

/-- `stop_pipeline`, from the new job on; `thePipeline` has the last process first. -/
def addPipeline (sh : Shell) (t : Table) (i : Nat) (async : Bool) (thePipeline : List Process) :
    Table :=
  let t := if thePipeline = [] then t else t.install i (newJob sh async thePipeline.reverse)
  if async then t.resetCurrent else t

/-- `stop_pipeline` -/
def stopPipeline (sh : Shell) (t : Table) (async : Bool) (thePipeline : List Process) :
    Option (Table × Option Nat) := do
  let (t, i) ← t.makeRoom sh
  let t' := t.addPipeline sh i async thePipeline
  some (t', if thePipeline = [] then t'.current else some i)

/-! ## Changes of state -/

/-- `set_job_status_and_cleanup`, and whether the current job is to be set -/
def setJobStatusAndCleanup (t : Table) (i : Nat) : Table × Bool :=
  match t.job i with
  | none => (t, false)
  | some j =>
    let j := { j with notified := false }
    if j.pipe.any (·.isRunning) && j.state ≠ .stopped then (t.setJob i j, false)
    else if j.pipe.any (·.isStopped) then
      (t.setJob i { j with state := .stopped, foreground := false }, true)
    else if j.pipe.any (·.isRunning) then (t.setJob i { j with state := .running }, true)
    else ({ t.setJob i { j with state := .dead } with ndead := t.ndead + 1 }, false)

/-- `find_job (pid, 1, &p)` -/
def findJob (t : Table) (pid : Int) : Option Nat :=
  (List.range t.jobslots).find? fun i =>
    (t.job i).any fun j => j.pipe.any fun p => p.pid = pid && p.isAlive

/-- A turn of `waitchld`: a child changes its status. With the table, whether the current job is to
be set, and the last job that stopped. -/
def childChanges (t : Table) (pid : Int) (status : Status) : Table × Bool × Option Nat :=
  match t.findJob pid with
  | none => (t, false, none)
  | some i =>
    match t.job i with
    | none => (t, false, none)
    | some j =>
      let r := (t.setJob i (j.setStatus pid status)).setJobStatusAndCleanup i
      (r.1, r.2, some i)

/-- The loop of `waitchld`. -/
def waitLoop (t : Table) (callSetCurrent : Bool) (lastStopped : Option Nat) :
    List (Int × Status) → Table × Bool × Option Nat
  | [] => (t, callSetCurrent, lastStopped)
  | (pid, status) :: children =>
    let r := t.childChanges pid status
    let lastStopped :=
      match r.2.2 with
      | none => lastStopped
      | some i =>
        if r.1.inState .stopped i then some i
        else if r.1.inState .dead i && lastStopped = some i then none
        else lastStopped
    waitLoop r.1 (callSetCurrent || r.2.1) lastStopped children

/-- `waitchld`, for the children that `waitpid` returns -/
def waitchld (t : Table) (children : List (Int × Status)) : Table :=
  let r := t.waitLoop false none children
  if r.2.1 then
    match r.2.2 with
    | some i => r.1.setCurrentJob i
    | none => r.1.resetCurrent
  else r.1

/-- `start_job`, up to `wait_for`; `continued` says that `killpg` succeeds or finds no process, and
`comsub` that it is called in a command substitution. -/
def startJob (t : Table) (i : Nat) (foreground comsub continued : Bool) : Table :=
  match t.job i with
  | none => t
  | some j =>
    if comsub || j.state = .dead || !foreground && j.state = .running then t
    else
      let t := t.setJob i { j with notified := false }
      let t := if foreground then t.setCurrentJob i else t
      let j := { j with
        notified := j.state ≠ .running
        foreground := foreground
        async := !foreground }
      let t := t.setJob i (if continued then j.setRunning else j)
      if foreground then t else t.resetCurrent

end Table

end Basht.JobTable
