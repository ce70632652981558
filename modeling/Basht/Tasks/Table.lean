import Basht.Tasks.Name

/-!
# The table of captured tasks

Every command the multiplexing shell forks gets a slot of `caps` with three ptys. The slot is
taken before the fork (`forkPrepare`), gets its pid after it (`forkDone`), and is released
when both output ptys have ended (`drainCaps`), whether or not the process lives.

`World` adds the processes that have not been reaped: their pids are the ones the kernel does
not give to a new child.
-/

namespace Basht.Tasks

open Basht.Parser (CString)

/-- `struct basht_cap`, the fields that say which task a slot holds. `mIn`, `mOut` and `mErr`
say that the master is open. -/
structure Cap where
  mIn : Bool
  mOut : Bool
  mErr : Bool
  pid : Int32
  name : TaskName
  id : Int32
  sess : Bool
deriving DecidableEq

/-- A slot after `basht_init`. -/
def Cap.unused : Cap := ⟨false, false, false, -1, .empty, 0, false⟩

/-- `cap_free`. -/
def Cap.free (cp : Cap) : Cap :=
  { cp with mIn := false, mOut := false, mErr := false, id := 0, pid := -1 }

/-- The ptys of a task, in the order in which its keyboard is looked for. -/
inductive Pty where
  | mIn
  | mErr
  | mOut
deriving DecidableEq, Repr

def Cap.isOpen (cp : Cap) : Pty → Bool
  | .mIn => cp.mIn
  | .mErr => cp.mErr
  | .mOut => cp.mOut

/-- `cap_key_fd`: the first pty in non-canonical mode, else the input pty. -/
def Cap.keyFd (icanon : Pty → Bool) (cp : Cap) : Option Pty :=
  match [Pty.mIn, .mErr, .mOut].find? fun p => cp.isOpen p && !icanon p with
  | some p => some p
  | none => if cp.mIn then some .mIn else none

theorem Cap.keyFd_isSome (icanon : Pty → Bool) {cp : Cap} (h : cp.mIn = true) :
    (cp.keyFd icanon).isSome := by
  unfold keyFd
  split
  · rfl
  · rw [if_pos h]
    rfl

/-- The streams of the shell and of the tasks. -/
inductive StreamId where
  | self
  | out (i : Fin MAX_CAPS)
  | err (i : Fin MAX_CAPS)
deriving DecidableEq, Repr

/-- The slots, and the variables of `basht_fork_prepare` and `basht_fork_done`. -/
structure Table where
  caps : Fin MAX_CAPS → Cap
  pendSlot : Option (Fin MAX_CAPS)
  forkSolo : Bool
  instances : Instances
  active : Bool
  selfShell : Bool

/-- After `basht_init`. -/
def Table.start : Table := ⟨fun _ => .unused, none, false, .start, true, true⟩

/-- The flags of a fork that `basht_fork_prepare` looks at. -/
structure ForkFlags where
  comsub : Bool
  procsub : Bool
deriving DecidableEq, Repr

/-- Which calls of `open_master` succeed. -/
structure Opened where
  mIn : Bool
  mOut : Bool
  mErr : Bool
deriving DecidableEq, Repr

/-- Which output ptys a drain reads to their end. -/
structure Ended where
  out : Bool
  err : Bool
deriving DecidableEq, Repr

/-- The number of a task, as it is handed out with its name. -/
abbrev Tag := TaskName × Int32

namespace Table

/-- `cap_by_pid`. -/
def capByPid (t : Table) (pid : Int32) : Option (Fin MAX_CAPS) :=
  (List.finRange MAX_CAPS).find? fun i => (t.caps i).pid = pid ∧ (t.caps i).id ≠ 0

/-- The slot `basht_fork_prepare` takes. -/
def freeSlot (t : Table) : Option (Fin MAX_CAPS) :=
  (List.finRange MAX_CAPS).find? fun i =>
    !(t.caps i).mIn && !(t.caps i).mOut && !(t.caps i).mErr

def setCap (t : Table) (i : Fin MAX_CAPS) (cp : Cap) : Table :=
  { t with caps := Function.update t.caps i cp }

/-- The stale capture of a fork that was never completed is dropped. -/
def dropPending (t : Table) : Table :=
  match t.pendSlot with
  | none => t
  | some i => { t.setCap i (t.caps i).free with pendSlot := none }

/-- `basht_fork_prepare`. The output is the tag that is assigned. -/
def forkPrepare (t : Table) (command : Option CString) (flags : ForkFlags) (opened : Opened) :
    Except CounterOverflow (Table × List Tag) :=
  let t' := { t.dropPending with forkSolo := false }
  if !t'.active || !t'.selfShell || flags.comsub || flags.procsub then .ok (t', [])
  else
    match t'.freeSlot with
    | none => .ok (t', [])
    | some i =>
      if !opened.mIn || !opened.mOut || !opened.mErr then .ok (t'.setCap i .unused, [])
      else
        match t'.instances.nextInstance (taskName command) with
        | .error o => .error o
        | .ok (id, instances) =>
          .ok ({ t'.setCap i ⟨true, true, true, -1, taskName command, id, t.forkSolo⟩ with
            instances := instances, pendSlot := some i }, [(taskName command, id)])

/-- `basht_fork_done`. -/
def forkDone (t : Table) (pid : Int32) : Table :=
  if pid = 0 then t
  else
    match t.pendSlot with
    | none => t
    | some i =>
      if pid < 0 then { t.setCap i (t.caps i).free with pendSlot := none }
      else { t.setCap i { t.caps i with pid := pid } with pendSlot := none }

end Table

/-- What `drain_caps` does to a slot. -/
def Cap.drain (cp : Cap) (ended : Ended) : Cap :=
  if cp.id = 0 then cp
  else
    let cp := { cp with mOut := cp.mOut && !ended.out, mErr := cp.mErr && !ended.err }
    if !cp.mOut && !cp.mErr && cp.mIn then cp.free else cp

/-- `drain_caps`. -/
def Table.drainCaps (t : Table) (ended : Fin MAX_CAPS → Ended) : Table :=
  { t with caps := fun i => (t.caps i).drain (ended i) }

/-! ## Runs -/

/-- The table, and the pids of the processes that have not been reaped. -/
structure World where
  table : Table
  unreaped : List Int32

def World.start : World := ⟨.start, []⟩

/-- What happens to the table and the processes. -/
inductive Event where
  | solo (solo : Bool)
  | prepare (command : Option CString) (flags : ForkFlags) (opened : Opened)
  | done (pid : Int32)
  | reap (pid : Int32)
  | drain (ended : Fin MAX_CAPS → Ended)

/-- One event. The output is the tags assigned. -/
def World.step (w : World) : Event → Except CounterOverflow (World × List Tag)
  | .solo solo => .ok ({ w with table := { w.table with forkSolo := solo } }, [])
  | .prepare command flags opened =>
    match w.table.forkPrepare command flags opened with
    | .error o => .error o
    | .ok (t, tags) => .ok ({ w with table := t }, tags)
  | .done pid =>
    .ok (⟨w.table.forkDone pid, if 0 < pid then pid :: w.unreaped else w.unreaped⟩, [])
  | .reap pid => .ok ({ w with unreaped := w.unreaped.filter (· ≠ pid) }, [])
  | .drain ended => .ok ({ w with table := w.table.drainCaps ended }, [])

/-! ## What a step can do -/

namespace Table

@[simp] theorem dropPending_instances (t : Table) : t.dropPending.instances = t.instances := by
  unfold dropPending
  split <;> rfl

@[simp] theorem forkDone_instances (t : Table) (pid : Int32) :
    (t.forkDone pid).instances = t.instances := by
  unfold forkDone
  split
  · rfl
  · split
    · rfl
    · split <;> rfl

/-- `basht_fork_prepare` leaves the table but for the stale capture, or closes a slot that was
closed already, or takes it for a new task. -/
theorem forkPrepare_cases {t t' : Table} {command : Option CString} {flags : ForkFlags}
    {opened : Opened} {tags : List Tag} (h : t.forkPrepare command flags opened = .ok (t', tags)) :
    (t' = { t.dropPending with forkSolo := false } ∧ tags = []) ∨
      ∃ i, (t.dropPending.caps i).mIn = false ∧
        ((t' = { t.dropPending.setCap i .unused with forkSolo := false } ∧ tags = []) ∨
          ∃ id instances, t.instances.nextInstance (taskName command) = .ok (id, instances) ∧
            tags = [(taskName command, id)] ∧
            t' = { t.dropPending.setCap i
              ⟨true, true, true, -1, taskName command, id, t.forkSolo⟩ with
                forkSolo := false, instances := instances, pendSlot := some i }) := by
  unfold forkPrepare at h
  simp only at h
  split at h
  · cases h
    exact Or.inl ⟨rfl, rfl⟩
  · split at h
    · cases h
      exact Or.inl ⟨rfl, rfl⟩
    · rename_i i hfree
      have hclosed : (t.dropPending.caps i).mIn = false := by
        have hfound := List.find?_some hfree
        simp only [Bool.and_eq_true, Bool.not_eq_true'] at hfound
        exact hfound.1.1
      refine Or.inr ⟨i, hclosed, ?_⟩
      split at h
      · cases h
        exact Or.inl ⟨rfl, rfl⟩
      · split at h
        · cases h
        · rename_i id instances hnext
          cases h
          rw [dropPending_instances] at hnext
          exact Or.inr ⟨id, instances, hnext, rfl, rfl⟩

end Table

end Basht.Tasks
