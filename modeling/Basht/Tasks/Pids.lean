import Basht.Tasks.Tags

/-!
# Tasks and their pids

A slot of the table lives until both output ptys have ended. Its process may have been reaped
before, and its pid given to a new child; then two slots have one pid, and `cap_by_pid` finds
the lower one.

`World.step_finds_iff` says of one step what `found_by_pid_iff` says of runs: tasks are found
by their pids exactly when no child that is captured gets the pid of a live slot.
-/

namespace Basht.Tasks

open Basht.Parser (CString)

/-! ## What is claimed, and when it holds -/

/-- Live slots have different pids, and are those whose input pty is open. -/
structure Table.Sound (t : Table) : Prop where
  distinct : ∀ i j, (t.caps i).id ≠ 0 → (t.caps j).id ≠ 0 → 0 < (t.caps i).pid →
    (t.caps i).pid = (t.caps j).pid → i = j
  live_iff : ∀ i, (t.caps i).id ≠ 0 ↔ (t.caps i).mIn = true

/-- The table is sound before and after the event, and a capture that gets its pid is found
by it. -/
structure World.Finds (w : World) (e : Event) : Prop where
  before : w.table.Sound
  after : ∀ w' tags, w.step e = .ok (w', tags) → w'.table.Sound
  found : ∀ w' tags pid i, w.step e = .ok (w', tags) → e = .done pid → 0 < pid →
    w.table.pendSlot = some i → w'.table.capByPid pid = some i

/-- What the kernel does: the pid of a new child is not the pid of a process that has not been
reaped, and ptys whose other side has not been opened do not end. -/
def World.KernelAllows (w : World) : Event → Prop
  | .done pid => pid ∉ w.unreaped
  | .drain ended => ∀ i, w.table.pendSlot = some i → ended i = ⟨false, false⟩
  | .solo _ | .prepare _ _ _ | .reap _ => True

/-- The pid of a new capture is not the pid of a live one. -/
def World.PidUnused (w : World) : Event → Prop
  | .done pid => 0 < pid → w.table.pendSlot ≠ none →
    ∀ j, (w.table.caps j).id ≠ 0 → (w.table.caps j).pid ≠ pid
  | .solo _ | .prepare _ _ _ | .reap _ | .drain _ => True

/-! ## The invariant -/

/-- The table is sound, and the pending slot is live, open and without a pid. -/
structure Table.Inv (t : Table) : Prop extends t.Sound where
  counters : t.instances.WellFormed
  pending : ∀ i, t.pendSlot = some i →
    (t.caps i).id ≠ 0 ∧ (t.caps i).pid = -1 ∧ (t.caps i).mOut = true ∧ (t.caps i).mErr = true

namespace Table

variable {t : Table}

theorem inv_start : Table.start.Inv where
  distinct i j hi := absurd rfl hi
  live_iff i := iff_of_false (fun h => h rfl) Bool.false_ne_true
  counters := Instances.wellFormed_start
  pending i h := by cases h

theorem setCap_self (t : Table) (i : Fin MAX_CAPS) (cp : Cap) : (t.setCap i cp).caps i = cp := by
  simp [Table.setCap]

theorem setCap_of_ne (t : Table) {i j : Fin MAX_CAPS} (cp : Cap) (h : j ≠ i) :
    (t.setCap i cp).caps j = t.caps j := by
  simp [Table.setCap, h]

theorem Sound.setCap (h : t.Sound) (i : Fin MAX_CAPS) (cp : Cap)
    (hlive : cp.id ≠ 0 ↔ cp.mIn = true)
    (hpid : cp.id ≠ 0 → 0 < cp.pid → ∀ j, j ≠ i → (t.caps j).id ≠ 0 → (t.caps j).pid ≠ cp.pid) :
    (t.setCap i cp).Sound := by
  constructor
  · intro j k hj hk hpos heq
    by_cases hji : j = i <;> by_cases hki : k = i
    · rw [hji, hki]
    · subst hji
      rw [setCap_self] at hj hpos heq
      rw [setCap_of_ne _ _ hki] at hk heq
      exact absurd heq.symm (hpid hj hpos k hki hk)
    · subst hki
      rw [setCap_self] at hk heq
      rw [setCap_of_ne _ _ hji] at hj hpos heq
      exact absurd heq (hpid hk (heq ▸ hpos) j hji hj)
    · rw [setCap_of_ne _ _ hji] at hj hpos heq
      rw [setCap_of_ne _ _ hki] at hk heq
      exact h.distinct j k hj hk hpos heq
  · intro j
    by_cases hji : j = i
    · subst hji
      rw [setCap_self]
      exact hlive
    · rw [setCap_of_ne _ _ hji]
      exact h.live_iff j

/-- A slot that holds no task. -/
theorem Sound.setCap_dead (h : t.Sound) (i : Fin MAX_CAPS) (cp : Cap) (hid : cp.id = 0)
    (hin : cp.mIn = false) : (t.setCap i cp).Sound :=
  h.setCap i cp (iff_of_false (fun hne => hne hid) (by simp [hin])) fun hne => absurd hid hne

theorem Inv.dropPending (h : t.Inv) : t.dropPending.Inv ∧ t.dropPending.pendSlot = none := by
  unfold Table.dropPending
  split
  · rename_i hpend
    exact ⟨h, hpend⟩
  · rename_i i hpend
    have hsound := h.toSound.setCap_dead i (t.caps i).free rfl rfl
    exact ⟨⟨⟨hsound.distinct, hsound.live_iff⟩, h.counters, fun j hj => by cases hj⟩, rfl⟩

theorem Inv.forkPrepare (h : t.Inv) {t' : Table} {command : Option CString} {flags : ForkFlags}
    {opened : Opened} {tags : List Tag} (hrun : t.forkPrepare command flags opened = .ok (t', tags)) :
    t'.Inv := by
  obtain ⟨hdrop, hpend⟩ := h.dropPending
  obtain ⟨rfl, -⟩ | ⟨i, hclosed, ⟨rfl, -⟩ | ⟨id, instances, hnext, -, rfl⟩⟩ :=
    forkPrepare_cases hrun
  · exact ⟨⟨hdrop.distinct, hdrop.live_iff⟩, hdrop.counters, fun j hj => hdrop.pending j hj⟩
  · have hsound := hdrop.toSound.setCap_dead i .unused rfl rfl
    refine ⟨⟨hsound.distinct, hsound.live_iff⟩, hdrop.counters, fun j hj => ?_⟩
    have hsome : t.dropPending.pendSlot = some j := hj
    rw [hpend] at hsome
    cases hsome
  · obtain ⟨hstamped, hcounters⟩ := Instances.nextInstance_stamped h.counters hnext
    have hid : id ≠ 0 := by
      rintro rfl
      have habove := hstamped.above _ (List.mem_singleton_self _)
      exact absurd (h.counters.last _) (not_le_of_gt habove)
    have hsound := hdrop.toSound.setCap i
      ⟨true, true, true, -1, taskName command, id, t.forkSolo⟩
      (iff_of_true hid rfl) fun _ hpos => absurd (show (0 : Int32) < -1 from hpos) (by decide)
    refine ⟨⟨hsound.distinct, hsound.live_iff⟩, hcounters, fun j hj => ?_⟩
    cases hj
    exact ⟨by simpa [setCap_self] using hid, by simp [setCap_self], by simp [setCap_self],
      by simp [setCap_self]⟩

theorem Inv.forkDone (h : t.Inv) {pid : Int32}
    (hunused : 0 < pid → t.pendSlot ≠ none → ∀ j, (t.caps j).id ≠ 0 → (t.caps j).pid ≠ pid) :
    (t.forkDone pid).Inv := by
  unfold Table.forkDone
  split
  · exact h
  · rename_i hzero
    split
    · exact h
    · rename_i i hpend
      split
      · have hsound := h.toSound.setCap_dead i (t.caps i).free rfl rfl
        exact ⟨⟨hsound.distinct, hsound.live_iff⟩, h.counters, fun j hj => by cases hj⟩
      · rename_i hneg
        have hpos : 0 < pid := by
          have hne : pid.toInt ≠ 0 := fun he => hzero (Int32.toInt_inj.mp he)
          rw [Int32.lt_iff_toInt_lt] at hneg ⊢
          change ¬pid.toInt < 0 at hneg
          change 0 < pid.toInt
          omega
        have hsound := h.toSound.setCap i { t.caps i with pid := pid }
          (h.live_iff i) fun _ _ j _ hj => hunused hpos (by simp [hpend]) j hj
        exact ⟨⟨hsound.distinct, hsound.live_iff⟩, h.counters, fun j hj => by cases hj⟩

end Table

/-- A drained slot keeps its task, or is released. -/
theorem Cap.drain_cases (cp : Cap) (ended : Ended) :
    ((cp.drain ended).id = cp.id ∧ (cp.drain ended).pid = cp.pid ∧
        (cp.drain ended).mIn = cp.mIn) ∨
      ((cp.drain ended).id = 0 ∧ (cp.drain ended).mIn = false) := by
  unfold Cap.drain
  split
  · exact Or.inl ⟨rfl, rfl, rfl⟩
  · simp only
    split
    · exact Or.inr ⟨rfl, rfl⟩
    · exact Or.inl ⟨rfl, rfl, rfl⟩

theorem Cap.drain_of_not_ended {cp : Cap} (hout : cp.mOut = true) :
    cp.drain ⟨false, false⟩ = cp := by
  unfold Cap.drain
  split
  · rfl
  · obtain ⟨mIn, mOut, mErr, pid, name, id, sess⟩ := cp
    cases hout
    simp

namespace Table

variable {t : Table}

theorem Inv.drainCaps (h : t.Inv) {ended : Fin MAX_CAPS → Ended}
    (hpend : ∀ i, t.pendSlot = some i → ended i = ⟨false, false⟩) : (t.drainCaps ended).Inv := by
  have hkept : ∀ i, ((t.drainCaps ended).caps i).id ≠ 0 →
      ((t.drainCaps ended).caps i).id = (t.caps i).id ∧
        ((t.drainCaps ended).caps i).pid = (t.caps i).pid := by
    intro i hi
    rcases (t.caps i).drain_cases (ended i) with ⟨hid, hpid, -⟩ | ⟨hid, -⟩
    · exact ⟨hid, hpid⟩
    · exact absurd hid hi
  refine ⟨⟨fun i j hi hj hpos heq => ?_, fun i => ?_⟩, h.counters, fun i hi => ?_⟩
  · obtain ⟨hid, hpid⟩ := hkept i hi
    obtain ⟨hid', hpid'⟩ := hkept j hj
    exact h.distinct i j (hid ▸ hi) (hid' ▸ hj) (hpid ▸ hpos) (hpid ▸ hpid' ▸ heq)
  · rcases (t.caps i).drain_cases (ended i) with ⟨hid, -, hin⟩ | ⟨hid, hin⟩
    · change ((t.caps i).drain (ended i)).id ≠ 0 ↔ ((t.caps i).drain (ended i)).mIn = true
      rw [hid, hin]
      exact h.live_iff i
    · exact iff_of_false (fun hne => hne hid) (fun ht => Bool.false_ne_true (hin.symm.trans ht))
  · have hopen := h.pending i hi
    change ((t.caps i).drain (ended i)).id ≠ 0 ∧ ((t.caps i).drain (ended i)).pid = -1 ∧
      ((t.caps i).drain (ended i)).mOut = true ∧ ((t.caps i).drain (ended i)).mErr = true
    rw [hpend i hi, Cap.drain_of_not_ended hopen.2.2.1]
    exact hopen

/-- A live slot is found by its pid when no other has it. -/
theorem Sound.capByPid_eq (h : t.Sound) {i : Fin MAX_CAPS} {pid : Int32} (hpos : 0 < pid)
    (hi : (t.caps i).id ≠ 0) (hpid : (t.caps i).pid = pid) : t.capByPid pid = some i := by
  unfold capByPid
  have hmem : ∃ j ∈ List.finRange MAX_CAPS, decide ((t.caps j).pid = pid ∧ (t.caps j).id ≠ 0) :=
    ⟨i, List.mem_finRange i, by simp [hi, hpid]⟩
  cases hfind : (List.finRange MAX_CAPS).find? fun j =>
      decide ((t.caps j).pid = pid ∧ (t.caps j).id ≠ 0) with
  | none =>
    obtain ⟨j, hj, hd⟩ := hmem
    exact absurd hd (List.find?_eq_none.mp hfind j hj)
  | some j =>
    have hsome := List.find?_some hfind
    have hj : (t.caps j).pid = pid ∧ (t.caps j).id ≠ 0 := of_decide_eq_true hsome
    rw [h.distinct j i hj.2 hi (hj.1 ▸ hpos) (hj.1.trans hpid.symm)]

theorem forkDone_of_pos {pid : Int32} {i : Fin MAX_CAPS} (hpos : 0 < pid)
    (hpend : t.pendSlot = some i) :
    t.forkDone pid = { t.setCap i { t.caps i with pid := pid } with pendSlot := none } := by
  have hne : pid ≠ 0 := by
    rintro rfl
    exact absurd hpos (by decide)
  have hneg : ¬pid < 0 := by
    rw [Int32.lt_iff_toInt_lt] at hpos ⊢
    omega
  unfold forkDone
  rw [if_neg hne]
  simp only [hpend]
  rw [if_neg hneg]

end Table

/-! ## Steps and runs -/

namespace World

variable {w w' : World} {e : Event} {tags : List Tag}

theorem inv_step (hw : w.table.Inv) (hkernel : w.KernelAllows e) (hunused : w.PidUnused e)
    (h : w.step e = .ok (w', tags)) : w'.table.Inv := by
  cases e with
  | solo solo =>
    cases h
    exact ⟨⟨hw.distinct, hw.live_iff⟩, hw.counters, hw.pending⟩
  | prepare command flags opened =>
    simp only [step] at h
    split at h
    · cases h
    · rename_i t tags hprepare
      cases h
      exact hw.forkPrepare hprepare
  | done pid =>
    cases h
    exact hw.forkDone hunused
  | reap pid =>
    cases h
    exact hw
  | drain ended =>
    cases h
    exact hw.drainCaps hkernel

/-- One event keeps the table sound and the new capture findable exactly when the new pid is
not in use. -/
theorem step_finds_iff (hw : w.table.Inv) (hkernel : w.KernelAllows e) :
    w.Finds e ↔ w.PidUnused e := by
  constructor
  · intro h
    cases e with
    | done pid =>
      intro hpos hpend j hj hpid
      obtain ⟨i, hi⟩ := Option.ne_none_iff_exists'.mp hpend
      have hafter := (h.after _ _ rfl).distinct i j
      obtain ⟨hid, hnone, -⟩ := hw.pending i hi
      have hij : j ≠ i := by
        rintro rfl
        rw [hnone] at hpid
        exact absurd (hpid ▸ hpos) (by decide)
      rw [Table.forkDone_of_pos hpos hi] at hafter
      simp only [Table.setCap_self, Table.setCap_of_ne _ _ hij] at hafter
      exact hij (hafter hid hj hpos hpid.symm).symm
    | solo | prepare | reap | drain => trivial
  · intro h
    refine ⟨hw.toSound, fun w' tags hstep => (inv_step hw hkernel h hstep).toSound,
      fun w' tags pid i hstep he hpos hi => ?_⟩
    subst he
    have hafter := (inv_step hw hkernel h hstep).toSound
    cases hstep
    rw [Table.forkDone_of_pos hpos hi] at hafter ⊢
    exact hafter.capByPid_eq hpos (by simpa only [Table.setCap_self] using (hw.pending i hi).1)
      (by simp only [Table.setCap_self])

/-- **Pids.** In a run the kernel allows, live slots always have different pids and a new
capture is found by its pid exactly when no new capture gets the pid of a live slot. -/
theorem found_by_pid_iff {events : List Event}
    (h : Fallible.Meets step KernelAllows World.start events) :
    Fallible.Meets step Finds World.start events ↔
      Fallible.Meets step PidUnused World.start events :=
  Fallible.Meets.congr_of_invariant (I := fun w => w.table.Inv)
    (fun _ _ _ _ hw hkernel hunused hstep => inv_step hw hkernel hunused hstep)
    (fun _ _ hw hkernel => step_finds_iff hw hkernel) Table.inv_start h

/-- The command `sh -c ..` is started, and reaped while a process it has started keeps its
ptys open. The kernel gives its pid to the next command. -/
def reusedPid : List Event :=
  [.prepare (some ⟨"sh".toList.map Char.toUInt8, by decide⟩) ⟨false, false⟩ ⟨true, true, true⟩,
    .done 100, .reap 100,
    .prepare (some ⟨"cat".toList.map Char.toUInt8, by decide⟩) ⟨false, false⟩ ⟨true, true, true⟩]

theorem found_by_pid_first : Fallible.Meets step Finds World.start (reusedPid.take 3) := by
  refine (found_by_pid_iff ?_).mpr ?_
  · exact .cons rfl trivial (.cons rfl List.not_mem_nil (.cons rfl trivial trivial))
  · exact .cons rfl trivial (.cons rfl (fun _ _ => by decide) (.cons rfl trivial trivial))

/-- The second command is not found by its pid. -/
theorem reused_pid_not_found :
    Fallible.Meets step KernelAllows World.start (reusedPid ++ [.done 100]) ∧
      ¬Fallible.Meets step Finds World.start (reusedPid ++ [.done 100]) := by
  constructor
  · exact .cons rfl trivial (.cons rfl List.not_mem_nil (.cons rfl trivial
      (.cons rfl trivial (.cons rfl (fun h => of_decide_eq_true (List.mem_filter.mp h).2 rfl)
        trivial))))
  · intro h
    have hrun : ∃ w tags, Fallible.exec step World.start reusedPid = .ok (w, tags) ∧
        w.table.pendSlot = some 1 ∧ (w.table.forkDone 100).capByPid 100 = some 0 := by
      refine ⟨_, _, rfl, rfl, ?_⟩
      rfl
    obtain ⟨w, tags, hexec, hpend, hfirst⟩ := hrun
    have hfound := (h.at_exec hexec).found _ _ 100 1 rfl rfl (by decide) hpend
    rw [show World.table _ = w.table.forkDone 100 from rfl, hfirst] at hfound
    exact absurd hfound (by decide)

end World

end Basht.Tasks
