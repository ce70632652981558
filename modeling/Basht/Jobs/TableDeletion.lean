import Basht.Jobs.TableSteps
import Mathlib.Data.List.Forall2

/-!
# Deleting jobs

`reset_job_indices` finds the first and the last job that remain, since all jobs stand between the
old indices. What a loop of deletions does is a relation of its own, `Prunes`: no job moves, those
that stay are as they were, and if the current and the previous job stay they are still these.
-/

namespace Basht.JobTable.Table

open SlotTable

variable {t t' t₁ : Table} {i k : Nat} {j j' : Job} {p : Job → Bool}

/-! ## The scans -/

theorem scanForward_eq {old fuel : Nat} (hold : old < i) (hik : i ≤ k) (hk : (t.job k).isSome)
    (hfree : ∀ m, i ≤ m → m < k → t.job m = none) (hfuel : k - i < fuel) :
    t.scanForward old fuel i = some k := by
  have hslots : k < t.jobslots := lt_of_isSome hk
  induction fuel generalizing i with
  | zero => omega
  | succ fuel ih =>
    have hin : ¬ t.jobslots ≤ i := by omega
    rw [scanForward, if_neg (by omega), if_neg hin]
    dsimp only
    rcases Nat.lt_or_eq_of_le hik with hlt | heq
    · have hnone := hfree i (Nat.le_refl i) hlt
      rw [hnone, if_neg (by simp; omega)]
      exact ih (by omega) hlt (fun m hm => hfree m (by omega)) (by omega)
    · subst heq
      rw [if_pos (by simp [hk])]

theorem scanBackward_eq {old : Int} {fuel : Nat} (hold : (i : Int) < old) (hki : k ≤ i)
    (hk : (t.job k).isSome) (hfree : ∀ m, k < m → m ≤ i → t.job m = none)
    (hfuel : i - k < fuel) : t.scanBackward old fuel i = some (k : Int) := by
  induction fuel generalizing i with
  | zero => omega
  | succ fuel ih =>
    have hpos : ¬ (i : Int) < 0 := by omega
    rw [scanBackward, if_neg (by omega), if_neg hpos]
    dsimp only
    rcases Nat.lt_or_eq_of_le hki with hlt | heq
    · have hnone : t.job (i : Int).toNat = none := hfree i hlt (Nat.le_refl i)
      have hpred : (i : Int) - 1 = ((i - 1 : Nat) : Int) := by omega
      rw [hnone, if_neg (by simp; omega), hpred]
      exact ih (by omega) (by omega) (fun m hm hmi => hfree m hm (by omega)) (by omega)
    · subst heq
      have hsome : (t.job (k : Int).toNat).isSome := hk
      rw [hsome, Bool.true_or, if_pos rfl]

theorem resetFirst_eq (hjob : (t.job i).isSome) (hle : ∀ m, (t.job m).isSome → t.firstj ≤ m) :
    ∃ k, t.resetFirst = some { t with firstj := k } ∧ (t.job k).isSome ∧
      ∀ m, (t.job m).isSome → k ≤ m := by
  unfold resetFirst
  split
  · rename_i hfirst
    exact ⟨t.firstj, rfl, hfirst, hle⟩
  · rename_i hfirst
    obtain ⟨k, hk, hleast⟩ := exists_first hjob
    have hne : t.firstj ≠ k := fun h => hfirst (h ▸ hk)
    have hlt : t.firstj < k := Nat.lt_of_le_of_ne (hle k hk) hne
    have hslots : k < t.jobslots := lt_of_isSome hk
    have hin : ¬ t.jobslots ≤ t.firstj := by omega
    have hscan : t.scanForward t.firstj (t.jobslots + 1) (t.firstj + 1) = some k := by
      refine scanForward_eq (by omega) hlt hk ?_ (by omega)
      intro m _ hm
      by_contra hsome
      have hge := hleast m (Option.isSome_iff_ne_none.mpr hsome)
      omega
    refine ⟨k, ?_, hk, hleast⟩
    simp only [hin, if_false, hscan, Option.bind_eq_bind, Option.bind_some]
    rw [if_neg (by omega)]

theorem resetLast_eq (hjob : (t.job i).isSome) (hle : ∀ m, (t.job m).isSome → m ≤ t.lastj)
    (hslots : t.lastj < t.jobslots) :
    ∃ k, t.resetLast = some { t with lastj := k } ∧ (t.job k).isSome ∧
      ∀ m, (t.job m).isSome → m ≤ k := by
  unfold resetLast
  split
  · rename_i hlast
    exact ⟨t.lastj, rfl, hlast, hle⟩
  · rename_i hlast
    obtain ⟨k, hk, hgreatest⟩ := exists_last hjob
    have hne : k ≠ t.lastj := fun h => hlast (h ▸ hk)
    have hlt : k < t.lastj := Nat.lt_of_le_of_ne (hle k hk) hne
    have hpred : (t.lastj : Int) - 1 = ((t.lastj - 1 : Nat) : Int) := by omega
    have hscan : t.scanBackward t.lastj (t.jobslots + 1) ((t.lastj - 1 : Nat) : Int) =
        some (k : Int) := by
      refine scanBackward_eq (by omega) (by omega) hk ?_ (by omega)
      intro m hm _
      by_contra hsome
      have hge := hgreatest m (Option.isSome_iff_ne_none.mpr hsome)
      omega
    refine ⟨k, ?_, hk, hgreatest⟩
    rw [hpred, hscan]
    have hki : ¬ (k : Int) = t.lastj := by omega
    simp only [Option.bind_eq_bind, Option.bind_some, if_neg hki, Int.toNat_natCast]

/-! ## A deletion -/

theorem fixIndices_eq (hnjobs : t.njobs = t.jobs.countP Option.isSome)
    (hle : ∀ m, (t.job m).isSome → t.firstj ≤ m ∧ m ≤ t.lastj) (hslots : t.lastj < t.jobslots) :
    ∃ t', t.fixIndices = some t' ∧ Indexed t' ∧ t'.jobs = t.jobs ∧ t'.ndead = t.ndead ∧
      t'.current = t.current ∧ t'.previous = t.previous := by
  unfold fixIndices
  split
  · rename_i hzero
    have hnone := job_eq_none_of_njobs hnjobs hzero
    refine ⟨_, rfl, ⟨hnjobs, ?_, fun hne => absurd hzero hne, fun _ => ⟨rfl, rfl⟩⟩,
      rfl, rfl, rfl, rfl⟩
    intro m hm
    have hfree : t.job m = none := hnone m
    have hsome : (t.job m).isSome := hm
    rw [hfree] at hsome
    cases hsome
  · rename_i hne
    obtain ⟨i, hi⟩ := exists_job_of_njobs hnjobs hne
    split
    · obtain ⟨first, hfirst, hfirstJob, hfirstLe⟩ := resetFirst_eq hi fun m hm => (hle m hm).1
      have hrest : ∀ m, (Table.job { t with firstj := first } m).isSome → m ≤ t.lastj :=
        fun m hm => (hle m hm).2
      obtain ⟨last, hlast, hlastJob, hlastLe⟩ :=
        resetLast_eq (t := { t with firstj := first }) hi hrest hslots
      refine ⟨{ t with firstj := first, lastj := last }, ?_, ⟨hnjobs, ?_,
        fun _ => ⟨hfirstJob, hlastJob⟩, fun hzero => absurd hzero hne⟩, rfl, rfl, rfl, rfl⟩
      · unfold resetJobIndices
        rw [hfirst]
        exact hlast
      · intro m hm
        exact ⟨hfirstLe m hm, hlastLe m hm⟩
    · rename_i hends
      have hfirst : (t.job t.firstj).isSome := by
        cases hf : t.job t.firstj with
        | none => exact absurd (by simp [hf]) hends
        | some j => rfl
      have hlast : (t.job t.lastj).isSome := by
        cases hl : t.job t.lastj with
        | none => exact absurd (by simp [hl]) hends
        | some j => rfl
      exact ⟨t, rfl, ⟨hnjobs, hle, fun _ => ⟨hfirst, hlast⟩, fun hzero => absurd hzero hne⟩,
        rfl, rfl, rfl, rfl⟩

theorem job_clearJob (hi : t.job i = some j) (k : Nat) :
    (t.clearJob i j).job k = if i = k then none else t.job k := by
  split
  · rename_i h
    subst h
    exact slot_set_self (lt_of_slot hi)
  · rename_i h
    exact slot_set_ne h

theorem counted_clearJob (h : Counted t) (hi : t.job i = some j) : Counted (t.clearJob i j) := by
  refine ⟨?_, ?_⟩
  · have hcount := countP_set (o := none) isDead (lt_of_slot hi)
    have hslot : slot t.jobs i = some j := hi
    have hndead := h.ndead
    rw [hslot] at hcount
    change (if j.state = .dead then t.ndead - 1 else t.ndead) =
      ((t.jobs.set i none).countP isDead : Int)
    by_cases hj : j.state = .dead
    · rw [if_pos hj]
      have hone : (t.jobs.set i none).countP isDead + 1 = t.jobs.countP isDead := by
        simpa [isDead, hj] using hcount
      omega
    · rw [if_neg hj]
      have hsame : (t.jobs.set i none).countP isDead = t.jobs.countP isDead := by
        simpa [isDead, hj] using hcount
      omega
  · intro k j₁ hk
    rw [job_clearJob hi] at hk
    split at hk
    · cases hk
    · exact h.dead k j₁ hk

theorem njobs_clearJob (h : Indexed t) (hi : t.job i = some j) :
    (t.clearJob i j).njobs = (t.clearJob i j).jobs.countP Option.isSome := by
  have hcount := countP_set (o := none) Option.isSome (lt_of_slot hi)
  have hslot : slot t.jobs i = some j := hi
  have hnjobs := h.njobs
  rw [hslot] at hcount
  have hone : (t.jobs.set i none).countP Option.isSome + 1 = t.jobs.countP Option.isSome := by
    simpa using hcount
  change t.njobs - 1 = ((t.jobs.set i none).countP Option.isSome : Int)
  omega

theorem Counted.congr (h : Counted t) (hjobs : t'.jobs = t.jobs) (hndead : t'.ndead = t.ndead) :
    Counted t' := by
  refine ⟨?_, ?_⟩
  · rw [hndead, hjobs]
    exact h.ndead
  · intro k j hk
    refine h.dead k j ?_
    unfold job at hk ⊢
    rw [← hjobs]
    exact hk

/-- `delete_job` empties its slot, and chooses anew only if the job was current or previous. -/
theorem deleteJob_eq (h : Sound t) (i : Nat) :
    ∃ t', t.deleteJob i = some t' ∧ Sound t' ∧ t'.jobslots = t.jobslots ∧
      (∀ k, t'.job k = if i = k then none else t.job k) ∧
      (t.current ≠ some i → t.previous ≠ some i →
        t'.current = t.current ∧ t'.previous = t.previous) := by
  unfold deleteJob
  cases hi : t.job i with
  | none =>
    refine ⟨t, rfl, h, rfl, ?_, fun _ _ => ⟨rfl, rfl⟩⟩
    intro k
    split
    · rename_i hik
      rw [← hik, hi]
    · rfl
  | some j =>
    have hsome : (t.job i).isSome := by rw [hi]; rfl
    have hne : t.njobs ≠ 0 := by
      intro hzero
      rw [job_eq_none_of_njobs h.njobs hzero i] at hi
      cases hi
    have hle : ∀ m, ((t.clearJob i j).job m).isSome → t.firstj ≤ m ∧ m ≤ t.lastj := by
      intro m hm
      rw [job_clearJob hi] at hm
      split at hm
      · cases hm
      · exact h.between m hm
    have hlength : (t.clearJob i j).jobslots = t.jobslots := List.length_set
    have hslots : t.lastj < (t.clearJob i j).jobslots := by
      rw [hlength]
      exact lt_of_isSome (h.ends hne).2
    obtain ⟨t₁, hfix, hindexed, hjobs, hndead, hcurrent, hprevious⟩ :=
      fixIndices_eq (njobs_clearJob h.toIndexed hi) hle hslots
    have hjob : ∀ k, t₁.job k = if i = k then none else t.job k := by
      intro k
      rw [← job_clearJob hi k]
      exact congrArg (slot · k) hjobs
    have hcounted : Counted t₁ := (counted_clearJob h.toCounted hi).congr hjobs hndead
    have hslots₁ : t₁.jobslots = t.jobslots := by
      rw [← hlength]
      exact congrArg List.length hjobs
    dsimp only
    rw [hfix]
    simp only [Option.bind_eq_bind, Option.bind_some]
    split
    · rename_i hchosen
      have hre := rechosen_resetCurrent t₁
      refine ⟨t₁.resetCurrent, rfl, hre.sound hindexed hcounted, ?_, ?_, ?_⟩
      · unfold jobslots
        rw [hre.jobs]
        exact hslots₁
      · intro k
        rw [hre.job, hjob]
      · intro hc hp
        rcases hchosen with hchosen | hchosen
        · exact absurd (hcurrent.symm.trans hchosen) hc
        · exact absurd (hprevious.symm.trans hchosen) hp
    · rename_i hchosen
      rw [hcurrent, hprevious] at hchosen
      refine ⟨t₁, rfl, ⟨hindexed, hcounted, ?_⟩, hslots₁, hjob, fun _ _ => ⟨hcurrent, hprevious⟩⟩
      have hstays : ∀ k, t.current = some k ∨ t.previous = some k → (t.job k).isSome →
          (t₁.job k).isSome := by
        intro k hk hjobk
        have hik : i ≠ k := by
          rintro rfl
          exact hchosen hk
        rw [hjob, if_neg hik]
        exact hjobk
      refine ⟨?_, ?_, ?_⟩
      · rw [hcurrent, hprevious]
        exact h.both
      · intro k hk
        rw [hcurrent] at hk
        exact hstays k (Or.inl hk) (h.current k hk)
      · intro k hk
        rw [hprevious] at hk
        exact hstays k (Or.inr hk) (h.previous k hk)

/-! ## Many deletions -/

/-- `t'` is `t` without some jobs that `p` holds of. -/
structure Prunes (p : Job → Bool) (t t' : Table) : Prop where
  slots : t'.jobslots = t.jobslots
  stay : ∀ k j, t'.job k = some j → t.job k = some j
  kept : ∀ k j, t.job k = some j → p j = false → t'.job k = some j
  named : (∀ k, t.current = some k → (t'.job k).isSome) →
    (∀ k, t.previous = some k → (t'.job k).isSome) →
    t'.current = t.current ∧ t'.previous = t.previous

theorem Prunes.refl (p : Job → Bool) (t : Table) : Prunes p t t :=
  ⟨rfl, fun _ _ h => h, fun _ _ h _ => h, fun _ _ => ⟨rfl, rfl⟩⟩

theorem Prunes.isSome (h : Prunes p t t') (hk : (t'.job k).isSome) : (t.job k).isSome := by
  obtain ⟨j, hj⟩ := Option.isSome_iff_exists.mp hk
  rw [h.stay k j hj]
  rfl

theorem Prunes.trans (h : Prunes p t t₁) (h' : Prunes p t₁ t') : Prunes p t t' where
  slots := h'.slots.trans h.slots
  stay k j hk := h.stay k j (h'.stay k j hk)
  kept k j hk hp := h'.kept k j (h.kept k j hk hp) hp
  named hcurrent hprevious := by
    obtain ⟨hc, hp⟩ := h.named (fun k hk => h'.isSome (hcurrent k hk))
      fun k hk => h'.isSome (hprevious k hk)
    obtain ⟨hc', hp'⟩ := h'.named (fun k hk => hcurrent k (hc ▸ hk))
      fun k hk => hprevious k (hp ▸ hk)
    exact ⟨hc'.trans hc, hp'.trans hp⟩

theorem prunes_deleteJob (h : Sound t) (hp : (t.job i).any p) :
    ∃ t', t.deleteJob i = some t' ∧ Sound t' ∧ Prunes p t t' := by
  obtain ⟨t', hdelete, hsound, hslots, hjob, hnamed⟩ := deleteJob_eq h i
  refine ⟨t', hdelete, hsound, hslots, ?_, ?_, ?_⟩
  · intro k j hk
    rw [hjob] at hk
    split at hk
    · cases hk
    · exact hk
  · intro k j hk hpj
    rw [hjob]
    split
    · rename_i hik
      rw [hik, hk] at hp
      exact absurd hp (by simp [hpj])
    · exact hk
  · have hgone : ¬ (t'.job i).isSome := by
      rw [hjob, if_pos rfl]
      exact Bool.false_ne_true
    intro hcurrent hprevious
    exact hnamed (fun hc => hgone (hcurrent i hc)) fun hp => hgone (hprevious i hp)

theorem foldlM_prunes (h : Sound t) (is : List Nat) :
    ∃ t', is.foldlM (fun t i => if (t.job i).any p then t.deleteJob i else some t) t = some t' ∧
      Sound t' ∧ Prunes p t t' := by
  induction is generalizing t with
  | nil => exact ⟨t, rfl, h, Prunes.refl p t⟩
  | cons i is ih =>
    have hstep : ∃ t₁, (if (t.job i).any p then t.deleteJob i else some t) = some t₁ ∧
        Sound t₁ ∧ Prunes p t t₁ := by
      split
      · rename_i hp
        exact prunes_deleteJob h hp
      · exact ⟨t, rfl, h, Prunes.refl p t⟩
    obtain ⟨t₁, heq, hsound, hprunes⟩ := hstep
    obtain ⟨t', heq', hsound', hprunes'⟩ := ih hsound
    refine ⟨t', ?_, hsound', hprunes.trans hprunes'⟩
    rw [List.foldlM_cons, heq]
    exact heq'

theorem deleteWhere_eq (h : Sound t) (p : Job → Bool) :
    ∃ t', t.deleteWhere p = some t' ∧ Sound t' ∧ Prunes p t t' :=
  foldlM_prunes h (List.range t.jobslots)

/-- Only dead jobs are cleaned up. -/
theorem cleanupDeadJobs_eq (h : Sound t) :
    ∃ t', t.cleanupDeadJobs = some t' ∧ Sound t' ∧ Prunes (fun j => j.state = .dead) t t' := by
  obtain ⟨t', heq, hsound, hprunes⟩ := deleteWhere_eq h
    fun j => j.state = .dead && (j.notified || j.foreground && !j.killedBySignal)
  refine ⟨t', heq, hsound, hprunes.slots, hprunes.stay, ?_, hprunes.named⟩
  intro k j hk hj
  refine hprunes.kept k j hk ?_
  rw [hj, Bool.false_and]

/-! ## Marking the dead jobs -/

/-- What a slot holds when the dead jobs may be marked. -/
inductive Marked : Option Job → Option Job → Prop
  | same (o : Option Job) : Marked o o
  | notified (j : Job) (h : j.state = .dead) : Marked (some j) (some { j with notified := true })

theorem marked_markLoop (sh : Shell) (n : Int) (l : List (Option Job)) :
    List.Forall₂ Marked l (markLoop sh n l) := by
  induction l generalizing n with
  | nil => exact .nil
  | cons o l ih =>
    cases o with
    | none => exact .cons (.same none) (ih n)
    | some j =>
      rw [markLoop]
      split
      · rename_i hdead
        split
        · exact List.forall₂_same.mpr fun o _ => .same o
        · refine .cons (.notified j ?_) (ih _)
          simpa using (Bool.and_eq_true_iff.mp hdead).1
      · exact .cons (.same _) (ih n)

theorem Marked.isSome {o o' : Option Job} (h : Marked o o') : o'.isSome = o.isSome := by
  cases h with
  | same => rfl
  | notified => rfl

theorem Marked.isDead {o o' : Option Job} (h : Marked o o') : isDead o' = isDead o := by
  cases h with
  | same => rfl
  | notified => rfl

theorem countP_marked {q : Option Job → Bool} (hq : ∀ o o', Marked o o' → q o' = q o)
    {l l' : List (Option Job)} (h : List.Forall₂ Marked l l') : l'.countP q = l.countP q := by
  induction h with
  | nil => rfl
  | cons hab _ ih => rw [List.countP_cons, List.countP_cons, ih, hq _ _ hab]

theorem slot_marked {l l' : List (Option Job)} (h : List.Forall₂ Marked l l') (k : Nat) :
    Marked (slot l k) (slot l' k) := by
  induction h generalizing k with
  | nil => exact .same none
  | cons hab _ ih =>
    cases k with
    | zero => exact hab
    | succ k => exact ih k

/-- `mark_dead_jobs_as_notified` changes flags of dead jobs. -/
theorem markDeadJobsAsNotified_eq (h : Sound t) (sh : Shell) :
    Sound (t.markDeadJobsAsNotified sh) ∧
      (t.markDeadJobsAsNotified sh).current = t.current ∧
      (t.markDeadJobsAsNotified sh).previous = t.previous ∧
      ∀ k, Marked (t.job k) ((t.markDeadJobsAsNotified sh).job k) := by
  unfold markDeadJobsAsNotified
  split
  · exact ⟨h, rfl, rfl, fun k => .same _⟩
  · have hmarked := marked_markLoop sh (deadProcesses t.jobs) t.jobs
    have hslot := slot_marked hmarked
    have hsome : ∀ k, (slot (markLoop sh (deadProcesses t.jobs) t.jobs) k).isSome =
        (t.job k).isSome := fun k => (hslot k).isSome
    have hcountSome := countP_marked (fun _ _ => Marked.isSome) hmarked
    have hcountDead := countP_marked (fun _ _ => Marked.isDead) hmarked
    refine ⟨⟨⟨?_, ?_, ?_, h.empty⟩, ⟨?_, ?_⟩, ⟨h.both, ?_, ?_⟩⟩, rfl, rfl, hslot⟩
    · rw [hcountSome]
      exact h.njobs
    · intro k hk
      exact h.between k ((hsome k).symm.trans hk)
    · intro hne
      obtain ⟨hfirst, hlast⟩ := h.ends hne
      exact ⟨(hsome _).trans hfirst, (hsome _).trans hlast⟩
    · rw [hcountDead]
      exact h.ndead
    · intro k j hk hdead
      have hm := hslot k
      have hj : slot (markLoop sh (deadProcesses t.jobs) t.jobs) k = some j := hk
      rw [hj] at hm
      generalize hold : slot t.jobs k = old at hm
      cases hm with
      | same => exact h.dead k j hold hdead
      | notified j₁ h₁ => exact h.dead k j₁ hold h₁
    · intro k hk
      exact (hsome k).trans (h.current k hk)
    · intro k hk
      exact (hsome k).trans (h.previous k hk)

/-- What `reap_dead_jobs` leaves: no job moves, only dead jobs go, and what stays is as it was, up
to `J_NOTIFIED` in dead jobs. -/
structure Reaped (t t' : Table) : Prop where
  stay : ∀ k j, t'.job k = some j → Marked (t.job k) (some j)
  kept : ∀ k j, t.job k = some j → j.state ≠ .dead → t'.job k = some j
  named : (∀ k, t.current = some k → (t'.job k).isSome) →
    (∀ k, t.previous = some k → (t'.job k).isSome) →
    t'.current = t.current ∧ t'.previous = t.previous

theorem reapDeadJobs_eq (h : Sound t) (sh : Shell) :
    ∃ t', t.reapDeadJobs sh = some t' ∧ Sound t' ∧ t'.jobslots = t.jobslots ∧ Reaped t t' := by
  obtain ⟨hsound, hcurrent, hprevious, hmarked⟩ := markDeadJobsAsNotified_eq h sh
  obtain ⟨t', heq, hsound', hprunes⟩ := cleanupDeadJobs_eq hsound
  have hslots : (t.markDeadJobsAsNotified sh).jobslots = t.jobslots := by
    unfold markDeadJobsAsNotified
    split
    · rfl
    · exact (marked_markLoop sh (deadProcesses t.jobs) t.jobs).length_eq.symm
  refine ⟨t', heq, hsound', hprunes.slots.trans hslots, ?_, ?_, ?_⟩
  · intro k j hk
    rw [← hprunes.stay k j hk]
    exact hmarked k
  · intro k j hk hj
    refine hprunes.kept k j ?_ (by simpa using hj)
    have hm := hmarked k
    rw [hk] at hm
    generalize hnew : (t.markDeadJobsAsNotified sh).job k = o at hm
    cases hm with
    | same => rfl
    | notified _ hdead => exact absurd hdead hj
  · intro hc hp
    rw [← hcurrent] at hc
    rw [← hprevious] at hp
    obtain ⟨hc', hp'⟩ := hprunes.named hc hp
    exact ⟨hc'.trans hcurrent, hp'.trans hprevious⟩

/-- `delete_all_jobs` -/
theorem deleteAllJobs_eq (h : Sound t) (runningOnly : Bool) :
    ∃ t', t.deleteAllJobs runningOnly = some t' ∧ Sound t' := by
  unfold deleteAllJobs
  split
  · exact ⟨t, rfl, h⟩
  · have hnone : Sound { t with current := none, previous := none } :=
      ⟨⟨h.njobs, h.between, h.ends, h.empty⟩, ⟨h.ndead, h.dead⟩,
        ⟨rfl, nofun, nofun⟩⟩
    obtain ⟨t', heq, hsound, hprunes⟩ := deleteWhere_eq hnone
      fun j => !runningOnly || j.state = .running
    obtain ⟨hcurrent, hprevious⟩ := hprunes.named nofun nofun
    rw [heq]
    simp only [Option.bind_eq_bind, Option.bind_some]
    cases runningOnly with
    | true => exact ⟨t', rfl, hsound⟩
    | false =>
      refine ⟨_, rfl, ⟨rfl, ?_, fun hne => absurd rfl hne, fun _ => ⟨rfl, rfl⟩⟩, ⟨rfl, ?_⟩,
        ⟨?_, ?_, ?_⟩⟩
      · intro k hk
        cases hk
      · intro k j hk
        cases hk
      · exact (congrArg Option.isSome hcurrent).trans (congrArg Option.isSome hprevious).symm
      · intro k hk
        have hk' := hcurrent.symm.trans hk
        cases hk'
      · intro k hk
        have hk' := hprevious.symm.trans hk
        cases hk'

end Basht.JobTable.Table
