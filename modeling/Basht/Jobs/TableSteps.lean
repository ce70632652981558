import Basht.Jobs.Table

/-!
# What the operations keep

`Indexed` is what `j_njobs`, `j_firstj` and `j_lastj` say of the slots, `Counted` what `j_ndead`
says of the states, and `Chosen` what `j_current` and `j_previous` name. The operations are made of
a few updates: a job is set, cleared, or put after all others, and the list is packed.
-/

namespace Basht.JobTable.Table

open SlotTable

variable {t t' : Table} {i k : Nat} {j j' : Job}

/-! ## The invariant -/

structure Indexed (t : Table) : Prop where
  njobs : t.njobs = t.jobs.countP Option.isSome
  between : ∀ i, (t.job i).isSome → t.firstj ≤ i ∧ i ≤ t.lastj
  ends : t.njobs ≠ 0 → (t.job t.firstj).isSome ∧ (t.job t.lastj).isSome
  empty : t.njobs = 0 → t.firstj = 0 ∧ t.lastj = 0

structure Counted (t : Table) : Prop where
  ndead : t.ndead = t.jobs.countP isDead
  dead : ∀ i j, t.job i = some j → j.state = .dead → ∀ p ∈ j.pipe, p.isAlive = false

structure Chosen (t : Table) : Prop where
  both : t.current.isSome = t.previous.isSome
  current : ∀ i, t.current = some i → (t.job i).isSome
  previous : ∀ i, t.previous = some i → (t.job i).isSome

structure Sound (t : Table) : Prop extends Indexed t, Counted t, Chosen t

theorem lt_jobslots (h : t.job i = some j) : i < t.jobslots := lt_of_slot h

theorem isSome_of_inState {state : JobState} (h : t.inState state i) : (t.job i).isSome := by
  unfold inState at h
  cases hi : t.job i with
  | none => rw [hi] at h; exact absurd h (by simp)
  | some j => rfl

theorem job_eq_none_of_njobs (h : t.njobs = t.jobs.countP Option.isSome) (hzero : t.njobs = 0) :
    ∀ i, t.job i = none := by
  have hcount : t.jobs.countP Option.isSome = 0 := by omega
  exact countP_isSome_eq_zero.mp hcount

theorem exists_job_of_njobs (h : t.njobs = t.jobs.countP Option.isSome) (hne : t.njobs ≠ 0) :
    ∃ i, (t.job i).isSome := by
  by_contra hno
  have hcount : t.jobs.countP Option.isSome = 0 := countP_isSome_eq_zero.mpr fun i => by
    cases hi : slot t.jobs i with
    | none => rfl
    | some j =>
      have hsome : (t.job i).isSome := by
        unfold job
        rw [hi]
        rfl
      exact absurd ⟨i, hsome⟩ hno
  omega

/-! ## Choosing the current job -/

theorem inState_of_mostRecent {state : JobState} {n : Nat}
    (h : t.mostRecentJobInState state n = some i) : t.inState state i := by
  induction n with
  | zero => cases h
  | succ n ih =>
    unfold mostRecentJobInState at h
    split at h
    · rename_i hstate
      cases h
      exact hstate
    · exact ih h

/-- `set_current_job` finds a previous job. -/
theorem setCurrentJob_eq (hi : (t.job i).isSome) :
    ∃ p, t.setCurrentJob i = { t with current := some i, previous := some p } ∧
      (t.job p).isSome := by
  have hmoved : ∃ q, (if t.current = some i then t
      else { t with previous := t.current, current := some i }) =
        { t with current := some i, previous := q } := by
    split
    · rename_i hcurrent
      exact ⟨t.previous, by rw [← hcurrent]⟩
    · exact ⟨t.current, rfl⟩
  obtain ⟨q, hq⟩ := hmoved
  unfold setCurrentJob
  rw [hq]
  dsimp only
  split
  · rename_i hstopped
    cases q with
    | none => simp at hstopped
    | some p =>
      refine ⟨p, rfl, ?_⟩
      have hp : t.inState .stopped p := by
        have h := (Bool.and_eq_true_iff.mp hstopped).2
        exact h
      exact isSome_of_inState hp
  · split
    · rename_i candidate hcandidate
      refine ⟨candidate, rfl, ?_⟩
      split at hcandidate
      · have hsome := isSome_of_inState (inState_of_mostRecent hcandidate)
        exact hsome
      · cases hcandidate
    · split
      · rename_i candidate hcandidate
        have hsome := isSome_of_inState (inState_of_mostRecent hcandidate)
        exact ⟨candidate, rfl, hsome⟩
      · exact ⟨i, rfl, hi⟩

/-- `t'` is `t` with other current and previous jobs. -/
structure Rechosen (t t' : Table) : Prop where
  same : ∃ c p, t' = { t with current := c, previous := p }
  chosen : Chosen t'

theorem rechosen_setCurrentJob (hi : (t.job i).isSome) : Rechosen t (t.setCurrentJob i) := by
  obtain ⟨p, heq, hp⟩ := setCurrentJob_eq hi
  rw [heq]
  refine ⟨⟨some i, some p, rfl⟩, rfl, ?_, ?_⟩
  · intro k hk
    cases hk
    exact hi
  · intro k hk
    cases hk
    exact hp

theorem rechosen_resetCurrent (t : Table) : Rechosen t t.resetCurrent := by
  unfold resetCurrent
  dsimp only
  split
  · rename_i i hi
    refine rechosen_setCurrentJob ?_
    split at hi
    · rename_i hcurrent
      rw [hi] at hcurrent
      exact isSome_of_inState hcurrent
    · split at hi
      · rename_i hprevious
        rw [hi] at hprevious
        exact isSome_of_inState hprevious
      · split at hi
        · rename_i k hk
          cases hi
          exact isSome_of_inState (inState_of_mostRecent hk)
        · exact isSome_of_inState (inState_of_mostRecent hi)
  · refine ⟨⟨none, none, rfl⟩, rfl, ?_, ?_⟩
    · intro k hk
      cases hk
    · intro k hk
      cases hk

theorem Rechosen.sound (h : Rechosen t t') (hindexed : Indexed t) (hcounted : Counted t) :
    Sound t' := by
  obtain ⟨⟨c, p, rfl⟩, hchosen⟩ := h
  exact ⟨⟨hindexed.njobs, hindexed.between, hindexed.ends, hindexed.empty⟩,
    ⟨hcounted.ndead, hcounted.dead⟩, hchosen⟩

theorem Rechosen.jobs (h : Rechosen t t') : t'.jobs = t.jobs := by
  obtain ⟨⟨c, p, rfl⟩, -⟩ := h
  rfl

theorem Rechosen.job (h : Rechosen t t') (i : Nat) : t'.job i = t.job i := by
  obtain ⟨⟨c, p, rfl⟩, -⟩ := h
  rfl

/-! ## Setting a job -/

theorem job_setJob_self (h : i < t.jobslots) : (t.setJob i j).job i = some j := slot_set_self h

theorem job_setJob_ne (h : i ≠ k) : (t.setJob i j).job k = t.job k := slot_set_ne h

theorem isSome_setJob (hi : (t.job i).isSome) (k : Nat) :
    ((t.setJob i j).job k).isSome = (t.job k).isSome := by
  by_cases h : i = k
  · subst h
    rw [job_setJob_self (lt_of_isSome hi), hi]
    rfl
  · rw [job_setJob_ne h]

theorem countP_isSome_setJob (hi : t.job i = some j) :
    (t.setJob i j').jobs.countP Option.isSome = t.jobs.countP Option.isSome := by
  have hcount := countP_set (o := some j') Option.isSome (lt_of_slot hi)
  have hslot : slot t.jobs i = some j := hi
  rw [hslot] at hcount
  change (t.jobs.set i (some j')).countP Option.isSome = _
  simpa using hcount

theorem countP_isDead_setJob (hi : t.job i = some j) (j' : Job) :
    (t.setJob i j').jobs.countP isDead + (if j.state = .dead then 1 else 0) =
      t.jobs.countP isDead + (if j'.state = .dead then 1 else 0) := by
  have hcount := countP_set (o := some j') isDead (lt_of_slot hi)
  have hslot : slot t.jobs i = some j := hi
  rw [hslot] at hcount
  change (t.jobs.set i (some j')).countP isDead + _ = _
  simpa [isDead] using hcount

theorem Indexed.setJob (h : Indexed t) (hi : t.job i = some j) (j' : Job) :
    Indexed (t.setJob i j') := by
  have hsome : (t.job i).isSome := by rw [hi]; rfl
  have hsame := fun k => isSome_setJob (j := j') hsome k
  refine ⟨?_, ?_, ?_, h.empty⟩
  · rw [countP_isSome_setJob hi]
    exact h.njobs
  · intro k hk
    rw [hsame k] at hk
    exact h.between k hk
  · intro hne
    obtain ⟨hfirst, hlast⟩ := h.ends hne
    exact ⟨(hsame t.firstj).trans hfirst, (hsame t.lastj).trans hlast⟩

theorem Chosen.setJob (h : Chosen t) (hi : t.job i = some j) (j' : Job) :
    Chosen (t.setJob i j') := by
  have hsome : (t.job i).isSome := by rw [hi]; rfl
  refine ⟨h.both, ?_, ?_⟩
  · intro k hk
    exact (isSome_setJob hsome k).trans (h.current k hk)
  · intro k hk
    exact (isSome_setJob hsome k).trans (h.previous k hk)

theorem dead_setJob (h : Counted t) (hi : t.job i = some j)
    (hdead : j'.state = .dead → ∀ p ∈ j'.pipe, p.isAlive = false) :
    ∀ k j₁, (t.setJob i j').job k = some j₁ → j₁.state = .dead →
      ∀ p ∈ j₁.pipe, p.isAlive = false := by
  intro k j₁ hk
  by_cases hik : i = k
  · subst hik
    rw [job_setJob_self (lt_jobslots hi)] at hk
    cases hk
    exact hdead
  · rw [job_setJob_ne hik] at hk
    exact h.dead k j₁ hk

/-- A job changes, but not to or from `JDEAD`. -/
theorem Sound.setJob (h : Sound t) (hi : t.job i = some j)
    (hstate : j'.state = .dead ↔ j.state = .dead)
    (hdead : j'.state = .dead → ∀ p ∈ j'.pipe, p.isAlive = false) : Sound (t.setJob i j') := by
  refine ⟨h.toIndexed.setJob hi j', ⟨?_, dead_setJob h.toCounted hi hdead⟩,
    h.toChosen.setJob hi j'⟩
  have hcount := countP_isDead_setJob hi j'
  have hndead := h.ndead
  change t.ndead = _
  by_cases hj : j.state = .dead
  · rw [if_pos hj, if_pos (hstate.mpr hj)] at hcount
    omega
  · rw [if_neg hj, if_neg fun h' => hj (hstate.mp h')] at hcount
    omega

/-- A job dies. -/
theorem Sound.kill (h : Sound t) (hi : t.job i = some j) (hj : j.state ≠ .dead)
    (hj' : j'.state = .dead) (hdead : ∀ p ∈ j'.pipe, p.isAlive = false) :
    Sound { t.setJob i j' with ndead := t.ndead + 1 } := by
  have hindexed := h.toIndexed.setJob hi j'
  have hchosen := h.toChosen.setJob hi j'
  refine ⟨⟨hindexed.njobs, hindexed.between, hindexed.ends, hindexed.empty⟩,
    ⟨?_, dead_setJob h.toCounted hi fun _ => hdead⟩,
    ⟨hchosen.both, hchosen.current, hchosen.previous⟩⟩
  have hcount := countP_isDead_setJob hi j'
  have hndead := h.ndead
  rw [if_neg hj, if_pos hj'] at hcount
  change t.ndead + 1 = ((t.setJob i j').jobs.countP isDead : Int)
  omega

end Basht.JobTable.Table
