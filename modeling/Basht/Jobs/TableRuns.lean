import Basht.Jobs.TableDeletion

/-!
# Runs on the job table

`realloc_jobs_list` moves the jobs together; `stop_pipeline` puts a job after all others; a child
that changes its status, and `start_job`, change one job. So every table that is reached is
`Sound`.
-/

namespace Basht.JobTable.Table

open SlotTable

variable {t t' t₁ : Table} {i k : Nat} {j j' : Job}

/-! ## Compaction -/

/-- What the copying loop makes of `cur`, from slot `i` on and with `n` jobs copied. -/
def follow (cur : Option Nat) : Nat → List (Option Job) → Nat → Option Nat → Option Nat
  | _, [], _, acc => acc
  | i, none :: js, n, acc => follow cur (i + 1) js n acc
  | i, some _ :: js, n, acc => follow cur (i + 1) js (n + 1) (if cur = some i then some n else acc)

theorem follow_of_lt {cur : Option Nat} {acc : Option Nat} {n : Nat} (js : List (Option Job))
    (h : ∀ m, cur = some m → m < i) : follow cur i js n acc = acc := by
  induction js generalizing i n acc with
  | nil => rfl
  | cons o js ih =>
    have hrest : ∀ m, cur = some m → m < i + 1 := fun m hm => Nat.lt_succ_of_lt (h m hm)
    cases o with
    | none => exact ih hrest
    | some j =>
      have hne : cur ≠ some i := fun hi => Nat.lt_irrefl i (h i hi)
      rw [follow, if_neg hne]
      exact ih hrest

theorem follow_eq {acc : Option Nat} {n : Nat} {js : List (Option Job)} (hk : (slot js k).isSome) :
    follow (some (i + k)) i js n acc = some (n + rank js k) := by
  induction js generalizing i k n acc with
  | nil => exact absurd (lt_of_isSome hk) (Nat.not_lt_zero k)
  | cons o js ih =>
    cases k with
    | zero =>
      cases o with
      | none => cases hk
      | some j =>
        rw [follow, Nat.add_zero, if_pos rfl]
        refine follow_of_lt js ?_
        intro m hm
        cases hm
        exact Nat.lt_succ_self i
    | succ k =>
      have hidx : i + (k + 1) = i + 1 + k := by omega
      have hrest : (slot js k).isSome := hk
      cases o with
      | none =>
        have hrank : rank (none :: js) (k + 1) = rank js k := by simp [rank]
        rw [follow, hidx, hrank]
        exact ih hrest
      | some j =>
        have hrank : rank (some j :: js) (k + 1) = rank js k + 1 := by simp [rank]
        rw [follow, hidx, hrank, ih hrest]
        exact congrArg some (by omega)

theorem copyJobs_eq (t : Table) (js : List (Option Job)) (c : Copy) :
    t.copyJobs i js c =
      { nlist := c.nlist ++ js.reduceOption
        ncur := follow t.current i js c.nlist.length c.ncur
        nprev := follow t.previous i js c.nlist.length c.nprev
        ndead := c.ndead + js.countP isDead } := by
  induction js generalizing i c with
  | nil => simp [copyJobs, follow]
  | cons o js ih =>
    cases o with
    | none =>
      rw [copyJobs, ih, List.reduceOption_cons_of_none, List.countP_cons]
      simp [follow, isDead]
    | some j =>
      rw [copyJobs, ih, List.reduceOption_cons_of_some, List.countP_cons]
      by_cases hj : j.state = .dead
      · simp [follow, isDead, hj]
        omega
      · simp [follow, isDead, hj]

/-- The jobs of `t` stand together in `t'`, in their order, and the current and the previous job
are the same. -/
structure Packed (t t' : Table) : Prop where
  entries : ∀ k, t'.job k = t.jobs.reduceOption[k]?
  moves : ∀ i j, t.job i = some j → t'.job (rank t.jobs i) = some j
  slots : t.jobs.reduceOption.length < t'.jobslots
  lastj : t'.lastj = t.jobs.reduceOption.length - 1
  named : t.current.isSome → t'.current = t.current.map (rank t.jobs) ∧
    t'.previous = t.previous.map (rank t.jobs)

theorem lt_newSize (h : Sound t) : t.jobs.reduceOption.length < t.newSize := by
  have hnjobs := h.njobs
  rw [← length_reduceOption] at hnjobs
  unfold newSize jobSlots
  dsimp only
  split
  · omega
  · omega

theorem rank_lt (h : t.job i = some j) : rank t.jobs i < t.jobs.reduceOption.length := by
  have hget := getElem?_rank h
  by_contra hge
  rw [List.getElem?_eq_none (Nat.le_of_not_lt hge)] at hget
  cases hget

/-- The index that the copying loop gives a job that is named. -/
theorem follow_named {cur : Option Nat} (h : ∀ i, cur = some i → (t.job i).isSome) :
    (if follow cur 0 t.jobs 0 none = none then cur else follow cur 0 t.jobs 0 none) =
      cur.map (rank t.jobs) := by
  cases cur with
  | none =>
    have hnone : follow none 0 t.jobs 0 none = none := follow_of_lt t.jobs nofun
    rw [if_pos hnone]
    rfl
  | some i =>
    have hfollow : follow (some (0 + i)) 0 t.jobs 0 none = some (0 + rank t.jobs i) :=
      follow_eq (h i rfl)
    rw [Nat.zero_add, Nat.zero_add] at hfollow
    rw [hfollow, if_neg (by simp)]
    rfl

theorem packed_eq (h : Sound t) :
    t.packed =
      { jobs := t.jobs.reduceOption.map some ++
          List.replicate (t.newSize - t.jobs.reduceOption.length) none
        firstj := 0
        lastj := t.jobs.reduceOption.length - 1
        njobs := t.jobs.reduceOption.length
        ndead := t.jobs.countP isDead
        current := t.current.map (rank t.jobs)
        previous := t.previous.map (rank t.jobs) } := by
  unfold packed
  rw [copyJobs_eq]
  dsimp only [List.nil_append, List.length_nil]
  rw [follow_named h.current, follow_named h.previous, Int.zero_add]

theorem job_packed (h : Sound t) (k : Nat) : t.packed.job k = t.jobs.reduceOption[k]? := by
  unfold job
  rw [packed_eq h]
  exact slot_packed _ _

theorem indexed_packed (h : Sound t) : Indexed t.packed := by
  have hjob := job_packed h
  have hlt : ∀ k, (t.packed.job k).isSome → k < t.jobs.reduceOption.length := by
    intro k hk
    rw [hjob] at hk
    by_contra hge
    rw [List.getElem?_eq_none (Nat.le_of_not_lt hge)] at hk
    cases hk
  have hfirst : t.packed.firstj = 0 := by rw [packed_eq h]
  have hlast : t.packed.lastj = t.jobs.reduceOption.length - 1 := by rw [packed_eq h]
  have hnjobs : t.packed.njobs = (t.jobs.reduceOption.length : Int) := by rw [packed_eq h]
  refine ⟨?_, ?_, ?_, ?_⟩
  · rw [packed_eq h]
    dsimp only
    rw [countP_append_free rfl, countP_reduceOption rfl, length_reduceOption]
  · intro k hk
    rw [hfirst, hlast]
    have := hlt k hk
    omega
  · intro hne
    have hpos : 0 < t.jobs.reduceOption.length := by omega
    rw [hfirst, hlast, hjob, hjob, List.getElem?_eq_getElem hpos,
      List.getElem?_eq_getElem (Nat.sub_lt hpos Nat.one_pos)]
    exact ⟨rfl, rfl⟩
  · intro hzero
    rw [hfirst, hlast]
    omega

theorem counted_packed (h : Sound t) : Counted t.packed := by
  refine ⟨?_, ?_⟩
  · rw [packed_eq h]
    dsimp only
    rw [countP_append_free rfl, countP_reduceOption rfl]
  · intro k j hk
    rw [job_packed h] at hk
    have hmem := List.mem_of_getElem? hk
    rw [List.reduceOption_mem_iff] at hmem
    obtain ⟨i, hi, hij⟩ := List.getElem_of_mem hmem
    refine h.dead i j ?_
    unfold job
    rw [slot_eq_getElem hi, hij]

theorem moves_packed (h : Sound t) (hi : t.job i = some j) :
    t.packed.job (rank t.jobs i) = some j := by
  rw [job_packed h]
  exact getElem?_rank hi

theorem chosen_packed (h : Sound t) : Chosen t.packed := by
  have hnamed : ∀ cur : Option Nat, (∀ i, cur = some i → (t.job i).isSome) →
      ∀ k, cur.map (rank t.jobs) = some k → (t.packed.job k).isSome := by
    intro cur hcur k hk
    cases cur with
    | none => cases hk
    | some i =>
      obtain ⟨j, hj⟩ := Option.isSome_iff_exists.mp (hcur i rfl)
      cases hk
      rw [moves_packed h hj]
      rfl
  refine ⟨?_, ?_, ?_⟩
  · rw [packed_eq h]
    dsimp only
    rw [Option.isSome_map, Option.isSome_map]
    exact h.both
  · intro k hk
    refine hnamed t.current h.current k ?_
    rw [packed_eq h] at hk
    exact hk
  · intro k hk
    refine hnamed t.previous h.previous k ?_
    rw [packed_eq h] at hk
    exact hk

theorem Rechosen.packed (h : Rechosen t.packed t') (hs : Sound t)
    (hnamed : t.current.isSome → t'.current = t.current.map (rank t.jobs) ∧
      t'.previous = t.previous.map (rank t.jobs)) : Packed t t' := by
  refine ⟨?_, ?_, ?_, ?_, hnamed⟩
  · intro k
    rw [h.job, job_packed hs]
  · intro i j hi
    rw [h.job, moves_packed hs hi]
  · unfold jobslots
    rw [h.jobs, packed_eq hs]
    dsimp only
    rw [List.length_append, List.length_map, List.length_replicate]
    have hlt := lt_newSize hs
    omega
  · obtain ⟨⟨c, p, rfl⟩, -⟩ := h
    rw [packed_eq hs]

theorem reallocJobsList_eq (h : Sound t) :
    ∃ t', t.reallocJobsList = some t' ∧ Sound t' ∧ Packed t t' := by
  have hindexed := indexed_packed h
  have hcounted := counted_packed h
  have hsize : ¬ t.newSize < (t.copyJobs 0 t.jobs ⟨[], none, none, 0⟩).nlist.length := by
    rw [copyJobs_eq]
    exact Nat.not_lt_of_lt (lt_newSize h)
  unfold reallocJobsList
  rw [if_neg hsize]
  split
  · rename_i hastray
    have hre := rechosen_resetCurrent t.packed
    refine ⟨_, rfl, hre.sound hindexed hcounted, hre.packed h ?_⟩
    -- both jobs are named, so neither index is beyond the list
    intro hsome
    obtain ⟨i, hi⟩ := Option.isSome_iff_exists.mp hsome
    obtain ⟨k, hk⟩ := Option.isSome_iff_exists.mp (h.both ▸ hsome)
    have hin : ∀ m, (t.job m).isSome → ¬ t.packed.lastj < rank t.jobs m := by
      intro m hm
      obtain ⟨j, hj⟩ := Option.isSome_iff_exists.mp hm
      have hlt := rank_lt hj
      rw [packed_eq h]
      dsimp only
      omega
    rw [packed_eq h] at hastray
    rw [hi, hk] at hastray
    have hlast : t.packed.lastj = t.jobs.reduceOption.length - 1 := by rw [packed_eq h]
    have hin₁ := hin i (h.current i hi)
    have hin₂ := hin k (h.previous k hk)
    rw [hlast] at hin₁ hin₂
    simp only [astray, Option.map_some, decide_eq_true_eq, Bool.or_eq_true] at hastray
    omega
  · have hre : Rechosen t.packed t.packed := ⟨⟨_, _, rfl⟩, chosen_packed h⟩
    refine ⟨_, rfl, ⟨hindexed, hcounted, chosen_packed h⟩, hre.packed h ?_⟩
    intro _
    rw [packed_eq h]
    exact ⟨rfl, rfl⟩

/-- `compact_jobs_list` reaps dead jobs and moves the others together. -/
theorem compactJobsList_eq (h : Sound t) (sh : Shell) (hslots : t.jobslots ≠ 0) :
    ∃ t₁ t', t.reapDeadJobs sh = some t₁ ∧ Reaped t t₁ ∧
      t.compactJobsList sh = some (t', t₁.jobs.reduceOption.length) ∧ Sound t' ∧
      Packed t₁ t' := by
  obtain ⟨t₁, hreap, hsound₁, -, hreaped⟩ := reapDeadJobs_eq h sh
  obtain ⟨t', hrealloc, hsound', hpacked⟩ := reallocJobsList_eq hsound₁
  refine ⟨t₁, t', hreap, hreaped, ?_, hsound', hpacked⟩
  unfold compactJobsList
  rw [if_neg hslots, hreap]
  simp only [Option.bind_eq_bind, Option.bind_some, hrealloc]
  rw [hpacked.entries, hpacked.lastj]
  rcases Nat.eq_zero_or_pos t₁.jobs.reduceOption.length with hzero | hpos
  · have hnone : t₁.jobs.reduceOption[t₁.jobs.reduceOption.length - 1]? = none :=
      List.getElem?_eq_none (by omega)
    rw [hnone, if_neg (by simp; omega), hzero]
  · have hsome : (t₁.jobs.reduceOption[t₁.jobs.reduceOption.length - 1]?).isSome := by
      rw [List.getElem?_eq_getElem (by omega)]
      rfl
    rw [if_pos (Or.inr hsome), Nat.sub_add_cancel hpos]

/-! ## A new job -/

theorem lastUsed_le (t : Table) (n : Nat) : t.lastUsed n ≤ n := by
  induction n with
  | zero => exact Nat.le_refl 0
  | succ n ih =>
    unfold lastUsed
    split
    · exact Nat.le_refl _
    · exact Nat.le_succ_of_le ih

theorem lt_lastUsed {n : Nat} (hk : (t.job k).isSome) (hkn : k < n) : k < t.lastUsed n := by
  induction n with
  | zero => omega
  | succ n ih =>
    unfold lastUsed
    split
    · exact hkn
    · rename_i hn
      have hne : k ≠ n := fun h => hn (h ▸ hk)
      exact ih (by omega)

theorem lastUsed_eq_zero {n : Nat} (hnone : ∀ i, t.job i = none) : t.lastUsed n = 0 := by
  induction n with
  | zero => rfl
  | succ n ih => rw [lastUsed, hnone n, if_neg (by simp), ih]

theorem le_nextFree (t : Table) (n i : Nat) : i ≤ t.nextFree n i ∧ t.nextFree n i ≤ i + n := by
  induction n generalizing i with
  | zero => exact ⟨Nat.le_refl i, Nat.le_refl i⟩
  | succ n ih =>
    unfold nextFree
    split
    · omega
    · have := ih (i + 1)
      omega

theorem lt_nextFree {n : Nat} (hi : (t.job i).isSome) (hn : 0 < n) : i < t.nextFree n i := by
  cases n with
  | zero => exact absurd hn (Nat.lt_irrefl 0)
  | succ n =>
    unfold nextFree
    rw [Option.isNone_eq_false_iff.mpr hi, if_neg (by simp)]
    have := (le_nextFree t n (i + 1)).1
    omega

/-- A slot after all jobs, and the first if there is none. -/
structure After (t : Table) (i : Nat) : Prop where
  jobs : ∀ k, (t.job k).isSome → k < i
  empty : t.njobs = 0 → i = 0

theorem After.free (h : After t i) : t.job i = none := by
  by_contra hsome
  exact Nat.lt_irrefl i (h.jobs i (Option.isSome_iff_ne_none.mpr hsome))

theorem findSlot_after (h : Sound t) (sh : Shell) :
    After t (t.findSlot sh) ∧ t.findSlot sh ≤ t.jobslots := by
  have hlastj : t.lastj ≠ 0 → t.lastj < t.jobslots := by
    intro hne
    have hnjobs : t.njobs ≠ 0 := fun hzero => hne (h.empty hzero).2
    exact lt_of_isSome (h.ends hnjobs).2
  unfold findSlot
  split
  · refine ⟨⟨fun k hk => lt_lastUsed hk (lt_of_isSome hk), ?_⟩, lastUsed_le t _⟩
    intro hzero
    exact lastUsed_eq_zero (job_eq_none_of_njobs h.njobs hzero)
  · by_cases hzero : t.lastj = 0
    · rw [hzero]
      simp only [ne_eq, not_true_eq_false, if_false, Nat.sub_zero]
      refine ⟨⟨?_, ?_⟩, ?_⟩
      · intro k hk
        have hk0 : k = 0 := by
          have := (h.between k hk).2
          omega
        subst hk0
        exact lt_nextFree hk (Nat.lt_of_le_of_lt (Nat.zero_le 0) (lt_of_isSome hk))
      · intro hempty
        cases hslots : t.jobslots with
        | zero => rfl
        | succ n =>
          rw [nextFree, job_eq_none_of_njobs h.njobs hempty 0]
          rfl
      · have := (le_nextFree t t.jobslots 0).2
        omega
    · have hlt := hlastj hzero
      dsimp only
      rw [if_pos hzero]
      have hle := le_nextFree t (t.jobslots - (t.lastj + 1)) (t.lastj + 1)
      refine ⟨⟨?_, ?_⟩, by omega⟩
      · intro k hk
        have := (h.between k hk).2
        omega
      · intro hempty
        exact absurd (h.empty hempty).2 hzero

theorem sound_withSlots (h : Sound t) : Sound t.withSlots ∧ t.withSlots.jobslots ≠ 0 := by
  unfold withSlots
  split
  · rename_i hslots
    have hjobs : t.jobs = [] := List.eq_nil_of_length_eq_zero hslots
    have hnone : ∀ i, t.job i = none := by
      intro i
      unfold job
      rw [hjobs]
      rfl
    have hndead : t.ndead = 0 := by
      have := h.ndead
      rw [hjobs] at this
      exact this
    have hfree : ∀ i, slot (List.replicate jobSlots (none : Option Job)) i = none := by
      intro i
      have happend := slot_append_free (l := ([] : List (Option Job))) (i := i) jobSlots
      exact happend
    refine ⟨⟨⟨rfl, ?_, fun hne => absurd rfl hne, fun _ => ⟨rfl, rfl⟩⟩, ⟨hndead, ?_⟩,
      ⟨h.both, ?_, ?_⟩⟩, ?_⟩
    · intro i hi
      have hsome : (slot (List.replicate jobSlots (none : Option Job)) i).isSome := hi
      rw [hfree] at hsome
      cases hsome
    · intro i j hi
      have hjob : slot (List.replicate jobSlots (none : Option Job)) i = some j := hi
      rw [hfree] at hjob
      cases hjob
    · intro i hi
      have := h.current i hi
      rw [hnone] at this
      cases this
    · intro i hi
      have := h.previous i hi
      rw [hnone] at this
      cases this
    · exact Nat.succ_ne_zero 7
  · rename_i hslots
    exact ⟨h, hslots⟩

theorem compactIfFull_eq (h : Sound t) (sh : Shell) (hslots : t.jobslots ≠ 0) :
    ∃ t' i, t.compactIfFull sh = some (t', i) ∧ Sound t' ∧ After t' i ∧ i ≤ t'.jobslots := by
  unfold compactIfFull
  split
  · obtain ⟨t₁, t', -, -, hcompact, hsound, hpacked⟩ := compactJobsList_eq h sh hslots
    refine ⟨t', _, hcompact, hsound, ⟨?_, ?_⟩, Nat.le_of_lt hpacked.slots⟩
    · intro k hk
      rw [hpacked.entries] at hk
      by_contra hge
      rw [List.getElem?_eq_none (Nat.le_of_not_lt hge)] at hk
      cases hk
    · intro hzero
      have hnone := job_eq_none_of_njobs hsound.njobs hzero
      by_contra hne
      have hfirst := hpacked.entries 0
      rw [hnone, List.getElem?_eq_getElem (Nat.pos_of_ne_zero hne)] at hfirst
      cases hfirst
  · obtain ⟨hafter, hle⟩ := findSlot_after h sh
    exact ⟨t, _, rfl, h, hafter, hle⟩

theorem job_grow (t : Table) (i k : Nat) : (t.grow i).job k = t.job k := by
  unfold grow
  split
  · exact slot_append_free jobSlots
  · rfl

theorem sound_grow (h : Sound t) (i : Nat) : Sound (t.grow i) := by
  have hjob := job_grow t i
  have hcount : ∀ q : Option Job → Bool, q none = false →
      (t.grow i).jobs.countP q = t.jobs.countP q := by
    intro q hq
    unfold grow
    split
    · exact countP_append_free hq jobSlots
    · rfl
  have hsame : ∃ jobs, t.grow i = { t with jobs } := by
    unfold grow
    split
    · exact ⟨_, rfl⟩
    · exact ⟨t.jobs, rfl⟩
  obtain ⟨jobs, hgrow⟩ := hsame
  rw [hgrow] at hjob hcount ⊢
  refine ⟨⟨?_, ?_, ?_, h.empty⟩, ⟨?_, ?_⟩, ⟨h.both, ?_, ?_⟩⟩
  · rw [hcount _ rfl]
    exact h.njobs
  · intro k hk
    rw [hjob] at hk
    exact h.between k hk
  · intro hne
    rw [hjob, hjob]
    exact h.ends hne
  · rw [hcount _ rfl]
    exact h.ndead
  · intro k j hk
    rw [hjob] at hk
    exact h.dead k j hk
  · intro k hk
    rw [hjob]
    exact h.current k hk
  · intro k hk
    rw [hjob]
    exact h.previous k hk

/-- `stop_pipeline` finds a slot that is free, after all jobs. -/
theorem makeRoom_eq (h : Sound t) (sh : Shell) :
    ∃ t' i, t.makeRoom sh = some (t', i) ∧ Sound t' ∧ After t' i ∧ i < t'.jobslots := by
  obtain ⟨t₁, hclean, hsound₁, -⟩ := cleanupDeadJobs_eq h
  obtain ⟨hsound₂, hslots₂⟩ := sound_withSlots hsound₁
  obtain ⟨t₃, i, hcompact, hsound₃, hafter, hle⟩ := compactIfFull_eq hsound₂ sh hslots₂
  refine ⟨t₃.grow i, i, ?_, sound_grow hsound₃ i, ⟨?_, ?_⟩, ?_⟩
  · unfold makeRoom
    rw [hclean]
    simp only [Option.bind_eq_bind, Option.bind_some, hcompact]
  · intro k hk
    rw [job_grow] at hk
    exact hafter.jobs k hk
  · intro hzero
    refine hafter.empty ?_
    rw [← hzero]
    unfold grow
    split
    · rfl
    · rfl
  · unfold grow
    split
    · rename_i hfull
      unfold jobslots
      dsimp only
      rw [List.length_append, List.length_replicate, hfull]
      exact Nat.lt_add_of_pos_right (Nat.succ_pos 7)
    · rename_i hfull
      exact Nat.lt_of_le_of_ne hle hfull

theorem job_install (hi : i < t.jobslots) (k : Nat) :
    (t.install i j).job k = if i = k then some j else t.job k := by
  split
  · rename_i hik
    subst hik
    exact slot_set_self hi
  · rename_i hik
    exact slot_set_ne hik

theorem sound_install (h : Sound t) (hafter : After t i) (hi : i < t.jobslots)
    (hdead : j.state = .dead → ∀ p ∈ j.pipe, p.isAlive = false) : Sound (t.install i j) := by
  have hjob := fun k => job_install (j := j) hi k
  have hfree : slot t.jobs i = none := hafter.free
  have hkeeps : ∀ k, (t.job k).isSome → ((t.install i j).job k).isSome := by
    intro k hk
    have hne : i ≠ k := Nat.ne_of_gt (hafter.jobs k hk)
    rw [hjob, if_neg hne]
    exact hk
  have hself : ((t.install i j).job i).isSome := by
    rw [hjob, if_pos rfl]
    rfl
  refine ⟨⟨?_, ?_, ?_, ?_⟩, ⟨?_, ?_⟩, ⟨h.both, ?_, ?_⟩⟩
  · have hcount := countP_set (o := some j) Option.isSome hi
    rw [hfree] at hcount
    have hone : (t.jobs.set i (some j)).countP Option.isSome =
        t.jobs.countP Option.isSome + 1 := by simpa using hcount
    have hnjobs := h.njobs
    change t.njobs + 1 = ((t.jobs.set i (some j)).countP Option.isSome : Int)
    omega
  · intro k hk
    change t.firstj ≤ k ∧ k ≤ i
    by_cases hik : i = k
    · subst hik
      refine ⟨?_, Nat.le_refl i⟩
      by_cases hzero : t.njobs = 0
      · rw [(h.empty hzero).1]
        exact Nat.zero_le i
      · exact Nat.le_of_lt (hafter.jobs _ (h.ends hzero).1)
    · rw [hjob, if_neg hik] at hk
      exact ⟨(h.between k hk).1, Nat.le_of_lt (hafter.jobs k hk)⟩
  · intro _
    refine ⟨?_, hself⟩
    change ((t.install i j).job t.firstj).isSome
    by_cases hzero : t.njobs = 0
    · rw [(h.empty hzero).1, ← hafter.empty hzero]
      exact hself
    · exact hkeeps _ (h.ends hzero).1
  · intro hzero
    have hnjobs := h.njobs
    change t.njobs + 1 = 0 at hzero
    omega
  · have hcount := countP_set (o := some j) isDead hi
    rw [hfree] at hcount
    have hndead := h.ndead
    change (if j.state = .dead then t.ndead + 1 else t.ndead) =
      ((t.jobs.set i (some j)).countP isDead : Int)
    by_cases hj : j.state = .dead
    · rw [if_pos hj]
      have hone : (t.jobs.set i (some j)).countP isDead = t.jobs.countP isDead + 1 := by
        simpa [isDead, hj] using hcount
      omega
    · rw [if_neg hj]
      have hsame : (t.jobs.set i (some j)).countP isDead = t.jobs.countP isDead := by
        simpa [isDead, hj] using hcount
      omega
  · intro k j₁ hk
    rw [hjob] at hk
    split at hk
    · cases hk
      exact hdead
    · exact h.dead k j₁ hk
  · intro k hk
    exact hkeeps k (h.current k hk)
  · intro k hk
    exact hkeeps k (h.previous k hk)

theorem dead_newJob (sh : Shell) (async : Bool) (pipe : List Process)
    (h : (newJob sh async pipe).state = .dead) : ∀ p ∈ pipe, p.isAlive = false := by
  intro p hp
  by_contra halive
  have hor : p.isRunning = true ∨ p.isStopped = true := by
    rw [Bool.not_eq_false] at halive
    exact Bool.or_eq_true_iff.mp halive
  have hrunning : pipe.any (·.isRunning) = true ∨ pipe.any (·.isStopped) = true := by
    rcases hor with hp' | hp'
    · exact Or.inl (List.any_eq_true.mpr ⟨p, hp, hp'⟩)
    · exact Or.inr (List.any_eq_true.mpr ⟨p, hp, hp'⟩)
  unfold newJob at h
  dsimp only at h
  rcases hrunning with hr | hs
  · rw [if_pos hr] at h
    cases h
  · rw [if_pos hs] at h
    split at h
    · cases h
    · cases h

theorem addPipeline_eq (h : Sound t) (hafter : After t i) (hi : i < t.jobslots) (sh : Shell)
    (async : Bool) (thePipeline : List Process) :
    Sound (t.addPipeline sh i async thePipeline) ∧ ∀ k,
      (t.addPipeline sh i async thePipeline).job k =
        if thePipeline ≠ [] ∧ i = k then some (newJob sh async thePipeline.reverse)
        else t.job k := by
  have hadded : ∃ t₁, (if thePipeline = [] then t
      else t.install i (newJob sh async thePipeline.reverse)) = t₁ ∧ Sound t₁ ∧ ∀ k, t₁.job k =
        if thePipeline ≠ [] ∧ i = k then some (newJob sh async thePipeline.reverse)
        else t.job k := by
    refine ⟨_, rfl, ?_, ?_⟩
    · split
      · exact h
      · exact sound_install h hafter hi (dead_newJob sh async _)
    · intro k
      by_cases hempty : thePipeline = []
      · rw [if_pos hempty, if_neg fun hne => hne.1 hempty]
      · rw [if_neg hempty, job_install hi]
        simp [hempty]
  obtain ⟨t₁, heq, hsound, hjob⟩ := hadded
  unfold addPipeline
  rw [heq]
  dsimp only
  split
  · have hre := rechosen_resetCurrent t₁
    exact ⟨hre.sound hsound.toIndexed hsound.toCounted, fun k => (hre.job k).trans (hjob k)⟩
  · exact ⟨hsound, hjob⟩

/-- The job goes into a free slot, and the other jobs stay. -/
theorem stopPipeline_eq (h : Sound t) (sh : Shell) (async : Bool) (thePipeline : List Process) :
    ∃ t₁ i t', t.makeRoom sh = some (t₁, i) ∧ i < t₁.jobslots ∧ t₁.job i = none ∧
      t.stopPipeline sh async thePipeline =
        some (t', if thePipeline = [] then t'.current else some i) ∧ Sound t' ∧
      ∀ k, t'.job k = if thePipeline ≠ [] ∧ i = k
        then some (newJob sh async thePipeline.reverse) else t₁.job k := by
  obtain ⟨t₁, i, hroom, hsound₁, hafter, hi⟩ := makeRoom_eq h sh
  obtain ⟨hsound, hjob⟩ := addPipeline_eq hsound₁ hafter hi sh async thePipeline
  refine ⟨t₁, i, _, hroom, hi, hafter.free, ?_, hsound, hjob⟩
  unfold stopPipeline
  rw [hroom]
  rfl

/-! ## Changes of state -/

/-- `set_job_status_and_cleanup` on a job that is not dead. -/
theorem sound_setJobStatusAndCleanup (h : Sound t) (hi : t.job i = some j)
    (hj : j.state ≠ .dead) : Sound (t.setJobStatusAndCleanup i).1 ∧
      ∀ k, ((t.setJobStatusAndCleanup i).1.job k).isSome = (t.job k).isSome := by
  have hsome : (t.job i).isSome := by rw [hi]; rfl
  unfold setJobStatusAndCleanup
  rw [hi]
  dsimp only
  split
  · exact ⟨h.setJob hi (Iff.rfl) fun hdead => absurd hdead hj, isSome_setJob hsome⟩
  · rename_i hrunning
    split
    · refine ⟨h.setJob hi ⟨nofun, fun hdead => absurd hdead hj⟩ nofun, isSome_setJob hsome⟩
    · rename_i hstopped
      split
      · exact ⟨h.setJob hi ⟨nofun, fun hdead => absurd hdead hj⟩ nofun, isSome_setJob hsome⟩
      · rename_i hnotRunning
        refine ⟨h.kill hi hj rfl ?_, isSome_setJob hsome⟩
        intro p hp
        have hr : p.isRunning = false := by
          by_contra hr
          exact hnotRunning (List.any_eq_true.mpr ⟨p, hp, by simpa using hr⟩)
        have hs : p.isStopped = false := by
          by_contra hs
          exact hstopped (List.any_eq_true.mpr ⟨p, hp, by simpa using hs⟩)
        rw [Process.isAlive, hr, hs]
        rfl

/-- A job with a process that is alive is not dead. -/
theorem state_of_findJob (h : Sound t) {pid : Int} (hfind : t.findJob pid = some i)
    (hi : t.job i = some j) : j.state ≠ .dead := by
  intro hdead
  have hany := List.find?_some hfind
  rw [hi] at hany
  have halive : ∃ p ∈ j.pipe, p.pid = pid ∧ p.isAlive = true := by simpa using hany
  obtain ⟨p, hp, -, hp'⟩ := halive
  rw [h.dead i j hi hdead p hp] at hp'
  cases hp'

theorem childChanges_eq (h : Sound t) (pid : Int) (status : Status) :
    Sound (t.childChanges pid status).1 ∧
      (∀ k, ((t.childChanges pid status).1.job k).isSome = (t.job k).isSome) ∧
      ∀ k, (t.childChanges pid status).2.2 = some k → (t.job k).isSome := by
  unfold childChanges
  cases hfind : t.findJob pid with
  | none => exact ⟨h, fun _ => rfl, nofun⟩
  | some i =>
    dsimp only
    cases hi : t.job i with
    | none => exact ⟨h, fun _ => rfl, nofun⟩
    | some j =>
      have hj := state_of_findJob h hfind hi
      have hsome : (t.job i).isSome := by rw [hi]; rfl
      have hset : Sound (t.setJob i (j.setStatus pid status)) :=
        h.setJob hi Iff.rfl fun hdead => absurd hdead hj
      have hself := job_setJob_self (j := j.setStatus pid status) (lt_jobslots hi)
      obtain ⟨hsound, hsame⟩ := sound_setJobStatusAndCleanup hset hself hj
      refine ⟨hsound, ?_, ?_⟩
      · intro k
        exact (hsame k).trans (isSome_setJob hsome k)
      · intro k hk
        cases hk
        exact hsome

theorem waitLoop_eq (h : Sound t) (children : List (Int × Status)) (call : Bool)
    (last : Option Nat) (hlast : ∀ k, last = some k → (t.job k).isSome) :
    Sound (t.waitLoop call last children).1 ∧
      ∀ k, (t.waitLoop call last children).2.2 = some k →
        ((t.waitLoop call last children).1.job k).isSome := by
  induction children generalizing t call last with
  | nil => exact ⟨h, hlast⟩
  | cons child children ih =>
    obtain ⟨pid, status⟩ := child
    obtain ⟨hsound, hsame, hfound⟩ := childChanges_eq h pid status
    unfold waitLoop
    dsimp only
    refine ih hsound _ _ ?_
    intro k hk
    rw [hsame]
    split at hk
    · exact hlast k hk
    · rename_i i hi
      split at hk
      · cases hk
        exact hfound _ hi
      · split at hk
        · cases hk
        · exact hlast k hk

theorem sound_waitchld (h : Sound t) (children : List (Int × Status)) :
    Sound (t.waitchld children) := by
  obtain ⟨hsound, hlast⟩ := waitLoop_eq h children false none nofun
  unfold waitchld
  dsimp only
  split
  · split
    · rename_i i hi
      exact (rechosen_setCurrentJob (hlast i hi)).sound hsound.toIndexed hsound.toCounted
    · exact (rechosen_resetCurrent _).sound hsound.toIndexed hsound.toCounted
  · exact hsound

theorem sound_startJob (h : Sound t) (i : Nat) (foreground comsub continued : Bool) :
    Sound (t.startJob i foreground comsub continued) := by
  unfold startJob
  cases hi : t.job i with
  | none => exact h
  | some j =>
    dsimp only
    split
    · exact h
    · rename_i hstart
      have hj : j.state ≠ .dead := by
        intro hdead
        exact hstart (by simp [hdead])
      have hsome : (t.job i).isSome := by rw [hi]; rfl
      have h₁ : Sound (t.setJob i { j with notified := false }) :=
        h.setJob hi Iff.rfl fun hdead => absurd hdead hj
      have hi₁ : (t.setJob i { j with notified := false }).job i =
          some { j with notified := false } := job_setJob_self (lt_jobslots hi)
      have h₂ : ∃ t₂, (if foreground then
          (t.setJob i { j with notified := false }).setCurrentJob i
          else t.setJob i { j with notified := false }) = t₂ ∧ Sound t₂ ∧
          t₂.job i = some { j with notified := false } := by
        refine ⟨_, rfl, ?_⟩
        split
        · have hre := rechosen_setCurrentJob (t := t.setJob i { j with notified := false })
            (i := i) (by rw [hi₁]; rfl)
          exact ⟨hre.sound h₁.toIndexed h₁.toCounted, (hre.job i).trans hi₁⟩
        · exact ⟨h₁, hi₁⟩
      obtain ⟨t₂, heq, hsound₂, hi₂⟩ := h₂
      rw [heq]
      have h₃ : Sound (t₂.setJob i (if continued
          then Job.setRunning { j with
            notified := j.state ≠ .running, foreground := foreground, async := !foreground }
          else { j with
            notified := j.state ≠ .running, foreground := foreground, async := !foreground })) := by
        refine hsound₂.setJob hi₂ ?_ ?_
        · split
          · exact ⟨nofun, fun hdead => absurd hdead hj⟩
          · exact Iff.rfl
        · split
          · exact nofun
          · exact fun hdead => absurd hdead hj
      split
      · exact h₃
      · exact (rechosen_resetCurrent _).sound h₃.toIndexed h₃.toCounted

/-! ## Runs -/

theorem sound_start : Sound start := by
  refine ⟨⟨rfl, ?_, fun h => absurd rfl h, fun _ => ⟨rfl, rfl⟩⟩, ⟨rfl, ?_⟩, ⟨rfl, nofun, nofun⟩⟩
  · intro i hi
    cases hi
  · intro i j hi
    cases hi

/-- The operations on the job table. -/
inductive Op where
  | stopPipeline (async : Bool) (thePipeline : List Process)
  | childChanges (pid : Int) (status : Status)
  | waitchld (children : List (Int × Status))
  | startJob (i : Nat) (foreground comsub continued : Bool)
  | deleteJob (i : Nat)
  | cleanupDeadJobs
  | compactJobsList
  | reallocJobsList
  | deleteAllJobs (runningOnly : Bool)

def Op.run (sh : Shell) (t : Table) : Op → Option Table
  | .stopPipeline async thePipeline => (t.stopPipeline sh async thePipeline).map (·.1)
  | .childChanges pid status => some (t.childChanges pid status).1
  | .waitchld children => some (t.waitchld children)
  | .startJob i foreground comsub continued => some (t.startJob i foreground comsub continued)
  | .deleteJob i => t.deleteJob i
  | .cleanupDeadJobs => t.cleanupDeadJobs
  | .compactJobsList => (t.compactJobsList sh).map (·.1)
  | .reallocJobsList => t.reallocJobsList
  | .deleteAllJobs runningOnly => t.deleteAllJobs runningOnly

/-- Every operation ends, and keeps the invariant. -/
theorem run_eq (h : Sound t) (sh : Shell) (op : Op) : ∃ t', op.run sh t = some t' ∧ Sound t' := by
  cases op with
  | stopPipeline async thePipeline =>
    obtain ⟨_, _, t', -, -, -, heq, hsound, -⟩ := stopPipeline_eq h sh async thePipeline
    exact ⟨t', by rw [Op.run, heq]; rfl, hsound⟩
  | childChanges pid status => exact ⟨_, rfl, (childChanges_eq h pid status).1⟩
  | waitchld children => exact ⟨_, rfl, sound_waitchld h children⟩
  | startJob i foreground comsub continued =>
    exact ⟨_, rfl, sound_startJob h i foreground comsub continued⟩
  | deleteJob i =>
    obtain ⟨t', heq, hsound, -⟩ := deleteJob_eq h i
    exact ⟨t', heq, hsound⟩
  | cleanupDeadJobs =>
    obtain ⟨t', heq, hsound, -⟩ := cleanupDeadJobs_eq h
    exact ⟨t', heq, hsound⟩
  | compactJobsList =>
    by_cases hslots : t.jobslots = 0
    · refine ⟨t, ?_, h⟩
      rw [Op.run, compactJobsList, if_pos hslots]
      rfl
    · obtain ⟨_, t', -, -, heq, hsound, -⟩ := compactJobsList_eq h sh hslots
      exact ⟨t', by rw [Op.run, heq]; rfl, hsound⟩
  | reallocJobsList =>
    obtain ⟨t', heq, hsound, -⟩ := reallocJobsList_eq h
    exact ⟨t', heq, hsound⟩
  | deleteAllJobs runningOnly => exact deleteAllJobs_eq h runningOnly

/-- The tables that the operations lead to; the rest of the shell may change between them. -/
inductive Reached : Table → Prop
  | start : Reached start
  | step {t t' : Table} (h : Reached t) (sh : Shell) (op : Op) (hrun : op.run sh t = some t') :
      Reached t'

theorem Reached.sound (h : Reached t) : Sound t := by
  induction h with
  | start => exact sound_start
  | step _ sh op hrun ih =>
    obtain ⟨t', heq, hsound⟩ := run_eq ih sh op
    rw [heq] at hrun
    cases hrun
    exact hsound

/-- What holds of the table at any time: its counters and indices say what is in the slots, every
operation ends, a new job goes into a free slot, and compaction keeps the jobs that are not reaped
together with what names them. -/
theorem reached_table (h : Reached t) (sh : Shell) :
    Sound t ∧ (∀ op : Op, ∃ t', op.run sh t = some t') ∧
      (∀ async thePipeline, thePipeline ≠ [] → ∃ t₁ i t',
        t.makeRoom sh = some (t₁, i) ∧ t₁.job i = none ∧
        t.stopPipeline sh async thePipeline = some (t', some i) ∧
        ∀ k, t'.job k = if i = k then some (newJob sh async thePipeline.reverse)
          else t₁.job k) ∧
      (∃ t', t.reallocJobsList = some t' ∧ Packed t t') ∧
      (t.jobslots ≠ 0 → ∃ t₁ t', t.reapDeadJobs sh = some t₁ ∧ Reaped t t₁ ∧
        t.compactJobsList sh = some (t', t₁.jobs.reduceOption.length) ∧ Packed t₁ t') := by
  have hsound := h.sound
  refine ⟨hsound, ?_, ?_, ?_, ?_⟩
  · intro op
    obtain ⟨t', heq, -⟩ := run_eq hsound sh op
    exact ⟨t', heq⟩
  · intro async thePipeline hne
    obtain ⟨t₁, i, t', hroom, -, hfree, heq, -, hjob⟩ :=
      stopPipeline_eq hsound sh async thePipeline
    rw [if_neg hne] at heq
    refine ⟨t₁, i, t', hroom, hfree, heq, ?_⟩
    intro k
    rw [hjob]
    simp only [hne, ne_eq, not_false_eq_true, true_and]
  · obtain ⟨t', heq, -, hpacked⟩ := reallocJobsList_eq hsound
    exact ⟨t', heq, hpacked⟩
  · intro hslots
    obtain ⟨t₁, t', hreap, hreaped, hcompact, -, hpacked⟩ := compactJobsList_eq hsound sh hslots
    exact ⟨t₁, t', hreap, hreaped, hcompact, hpacked⟩

/-- A shell that runs a script. -/
def script : Shell where
  interactive := false
  interactiveShell := false
  subshell := false
  jobControl := false
  pipefailOpt := false
  lastAsynchronousPid := 102
  childmax := 32

/-- A process that runs. -/
def runningProcess (pid : Int) : Process := ⟨pid, .exited 0, .running⟩

/-- `script` runs the operations from a table. -/
def runAll (t : Table) (ops : List Op) : Option Table := ops.foldlM (fun t op => op.run script t) t

theorem Reached.runAll (h : Reached t) {ops : List Op} (hrun : t.runAll ops = some t') :
    Reached t' := by
  induction ops generalizing t with
  | nil =>
    cases hrun
    exact h
  | cons op ops ih =>
    unfold Table.runAll at hrun
    rw [List.foldlM_cons] at hrun
    cases hop : op.run script t with
    | none => rw [hop] at hrun; cases hrun
    | some t₁ =>
      rw [hop] at hrun
      exact ih (h.step script op hop) hrun

/-- A foreground job that is dead, a job that was started again in the foreground, and one in the
background. -/
def threeJobs : Table where
  jobs := [some ⟨[⟨100, .exited 0, .done⟩], .dead, true, false, false, false, false⟩,
    some ⟨[runningProcess 101], .running, true, false, false, false, false⟩,
    some ⟨[runningProcess 102], .running, false, false, false, true, false⟩,
    none, none, none, none, none]
  firstj := 0
  lastj := 2
  njobs := 3
  ndead := 1
  current := some 1
  previous := some 0

theorem runAll_threeJobs : start.runAll [.stopPipeline false [runningProcess 100],
    .stopPipeline true [runningProcess 101], .stopPipeline true [runningProcess 102],
    .startJob 1 true false true, .waitchld [(100, .exited 0)]] = some threeJobs := by
  decide +kernel

theorem reached_table_threeJobs : Sound threeJobs ∧
    ∃ t', threeJobs.reallocJobsList = some t' ∧ Packed threeJobs t' :=
  ⟨(reached_table (Reached.start.runAll runAll_threeJobs) script).1,
    (reached_table (Reached.start.runAll runAll_threeJobs) script).2.2.2.1⟩

/-- The job of process 101 is the current one, and stays; but `compact_jobs_list` deletes the
previous job, and then the job of 102 is the current one. Without a new job `stop_pipeline` returns
a slot that is in use. -/
theorem compaction_changes_current :
    Reached threeJobs ∧ threeJobs.current = some 1 ∧
      (threeJobs.job 1).map (·.pipe) = some [runningProcess 101] ∧
      (threeJobs.compactJobsList script).map
        (fun r => (r.1.current, (r.1.job 0).map (·.pipe), (r.1.job 1).map (·.pipe))) =
        some (some 1, some [runningProcess 101], some [runningProcess 102]) ∧
      (threeJobs.stopPipeline script false []).map (·.2) = some (some 2) ∧
      (threeJobs.job 2).isSome := by
  refine ⟨Reached.start.runAll runAll_threeJobs, ?_⟩
  decide +kernel

end Basht.JobTable.Table
