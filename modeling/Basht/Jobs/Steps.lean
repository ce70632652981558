import Basht.Jobs.Linkage

/-!
# One operation on the table

What `bgp_resize`, `bgp_getindex`, `bgp_add`, `bgp_delete` and `bgp_search` do to a table that
is `Intact`: its chains hold its live cells, and no two live cells have the same pid.
-/

namespace Basht.Jobs

/-- The arena is within bounds, and chained by pids of their own if there is one. -/
structure Intact (s : Bgp) : Prop where
  nalloc : 0 ≤ s.nalloc ∧ s.nalloc ≤ maxChildMax
  head : 0 ≤ s.head ∧ s.head ≤ s.nalloc
  chained : s.nalloc ≠ 0 → ∃ chains, Chained s chains
  distinct : ∀ p ∈ s.live, ∀ q ∈ s.live, s.pid p = s.pid q → p = q

/-- `t` is `s` with an arena that has room at its head, grown or wrapped around. -/
structure Resized (s t : Bgp) : Prop where
  nalloc : s.nalloc ≤ t.nalloc ∧ t.nalloc ≤ maxChildMax
  head : 0 ≤ t.head ∧ t.head < t.nalloc
  place : t.head = s.head ∨ t.head = 0 ∧ s.nalloc ≤ s.head
  npid : t.npid = s.npid
  old : ∀ q < s.nalloc, t.storage q = s.storage q
  new : ∀ q, s.nalloc ≤ q → q < t.nalloc → t.pid q = noPid
  table : if s.nalloc = 0 then ∀ b, t.pidstatTable b = noPidstat
    else t.pidstatTable = s.pidstatTable

theorem int32_of_bounds {i : Int} (hlo : -2147483648 ≤ i) (hhi : i < 2147483648) : int32 i = i := by
  rw [int32, Int.bmod_eq_of_le] <;> omega

/-- Doubling ends above where it starts, or with an overflow. -/
theorem double_spec {cur : Int} (hcur : cur < 2147483648) (turns : Nat) {n : Int} (hn : 0 < n) :
    (n ≤ Bgp.double cur turns n ∧ (0 < turns → n < cur → n < Bgp.double cur turns n)) ∨
      Bgp.double cur turns n ≤ 0 := by
  induction turns generalizing n with
  | zero => exact Or.inl ⟨Int.le_refl _, fun h => absurd h (Nat.lt_irrefl 0)⟩
  | succ turns ih =>
    rw [Bgp.double]
    split
    · rename_i hlt
      rcases Int.lt_or_le (2 * n) 2147483648 with hfit | hover
      · rw [int32_of_bounds (by omega) hfit]
        rcases ih (n := 2 * n) (by omega) with ⟨hle, -⟩ | hneg
        · exact Or.inl ⟨by omega, fun _ _ => by omega⟩
        · exact Or.inr hneg
      · have hneg : int32 (2 * n) ≤ 0 := by
          rw [int32, Int.bmod_def]
          split <;> omega
        right
        cases turns with
        | zero => exact hneg
        | succ turns =>
          rw [Bgp.double, if_neg]
          · exact hneg
          · omega
    · rename_i hge
      exact Or.inl ⟨Int.le_refl _, fun _ h => absurd ⟨hn, h⟩ hge⟩

theorem fitSize_spec {cur n : Int} (hcur : cur < 2147483648) (hn : 0 < n ∧ n ≤ maxChildMax) :
    n ≤ (Bgp.fitSize cur n).1 ∧ (Bgp.fitSize cur n).1 ≤ maxChildMax ∧
      maxChildMax ≤ (Bgp.fitSize cur n).2 ∧
      (n < cur → n < (Bgp.fitSize cur n).2 → n < (Bgp.fitSize cur n).1) := by
  have hdouble := double_spec hcur 32 hn.1
  have hbounds : psIndexMax = 2147483647 ∧ maxChildMax = 32768 := by decide
  unfold Bgp.fitSize
  simp only
  generalize Bgp.double cur 32 n = r at hdouble
  have hr : n ≤ (if r > psIndexMax ∨ r ≤ 0 then psIndexMax else r) ∧ (n < cur →
      n < (if r > psIndexMax ∨ r ≤ 0 then psIndexMax else r)) := by
    split <;> omega
  generalize (if r > psIndexMax ∨ r ≤ 0 then psIndexMax else r) = nsize at hr ⊢
  split <;> simp only <;> omega

theorem Intact.bgpResize {s : Bgp} (h : Intact s) {childmax : Int}
    (hc : 0 < childmax ∧ childmax < 2147483648) : Resized s (s.bgpResize childmax) := by
  have hc' : int32 childmax = childmax := int32_of_bounds (by omega) hc.2
  obtain ⟨hnalloc, hmax⟩ := h.nalloc
  obtain ⟨hhead, hle⟩ := h.head
  have hbig : 0 < bgpidsTableSz ∧ bgpidsTableSz ≤ maxChildMax := by decide
  unfold Bgp.bgpResize
  simp only [hc', if_neg (Int.not_lt.mpr (Int.le_of_lt hc.1))]
  by_cases hzero : s.nalloc = 0
  · obtain ⟨hsize, hsizemax, hlimit, -⟩ := fitSize_spec hc.2 hbig
    simp only [hzero, if_true]
    generalize Bgp.fitSize childmax bgpidsTableSz = size at hsize hsizemax hlimit ⊢
    rw [if_pos ⟨hc.1, by omega⟩]
    refine ⟨⟨?_, hsizemax⟩, ⟨Int.le_refl _, Int.lt_of_lt_of_le hbig.1 hsize⟩, Or.inl ?_, rfl,
      fun q hq => if_neg ?_, fun q hq hq' => congrArg Pidstat.pid (if_pos ⟨?_, hq'⟩), ?_⟩
    · rw [hzero]
      exact Int.le_trans (Int.le_of_lt hbig.1) hsize
    · simp only
      omega
    · omega
    · rw [if_pos hzero]
      exact fun b => rfl
    · omega
  · obtain ⟨hsize, hsizemax, hlimit, hgrow⟩ := fitSize_spec (n := s.nalloc) hc.2 ⟨by omega, hmax⟩
    simp only [if_neg hzero]
    generalize Bgp.fitSize childmax s.nalloc = size at hsize hsizemax hlimit hgrow ⊢
    split
    · rename_i hlt
      refine ⟨⟨hsize, hsizemax⟩, ⟨hhead, Int.lt_of_le_of_lt hle (hgrow hlt.1 hlt.2)⟩, Or.inl rfl,
        rfl, fun q hq => if_neg ?_, fun q hq hq' => congrArg Pidstat.pid (if_pos ⟨hq, hq'⟩), ?_⟩
      · omega
      · rw [if_neg hzero]
    · split
      · rename_i hwrap
        refine ⟨⟨Int.le_refl _, hmax⟩, ⟨Int.le_refl _, ?_⟩, Or.inr ⟨rfl, hwrap⟩, rfl,
          fun q hq => rfl, fun q hq hq' => absurd hq (Int.not_le.mpr hq'), by rw [if_neg hzero]⟩
        simp only
        omega
      · rename_i hroom
        exact ⟨⟨Int.le_refl _, hmax⟩, ⟨hhead, Int.not_le.mp hroom⟩, Or.inl rfl, rfl,
          fun q hq => rfl, fun q hq hq' => absurd hq (Int.not_le.mpr hq'), by rw [if_neg hzero]⟩

namespace Resized

variable {s t : Bgp}

theorem live_eq (h : Resized s t) : t.live = s.live := by
  ext q
  rw [Bgp.mem_live, Bgp.mem_live]
  rcases Int.lt_or_le q s.nalloc with hq | hq
  · have hsame : t.pid q = s.pid q := congrArg Pidstat.pid (h.old q hq)
    have hlt := Int.lt_of_lt_of_le hq h.nalloc.1
    simp only [hsame, hq, hlt]
  · constructor
    · rintro ⟨hbounds, hpid⟩
      exact absurd (h.new q hq hbounds.2) hpid
    · rintro ⟨hbounds, -⟩
      exact absurd hbounds.2 (Int.not_lt.mpr hq)

theorem pid_eq (h : Resized s t) {q : Int} (hq : q ∈ s.live) : t.pid q = s.pid q :=
  congrArg Pidstat.pid (h.old q (Bgp.mem_live.mp hq).1.2)

theorem chained (h : Resized s t) (hs : s.nalloc ≠ 0 → ∃ chains, Chained s chains) :
    (0 ≤ s.nalloc) → ∃ chains, Chained t chains := by
  intro hnalloc
  by_cases hzero : s.nalloc = 0
  · have hempty : s.live = ∅ := by
      rw [Bgp.live, hzero]
      rfl
    have htable := h.table
    rw [if_pos hzero] at htable
    refine ⟨fun _ => [], fun b => ?_, fun b psi => ?_⟩
    · rw [htable b]
      exact Threaded.nil
    · rw [h.live_eq, hempty]
      simp
  · obtain ⟨chains, hchained⟩ := hs hzero
    have htable := h.table
    rw [if_neg hzero] at htable
    refine ⟨chains, fun b => ?_, fun b psi => ?_⟩
    · rw [htable]
      refine (hchained.threaded b).congr fun p hp => ?_
      have hlive := ((hchained.mem_iff b p).mp hp).1
      have hcell := h.old p (Bgp.mem_live.mp hlive).1.2
      exact ⟨congrArg Pidstat.bucketNext hcell, congrArg Pidstat.bucketPrev hcell⟩
    · rw [hchained.mem_iff, h.live_eq]
      exact and_congr_right fun hlive => by rw [h.pid_eq hlive]

end Resized

/-! ## Adding -/

variable {s : Bgp}

theorem Intact.bgpGetindex (h : Intact s) {childmax : Int}
    (hc : 0 < childmax ∧ childmax < 2147483648) : ∃ u, Resized s u ∧
      s.bgpGetindex childmax = ({ u.pshashDelindex u.head with head := u.head + 1 }, u.head) := by
  have hc' : int32 childmax = childmax := int32_of_bounds (by omega) hc.2
  unfold Bgp.bgpGetindex
  simp only [hc', ge_iff_le]
  split
  · exact ⟨_, h.bgpResize hc, by rw [(Bgp.pshashDelindex_fields _ _).1]⟩
  · rename_i hroom
    rw [not_or] at hroom
    refine ⟨s, ⟨⟨Int.le_refl _, h.nalloc.2⟩, ⟨h.head.1, by omega⟩, Or.inl rfl, rfl, fun q hq => rfl,
      fun q hq hq' => absurd hq (Int.not_le.mpr hq'), ?_⟩, ?_⟩
    · rw [if_neg]
      omega
    · rw [(Bgp.pshashDelindex_fields _ _).1]

/-- The table `s` after `bgp_add`: the cell before the head holds the new status. -/
structure Added (s t : Bgp) (pid status : Int) : Prop where
  intact : Intact t
  cell : 0 < t.head
  nalloc : s.nalloc ≤ t.nalloc
  place : t.head = s.head + 1 ∨ t.head = 1 ∧ s.nalloc ≤ s.head
  npid : t.npid = int32 (s.npid + 1)
  live : t.live = insert (t.head - 1) (s.live.erase (t.head - 1))
  self : t.pid (t.head - 1) = pid ∧ t.status (t.head - 1) = bits16 status
  old : ∀ q ∈ s.live, q ≠ t.head - 1 → t.pid q = s.pid q ∧ t.status q = s.status q

/-- The cell at the head is free once it has been taken out of its chain, and the first cell
of no chain, so that none is skipped. -/
theorem Intact.bgpAdd_eq (h : Intact s) {childmax : Int}
    (hc : 0 < childmax ∧ childmax < 2147483648) (pid status : Int) : ∃ u, Resized s u ∧
      s.bgpAdd childmax pid status =
        ({ u.pshashDelindex u.head with head := u.head + 1 } : Bgp).fillCell pid status u.head := by
  obtain ⟨u, hu, hindex⟩ := h.bgpGetindex hc
  obtain ⟨chains, hchained⟩ := hu.chained h.chained h.nalloc.1
  have hout := hchained.pshashDelindex hu.head
  refine ⟨u, hu, ?_⟩
  unfold Bgp.bgpAdd
  simp only [hindex]
  rw [if_neg]
  intro hpsi
  have hfirst := List.mem_of_head? (hout.threaded (pshashGetbucket pid)).head?_eq
  have hpsi' : u.head = (u.pshashDelindex u.head).pidstatTable (pshashGetbucket pid) := hpsi
  rw [← hpsi'] at hfirst
  rcases List.mem_append.mp hfirst with hmem | hmem
  · have hpid := (Bgp.mem_live.mp ((hout.mem_iff _ _).mp hmem).1).2
    rw [u.pshashDelindex_pid, if_pos rfl] at hpid
    exact hpid rfl
  · have hhead := hu.head.1
    rw [List.mem_singleton.mp hmem] at hhead
    exact absurd hhead (by decide)

theorem Intact.bgpAdd (h : Intact s) {childmax pid : Int}
    (hc : 0 < childmax ∧ childmax < 2147483648) (hpid : pid ≠ noPid)
    (hfresh : ∀ p ∈ s.live, s.pid p ≠ pid) (status : Int) :
    Added s (s.bgpAdd childmax pid status) pid status := by
  obtain ⟨u, hu, heq⟩ := h.bgpAdd_eq hc pid status
  obtain ⟨chains, hchained⟩ := hu.chained h.chained h.nalloc.1
  have hout := hchained.pshashDelindex hu.head
  obtain ⟨-, hnalloc, hnpid⟩ := u.pshashDelindex_fields u.head
  have hout' : Chained { u.pshashDelindex u.head with head := u.head + 1 }
      fun b => (chains b).erase u.head := ⟨hout.threaded, hout.mem_iff⟩
  have hroom : 0 ≤ u.head ∧
      u.head < ({ u.pshashDelindex u.head with head := u.head + 1 } : Bgp).nalloc := by
    rw [hnalloc]
    exact hu.head
  have hfree : ({ u.pshashDelindex u.head with head := u.head + 1 } : Bgp).pid u.head = noPid :=
    (u.pshashDelindex_pid u.head u.head).trans (if_pos rfl)
  have hfilled := hout'.fillCell hroom hfree hpid status
  have hlive := fun q => Bgp.mem_live_fillCell
    { u.pshashDelindex u.head with head := u.head + 1 } status hroom hpid (q := q)
  have hpids := Bgp.fillCell_pid { u.pshashDelindex u.head with head := u.head + 1 } pid status
    u.head
  have hstatus := Bgp.fillCell_status { u.pshashDelindex u.head with head := u.head + 1 } pid
    status u.head
  obtain ⟨htop, hsize, hcount⟩ :=
    Bgp.fillCell_fields { u.pshashDelindex u.head with head := u.head + 1 } pid status u.head
  rw [← heq] at hfilled hlive hpids hstatus htop hsize hcount
  generalize s.bgpAdd childmax pid status = t at *
  simp only [hnalloc, hnpid, hu.npid] at htop hsize hcount
  have hcell : t.head - 1 = u.head := by omega
  have hmem : ∀ q, q ∈ t.live ↔ q = u.head ∨ q ≠ u.head ∧ q ∈ s.live := by
    intro q
    have hout : q ∈ (u.pshashDelindex u.head).live ↔ q ≠ u.head ∧ q ∈ u.live := by
      rw [Bgp.mem_live, Bgp.mem_live, hnalloc, u.pshashDelindex_pid]
      by_cases hq : q = u.head
      · simp [hq]
      · simp [hq]
    rw [hlive, ← hu.live_eq, ← hout]
    rfl
  have hold : ∀ q ∈ s.live, q ≠ u.head → t.pid q = s.pid q ∧ t.status q = s.status q := by
    intro q hq hne
    rw [hpids, if_neg hne, hstatus, if_neg hne]
    refine ⟨?_, ?_⟩
    · exact ((u.pshashDelindex_pid u.head q).trans (if_neg hne)).trans (hu.pid_eq hq)
    · refine (u.pshashDelindex_status u.head q).trans ?_
      exact congrArg Pidstat.status (hu.old q (Bgp.mem_live.mp hq).1.2)
  have hself : t.pid u.head = pid := by rw [hpids, if_pos rfl]
  obtain ⟨hgrown, hmax⟩ := hu.nalloc
  obtain ⟨hbelow, habove⟩ := hu.head
  refine ⟨⟨?_, ?_, fun _ => ⟨_, hfilled⟩, ?_⟩, ?_, ?_, ?_, hcount, ?_, ?_, ?_⟩
  · omega
  · omega
  · intro p hp q hq hpq
    rcases (hmem p).mp hp with rfl | ⟨hpne, hp⟩ <;> rcases (hmem q).mp hq with rfl | ⟨hqne, hq⟩
    · rfl
    · rw [hself, (hold q hq hqne).1] at hpq
      exact absurd hpq.symm (hfresh q hq)
    · rw [hself, (hold p hp hpne).1] at hpq
      exact absurd hpq (hfresh p hp)
    · rw [(hold p hp hpne).1, (hold q hq hqne).1] at hpq
      exact h.distinct p hp q hq hpq
  · omega
  · omega
  · rcases hu.place with hplace | ⟨hplace, hwrap⟩
    · left
      omega
    · right
      omega
  · ext q
    rw [hmem, Finset.mem_insert, Finset.mem_erase, hcell]
  · rw [hcell, hself, hstatus, if_pos rfl]
    exact ⟨rfl, rfl⟩
  · rw [hcell]
    exact hold

/-! ## Searching and deleting -/

theorem Chained.length_le {chains : Nat → List Int} (h : Chained s chains) (b : Nat) :
    (chains b).length ≤ s.nalloc.toNat := by
  rw [← List.toFinset_card_of_nodup (h.threaded b).nodup]
  have hsub : (chains b).toFinset ⊆ s.live := by
    intro q hq
    exact ((h.mem_iff b q).mp (List.mem_toFinset.mp hq)).1
  have hlive : s.live.card ≤ (Finset.range s.nalloc.toNat).card :=
    (Finset.card_filter_le _ _).trans Finset.card_image_le
  rw [Finset.card_range] at hlive
  exact (Finset.card_le_card hsub).trans hlive

/-- The loops find the live cell with the pid, if there is one. -/
theorem Intact.searchChain (h : Intact s) (halloc : s.nalloc ≠ 0) (pid : Int) {fuel : Nat}
    (hfuel : 32768 < fuel) :
    (∃ psi ∈ s.live, s.pid psi = pid ∧ s.searchChain fuel pid = some psi) ∨
      (∀ psi ∈ s.live, s.pid psi ≠ pid) ∧ s.searchChain fuel pid = some noPidstat := by
  obtain ⟨chains, hchained⟩ := h.chained halloc
  have hthread := hchained.threaded (pshashGetbucket pid)
  have hlen : (chains (pshashGetbucket pid)).length < fuel := by
    have hle := hchained.length_le (pshashGetbucket pid)
    have hmax := h.nalloc.2
    have hconst : maxChildMax = 32768 := rfl
    omega
  have hpass : ∀ u ∈ chains (pshashGetbucket pid), s.pid u ≠ pid →
      s.searchBody pid (s.pidstatTable (pshashGetbucket pid)) u = none := by
    intro u hu hpid
    rw [Bgp.searchBody, if_neg (ne_of_mem_of_not_mem hu hthread.null_notMem), if_neg hpid,
      if_neg (hthread.next_ne_first hu).symm]
  by_cases hex : ∃ psi ∈ s.live, s.pid psi = pid
  · obtain ⟨psi, hlive, rfl⟩ := hex
    left
    refine ⟨psi, hlive, rfl, ?_⟩
    obtain ⟨xs, ys, hsplit⟩ := List.append_of_mem (hchained.mem_self hlive)
    have hring : chains (pshashGetbucket (s.pid psi)) ++ [noPidstat] =
        xs ++ psi :: (ys ++ [noPidstat]) := by
      rw [hsplit]
      simp
    refine hthread.walk hring (fun u hu => ?_) ?_ ?_
    · have hmem : u ∈ chains (pshashGetbucket (s.pid psi)) := by
        rw [hsplit]
        exact List.mem_append_left _ hu
      refine hpass u hmem fun heq => ?_
      have hsame := h.distinct u ((hchained.mem_iff _ u).mp hmem).1 psi hlive heq
      have hnodup := hthread.nodup
      rw [hsplit] at hnodup
      exact List.disjoint_of_nodup_append hnodup hu (by simp [hsame])
    · have hnull : psi ≠ noPidstat :=
        ne_of_mem_of_not_mem (hchained.mem_self hlive) hthread.null_notMem
      rw [Bgp.searchBody, if_neg hnull, if_pos rfl]
    · rw [hsplit, List.length_append] at hlen
      omega
  · right
    have habsent : ∀ psi ∈ s.live, s.pid psi ≠ pid := fun psi hlive hpid =>
      hex ⟨psi, hlive, hpid⟩
    have hring : chains (pshashGetbucket pid) ++ [noPidstat] =
        chains (pshashGetbucket pid) ++ noPidstat :: [] := rfl
    refine ⟨habsent, hthread.walk hring
      (fun u hu => hpass u hu (habsent u ((hchained.mem_iff _ u).mp hu).1)) ?_ hlen⟩
    rw [Bgp.searchBody, if_pos rfl]

/-- There are not more live cells than `npid` counts. -/
def Counted (s : Bgp) : Prop := (s.live.card : Int) ≤ s.npid ∧ s.npid ≤ 2147483647

theorem live_eq_empty (hcount : Counted s) (hnone : s.nalloc = 0 ∨ s.npid = 0) :
    s.live = ∅ := by
  rcases hnone with hnone | hnone
  · rw [Bgp.live, hnone]
    rfl
  · rw [← Finset.card_eq_zero]
    have hle := hcount.1
    omega

theorem Intact.bgpSearch (h : Intact s) (hcount : Counted s) (pid : Int) {fuel : Nat}
    (hfuel : 32768 < fuel) :
    (∃ psi ∈ s.live, s.pid psi = pid ∧ s.bgpSearch fuel pid = some (s.status psi)) ∨
      (∀ psi ∈ s.live, s.pid psi ≠ pid) ∧ s.bgpSearch fuel pid = some (-1) := by
  unfold Bgp.bgpSearch
  split
  · rename_i hnone
    right
    rw [live_eq_empty hcount hnone]
    exact ⟨by simp, rfl⟩
  · rename_i hsome
    rw [not_or] at hsome
    rcases h.searchChain hsome.1 pid hfuel with ⟨psi, hlive, hpid, hfound⟩ | ⟨habsent, hfound⟩
    · left
      refine ⟨psi, hlive, hpid, ?_⟩
      have hnull : psi ≠ noPidstat := by
        rintro rfl
        exact absurd (Bgp.mem_live.mp hlive).1.1 (by decide)
      simp only [hfound, if_neg hnull]
    · right
      refine ⟨habsent, ?_⟩
      simp only [hfound, if_true]

/-- The table `s` after `bgp_delete`. -/
structure Deleted (s t : Bgp) (pid : Int) : Prop where
  intact : Intact t
  counted : Counted t
  head : t.head = s.head
  nalloc : t.nalloc = s.nalloc
  live : t.live = s.live.filter fun psi => s.pid psi ≠ pid
  old : ∀ q ∈ t.live, t.pid q = s.pid q ∧ t.status q = s.status q

theorem Intact.bgpDelete (h : Intact s) (hcount : Counted s) (pid : Int) {fuel : Nat}
    (hfuel : 32768 < fuel) : ∃ t, s.bgpDelete fuel pid = some t ∧ Deleted s t pid := by
  have hsame : (∀ psi ∈ s.live, s.pid psi ≠ pid) → Deleted s s pid := fun habsent =>
    ⟨h, hcount, rfl, rfl, (Finset.filter_true_of_mem habsent).symm, fun q _ => ⟨rfl, rfl⟩⟩
  unfold Bgp.bgpDelete
  split
  · rename_i hnone
    refine ⟨s, rfl, hsame ?_⟩
    rw [live_eq_empty hcount hnone]
    simp
  · rename_i hsome
    rw [not_or] at hsome
    rcases h.searchChain hsome.1 pid hfuel with ⟨psi, hlive, rfl, hfound⟩ | ⟨habsent, hfound⟩
    · have hnull : psi ≠ noPidstat := by
        rintro rfl
        exact absurd (Bgp.mem_live.mp hlive).1.1 (by decide)
      simp only [hfound, if_neg hnull]
      refine ⟨_, rfl, ?_⟩
      obtain ⟨chains, hchained⟩ := h.chained hsome.1
      have hout := hchained.pshashDelindex (Bgp.mem_live.mp hlive).1
      obtain ⟨hhead, hnalloc, hnpid⟩ := s.pshashDelindex_fields psi
      have hpids := s.pshashDelindex_pid psi
      have hstatus := s.pshashDelindex_status psi
      have hlives : (s.pshashDelindex psi).live = s.live.erase psi := by
        ext q
        rw [Bgp.mem_live, Finset.mem_erase, Bgp.mem_live, hnalloc, hpids]
        by_cases hq : q = psi
        · simp [hq]
        · simp [hq]
      have hcard : (s.live.erase psi).card = s.live.card - 1 := Finset.card_erase_of_mem hlive
      have hpos : 0 < s.live.card := Finset.card_pos.mpr ⟨psi, hlive⟩
      obtain ⟨hle, hmax⟩ := hcount
      have hnpid' : int32 ((s.pshashDelindex psi).npid - 1) = s.npid - 1 := by
        rw [hnpid]
        exact int32_of_bounds (by omega) (by omega)
      have hold : ∀ q ∈ s.live.erase psi, (s.pshashDelindex psi).pid q = s.pid q := fun q hq => by
        rw [hpids, if_neg (Finset.ne_of_mem_erase hq)]
      have hlives' : Bgp.live { s.pshashDelindex psi with
          npid := int32 ((s.pshashDelindex psi).npid - 1) } = s.live.erase psi := hlives
      refine ⟨⟨?_, ?_, fun _ => ⟨_, hout.threaded, hout.mem_iff⟩, fun p hp q hq hpq => ?_⟩, ?_, hhead,
        hnalloc, ?_, fun q hq => ?_⟩
      · simp only [hnalloc]
        exact h.nalloc
      · simp only [hhead, hnalloc]
        exact h.head
      · rw [hlives'] at hp hq
        refine h.distinct p (Finset.mem_of_mem_erase hp) q (Finset.mem_of_mem_erase hq) ?_
        exact (hold p hp).symm.trans (hpq.trans (hold q hq))
      · rw [Counted, hlives', hcard]
        simp only [hnpid']
        omega
      · refine hlives.trans ?_
        ext q
        rw [Finset.mem_erase, Finset.mem_filter, and_comm]
        refine and_congr_right fun hq => not_congr ⟨fun heq => by rw [heq], fun heq => ?_⟩
        exact h.distinct q hq psi hlive heq
      · rw [hlives'] at hq
        exact ⟨hold q hq, hstatus q⟩
    · simp only [hfound, if_true]
      exact ⟨s, rfl, hsame habsent⟩

end Basht.Jobs
