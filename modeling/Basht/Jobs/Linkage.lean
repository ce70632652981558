import Basht.Jobs.SavedStatus
import Mathlib.Data.Finset.Card

/-!
# The chains of the table

Every chain holds exactly the live cells of its bucket (`Chained`). Taking a cell out of its
chain and putting one in keep this, and so do the growth and the wrapping around of the arena.
-/

namespace Basht.Jobs

namespace Bgp

/-- The cells that hold a status. -/
def live (s : Bgp) : Finset Int :=
  ((Finset.range s.nalloc.toNat).image Int.ofNat).filter fun psi => s.pid psi ≠ noPid

theorem mem_live {s : Bgp} {psi : Int} :
    psi ∈ s.live ↔ (0 ≤ psi ∧ psi < s.nalloc) ∧ s.pid psi ≠ noPid := by
  rw [live, Finset.mem_filter, Finset.mem_image]
  refine and_congr_left' ⟨?_, fun h => ⟨psi.toNat, ?_, Int.toNat_of_nonneg h.1⟩⟩
  · rintro ⟨n, hn, rfl⟩
    have hn' := Finset.mem_range.mp hn
    exact ⟨Int.natCast_nonneg n, by change (n : Int) < s.nalloc; omega⟩
  · rw [Finset.mem_range]
    omega

/-! ## What the stores change -/

section Stores

variable (s : Bgp) (psi q v : Int) (ps : Pidstat) (b : Nat)

@[simp] theorem storage_status : (s.storage psi).status = s.status psi := rfl

@[simp] theorem setCell_next :
    (s.setCell psi ps).next q = if q = psi then ps.bucketNext else s.next q := by
  simp only [next, setCell, Function.update_apply]
  split <;> rfl

@[simp] theorem setCell_prev :
    (s.setCell psi ps).prev q = if q = psi then ps.bucketPrev else s.prev q := by
  simp only [prev, setCell, Function.update_apply]
  split <;> rfl

@[simp] theorem setCell_pid :
    (s.setCell psi ps).pid q = if q = psi then ps.pid else s.pid q := by
  simp only [pid, setCell, Function.update_apply]
  split <;> rfl

@[simp] theorem setCell_status :
    (s.setCell psi ps).status q = if q = psi then ps.status else s.status q := by
  simp only [status, setCell, Function.update_apply]
  split <;> rfl

@[simp] theorem setNext_next : (s.setNext psi v).next q = if q = psi then v else s.next q :=
  s.setCell_next psi q _

@[simp] theorem setNext_prev : (s.setNext psi v).prev q = s.prev q :=
  (s.setCell_prev psi q _).trans (ite_eq_right_iff.mpr fun h => h ▸ rfl)

@[simp] theorem setNext_pid : (s.setNext psi v).pid q = s.pid q :=
  (s.setCell_pid psi q _).trans (ite_eq_right_iff.mpr fun h => h ▸ rfl)

@[simp] theorem setNext_status : (s.setNext psi v).status q = s.status q :=
  (s.setCell_status psi q _).trans (ite_eq_right_iff.mpr fun h => h ▸ rfl)

@[simp] theorem setPrev_next : (s.setPrev psi v).next q = s.next q :=
  (s.setCell_next psi q _).trans (ite_eq_right_iff.mpr fun h => h ▸ rfl)

@[simp] theorem setPrev_prev : (s.setPrev psi v).prev q = if q = psi then v else s.prev q :=
  s.setCell_prev psi q _

@[simp] theorem setPrev_pid : (s.setPrev psi v).pid q = s.pid q :=
  (s.setCell_pid psi q _).trans (ite_eq_right_iff.mpr fun h => h ▸ rfl)

@[simp] theorem setPrev_status : (s.setPrev psi v).status q = s.status q :=
  (s.setCell_status psi q _).trans (ite_eq_right_iff.mpr fun h => h ▸ rfl)

@[simp] theorem setBucket_next : (s.setBucket b v).next q = s.next q := rfl

@[simp] theorem setBucket_prev : (s.setBucket b v).prev q = s.prev q := rfl

@[simp] theorem setBucket_pid : (s.setBucket b v).pid q = s.pid q := rfl

@[simp] theorem setBucket_status : (s.setBucket b v).status q = s.status q := rfl

end Stores

/-! ## A cell leaves its chain -/

section Delindex

variable (s : Bgp) (psi : Int)

theorem relinkNext_next (q : Int) : (s.relinkNext psi).next q = s.next q := by
  unfold relinkNext
  split
  · exact s.setPrev_next ..
  · rfl

theorem relinkNext_pid (q : Int) : (s.relinkNext psi).pid q = s.pid q := by
  unfold relinkNext
  split
  · exact s.setPrev_pid ..
  · rfl

theorem relinkNext_prev_self : (s.relinkNext psi).prev psi = s.prev psi := by
  unfold relinkNext
  split
  · rw [setPrev_prev, ite_self]
  · rfl

theorem relinkNext_prev {q : Int} (hnull : q ≠ noPidstat) :
    (s.relinkNext psi).prev q = if q = s.next psi then s.prev psi else s.prev q := by
  unfold relinkNext
  split
  · exact s.setPrev_prev ..
  · rename_i hnext
    rw [if_neg]
    rw [not_not.mp hnext]
    exact hnull

theorem relinkNext_table : (s.relinkNext psi).pidstatTable = s.pidstatTable := by
  unfold relinkNext
  split <;> rfl

theorem relinkPrev_prev (q : Int) : (s.relinkPrev psi).prev q = s.prev q := by
  unfold relinkPrev
  split
  · exact s.setNext_prev ..
  · rfl

theorem relinkPrev_pid (q : Int) : (s.relinkPrev psi).pid q = s.pid q := by
  unfold relinkPrev
  split
  · exact s.setNext_pid ..
  · rfl

theorem relinkPrev_next {q : Int} (hnull : q ≠ noPidstat) :
    (s.relinkPrev psi).next q = if q = s.prev psi then s.next psi else s.next q := by
  unfold relinkPrev
  split
  · exact s.setNext_next ..
  · rename_i hprev
    rw [if_neg]
    · rfl
    · rw [not_not.mp hprev]
      exact hnull

theorem relinkPrev_table (b : Nat) : (s.relinkPrev psi).pidstatTable b =
    if s.prev psi = noPidstat ∧ b = pshashGetbucket (s.pid psi) then s.next psi
    else s.pidstatTable b := by
  unfold relinkPrev
  split
  · rename_i hprev
    rw [if_neg fun h => hprev h.1]
    rfl
  · rename_i hprev
    simp only [setBucket, Function.update_apply]
    exact if_congr (and_iff_right (not_not.mp hprev)).symm rfl rfl

theorem relink_status (q : Int) :
    ((s.relinkNext psi).relinkPrev psi).status q = s.status q := by
  have hnext : (s.relinkNext psi).status q = s.status q := by
    unfold relinkNext
    split
    · exact s.setPrev_status ..
    · rfl
  rw [← hnext, relinkPrev]
  split
  · exact setNext_status ..
  · rfl

theorem pshashDelindex_fields : (s.pshashDelindex psi).head = s.head ∧
    (s.pshashDelindex psi).nalloc = s.nalloc ∧ (s.pshashDelindex psi).npid = s.npid := by
  unfold pshashDelindex relinkPrev relinkNext
  split
  · exact ⟨rfl, rfl, rfl⟩
  · simp only
    split_ifs <;> exact ⟨rfl, rfl, rfl⟩

theorem pshashDelindex_pid (q : Int) :
    (s.pshashDelindex psi).pid q = if q = psi then noPid else s.pid q := by
  unfold pshashDelindex
  split
  · rename_i hpid
    split
    · rename_i hq
      rw [hq, hpid]
    · rfl
  · simp only [setCell_pid, relinkPrev_pid, relinkNext_pid]

theorem pshashDelindex_status (q : Int) : (s.pshashDelindex psi).status q = s.status q := by
  unfold pshashDelindex
  split
  · rfl
  · simp only [setCell_status, storage_status, relink_status]
    split
    · rename_i hq
      rw [hq]
    · rfl

variable {s psi}

theorem pshashDelindex_next (hpid : s.pid psi ≠ noPid) {q : Int} (hq : q ≠ psi)
    (hnull : q ≠ noPidstat) :
    (s.pshashDelindex psi).next q = if q = s.prev psi then s.next psi else s.next q := by
  unfold pshashDelindex
  rw [if_neg hpid]
  simp only [setCell_next, if_neg hq, relinkPrev_next _ _ hnull, relinkNext_next,
    relinkNext_prev_self]

theorem pshashDelindex_prev (hpid : s.pid psi ≠ noPid) {q : Int} (hq : q ≠ psi)
    (hnull : q ≠ noPidstat) :
    (s.pshashDelindex psi).prev q = if q = s.next psi then s.prev psi else s.prev q := by
  unfold pshashDelindex
  rw [if_neg hpid]
  simp only [setCell_prev, if_neg hq, relinkPrev_prev, relinkNext_prev _ _ hnull]

theorem pshashDelindex_table (hpid : s.pid psi ≠ noPid) (b : Nat) :
    (s.pshashDelindex psi).pidstatTable b =
      if s.prev psi = noPidstat ∧ b = pshashGetbucket (s.pid psi) then s.next psi
      else s.pidstatTable b := by
  unfold pshashDelindex
  rw [if_neg hpid]
  simp only [setCell, relinkPrev_table, relinkNext_next, relinkNext_prev_self, relinkNext_pid,
    relinkNext_table]

end Delindex

/-! ## A cell joins a chain -/

section FillCell

variable (s : Bgp) (pid status psi : Int)

theorem fillCell_fields : (s.fillCell pid status psi).head = s.head ∧
    (s.fillCell pid status psi).nalloc = s.nalloc ∧
    (s.fillCell pid status psi).npid = int32 (s.npid + 1) := by
  unfold fillCell
  simp only
  split <;> exact ⟨rfl, rfl, rfl⟩

theorem fillCell_table : (s.fillCell pid status psi).pidstatTable =
    Function.update s.pidstatTable (pshashGetbucket pid) psi := by
  unfold fillCell
  simp only
  split <;> rfl

theorem fillCell_pid (q : Int) :
    (s.fillCell pid status psi).pid q = if q = psi then pid else s.pid q := by
  unfold fillCell
  simp only
  split
  · exact (setPrev_pid ..).trans (setCell_pid ..)
  · exact setCell_pid ..

theorem fillCell_status (q : Int) :
    (s.fillCell pid status psi).status q = if q = psi then bits16 status else s.status q := by
  unfold fillCell
  simp only
  split
  · exact (setPrev_status ..).trans (setCell_status ..)
  · exact setCell_status ..

theorem fillCell_next (q : Int) : (s.fillCell pid status psi).next q =
    if q = psi then s.pidstatTable (pshashGetbucket pid) else s.next q := by
  unfold fillCell
  simp only
  split
  · exact (setPrev_next ..).trans (setCell_next ..)
  · exact setCell_next ..

theorem fillCell_prev {q : Int} (hnull : q ≠ noPidstat) : (s.fillCell pid status psi).prev q =
    if q = s.pidstatTable (pshashGetbucket pid) then psi
    else if q = psi then noPidstat else s.prev q := by
  have hself : (s.setCell psi
      { pid, status := bits16 status, bucketNext := s.pidstatTable (pshashGetbucket pid),
        bucketPrev := noPidstat }).next psi = s.pidstatTable (pshashGetbucket pid) :=
    (setCell_next ..).trans (if_pos rfl)
  unfold fillCell
  simp only
  split
  · refine (setPrev_prev ..).trans ?_
    exact if_congr (Eq.congr_right hself) rfl (setCell_prev ..)
  · rename_i hnext
    have hempty : s.pidstatTable (pshashGetbucket pid) = noPidstat :=
      hself.symm.trans (not_not.mp hnext)
    rw [hempty, if_neg hnull]
    exact setCell_prev ..

variable {psi pid} in
theorem mem_live_fillCell (hpsi : 0 ≤ psi ∧ psi < s.nalloc) (hpid : pid ≠ noPid) {q : Int} :
    q ∈ (s.fillCell pid status psi).live ↔ q = psi ∨ q ∈ s.live := by
  rw [mem_live, mem_live, fillCell_pid, (s.fillCell_fields pid status psi).2.1]
  by_cases hq : q = psi
  · subst hq
    simpa [hpid] using hpsi
  · simp only [hq, if_false, false_or]

end FillCell

end Bgp

/-! ## Chains -/

/-- The chain of each bucket holds the live cells whose pid hashes to it. -/
structure Chained (s : Bgp) (chains : Nat → List Int) : Prop where
  threaded : ∀ b, Threaded s.next s.prev noPidstat (s.pidstatTable b) (chains b)
  mem_iff : ∀ b psi, psi ∈ chains b ↔ psi ∈ s.live ∧ pshashGetbucket (s.pid psi) = b

namespace Chained

variable {s t : Bgp} {chains : Nat → List Int} {psi : Int}

theorem mem_self (h : Chained s chains) (hpsi : psi ∈ s.live) :
    psi ∈ chains (pshashGetbucket (s.pid psi)) := (h.mem_iff _ psi).mpr ⟨hpsi, rfl⟩

/-- A cell is in the chain of its bucket only. -/
theorem notMem_of_ne (h : Chained s chains) {b b' : Nat} (hb : b ≠ b') (hpsi : psi ∈ chains b) :
    psi ∉ chains b' := fun hpsi' =>
  hb (((h.mem_iff b psi).mp hpsi).2.symm.trans ((h.mem_iff b' psi).mp hpsi').2)

/-- The cell `psi` leaves its chain, if it is in one. -/
theorem pshashDelindex (h : Chained s chains) (hpsi : 0 ≤ psi ∧ psi < s.nalloc) :
    Chained (s.pshashDelindex psi) fun b => (chains b).erase psi := by
  by_cases hpid : s.pid psi = noPid
  · have hsame : s.pshashDelindex psi = s := by
      unfold Bgp.pshashDelindex
      rw [if_pos hpid]
    have hnot : ∀ b, psi ∉ chains b := fun b hmem =>
      (Bgp.mem_live.mp ((h.mem_iff b psi).mp hmem).1).2 hpid
    have herase : (fun b => (chains b).erase psi) = chains :=
      funext fun b => List.erase_of_not_mem (hnot b)
    rw [hsame, herase]
    exact h
  · have hlive : psi ∈ s.live := Bgp.mem_live.mpr ⟨hpsi, hpid⟩
    have hmem := h.mem_self hlive
    obtain ⟨-, hnalloc, -⟩ := s.pshashDelindex_fields psi
    constructor
    · intro b
      by_cases hb : b = pshashGetbucket (s.pid psi)
      · subst hb
        have hthread := h.threaded (pshashGetbucket (s.pid psi))
        obtain ⟨xs, ys, hsplit⟩ := List.append_of_mem hmem
        rw [hsplit] at hthread ⊢
        have hnodup := hthread.nodup
        have herase : (xs ++ psi :: ys).erase psi = xs ++ ys := by
          rw [List.erase_append_right _ fun hx =>
            List.disjoint_of_nodup_append hnodup hx (List.mem_cons_self ..), List.erase_cons_head]
        have hne : ∀ p ∈ xs ++ ys, p ≠ psi ∧ p ≠ noPidstat := by
          intro p hp
          have hmid := (List.nodup_middle.mp hnodup)
          refine ⟨ne_of_mem_of_not_mem hp (List.nodup_cons.mp hmid).1, ?_⟩
          refine ne_of_mem_of_not_mem ?_ hthread.null_notMem
          rcases List.mem_append.mp hp with hp | hp
          · exact List.mem_append_left _ hp
          · exact List.mem_append_right _ (List.mem_cons_of_mem _ hp)
        rw [herase]
        refine hthread.unlink (fun p hp => ?_) (fun p hp => ?_) ?_
        · exact Bgp.pshashDelindex_next hpid (hne p hp).1 (hne p hp).2
        · exact Bgp.pshashDelindex_prev hpid (hne p hp).1 (hne p hp).2
        · rw [Bgp.pshashDelindex_table hpid]
          exact if_congr (and_iff_left rfl) rfl rfl
      · have hother := (h.threaded b)
        have hpsib : psi ∉ chains b := h.notMem_of_ne (Ne.symm hb) hmem
        obtain ⟨hnextmem, hprevmem⟩ := (h.threaded _).neighbours hmem
        have houtside : ∀ q, q = noPidstat ∨ q ∈ chains (pshashGetbucket (s.pid psi)) →
            ∀ p ∈ chains b, p ≠ q := by
          rintro q (rfl | hq) p hp
          · exact ne_of_mem_of_not_mem hp hother.null_notMem
          · exact ne_of_mem_of_not_mem hp (h.notMem_of_ne (Ne.symm hb) hq)
        rw [List.erase_of_not_mem hpsib, Bgp.pshashDelindex_table hpid, if_neg fun hc => hb hc.2]
        refine hother.congr fun p hp => ?_
        have hp' := ne_of_mem_of_not_mem hp hpsib
        have hnull := ne_of_mem_of_not_mem hp hother.null_notMem
        rw [Bgp.pshashDelindex_next hpid hp' hnull, Bgp.pshashDelindex_prev hpid hp' hnull,
          if_neg (houtside _ hprevmem p hp), if_neg (houtside _ hnextmem p hp)]
        exact ⟨rfl, rfl⟩
    · intro b q
      rw [(h.threaded b).nodup.mem_erase_iff, h.mem_iff, Bgp.mem_live, Bgp.mem_live, hnalloc,
        s.pshashDelindex_pid]
      by_cases hq : q = psi
      · simp [hq]
      · simp [hq]

/-- The cell `psi`, which is in no chain, joins the chain of `pid` at the front. -/
theorem fillCell (h : Chained s chains) (hpsi : 0 ≤ psi ∧ psi < s.nalloc)
    (hfree : s.pid psi = noPid) {pid : Int} (hpid : pid ≠ noPid) (status : Int) :
    Chained (s.fillCell pid status psi)
      (Function.update chains (pshashGetbucket pid) (psi :: chains (pshashGetbucket pid))) := by
  have hnot : ∀ b, psi ∉ chains b := fun b hmem =>
    (Bgp.mem_live.mp ((h.mem_iff b psi).mp hmem).1).2 hfree
  have hnull : psi ≠ noPidstat := by
    rintro rfl
    exact absurd hpsi.1 (by decide)
  have hfirst : psi ≠ s.pidstatTable (pshashGetbucket pid) := by
    intro heq
    rcases List.mem_append.mp (List.mem_of_head? (h.threaded _).head?_eq) with hmem | hmem
    · exact hnot _ (heq ▸ hmem)
    · exact hnull (heq.trans (List.mem_singleton.mp hmem))
  constructor
  · intro b
    rw [s.fillCell_table, Function.update_apply, Function.update_apply]
    have hthread := h.threaded b
    have hne : ∀ p ∈ chains b, p ≠ psi ∧ p ≠ noPidstat := fun p hp =>
      ⟨ne_of_mem_of_not_mem hp (hnot b), ne_of_mem_of_not_mem hp hthread.null_notMem⟩
    split
    · rename_i hb
      subst hb
      refine hthread.push (hnot _) hnull ⟨?_, ?_⟩ (fun p hp => ?_) fun p hp => ?_
      · rw [s.fillCell_next, if_pos rfl]
      · rw [s.fillCell_prev _ _ _ hnull, if_neg hfirst, if_pos rfl]
      · rw [s.fillCell_next, if_neg (hne p hp).1]
      · rw [s.fillCell_prev _ _ _ (hne p hp).2, if_neg (hne p hp).1]
    · rename_i hb
      refine hthread.congr fun p hp => ?_
      have hother : p ≠ s.pidstatTable (pshashGetbucket pid) := by
        rintro rfl
        rcases List.mem_append.mp (List.mem_of_head? (h.threaded _).head?_eq) with hmem | hmem
        · exact h.notMem_of_ne hb hp hmem
        · exact (hne _ hp).2 (List.mem_singleton.mp hmem)
      rw [s.fillCell_next, s.fillCell_prev _ _ _ (hne p hp).2, if_neg (hne p hp).1,
        if_neg hother, if_neg (hne p hp).1]
      exact ⟨rfl, rfl⟩
  · intro b q
    rw [s.mem_live_fillCell status hpsi hpid, s.fillCell_pid, Function.update_apply]
    have hmem := h.mem_iff b q
    by_cases hq : q = psi
    · subst hq
      have hq' := hnot b
      split
      · rename_i hb
        simp [hb]
      · rename_i hb
        simp [hnot b, Ne.symm hb]
    · split
      · rename_i hb
        subst hb
        simp only [List.mem_cons, hq, false_or, hmem]
      · simp only [hq, false_or, hmem]

end Chained

end Basht.Jobs
