import Basht.Jobs.Steps

/-!
# The latest statuses

Runs of operations on the table. A status is found until it is deleted, the table is cleared
or its cell is used again, which takes as many additions as the arena had cells.
-/

namespace Basht.Jobs

open Fallible

variable {s t u : Bgp} {fuel : Nat}

def Op.isAdd : Op → Bool
  | .add _ _ _ => true
  | _ => false

/-- `set_maxchild` makes `js.c_childmax` a positive `int`; a pid is added that is not in the
table. -/
def Op.Admitted (s : Bgp) : Op → Prop
  | .add childmax pid _ => (0 < childmax ∧ childmax < 2147483648) ∧ pid ≠ noPid ∧
    ∀ psi ∈ s.live, s.pid psi ≠ pid
  | _ => True

/-- Adding does not overflow `npid` either. -/
def Op.Allowed (s : Bgp) (o : Op) : Prop :=
  o.Admitted s ∧ (o.isAdd = true → s.npid < 2147483647)

/-- What holds along the runs. -/
structure Reached (s : Bgp) : Prop where
  intact : Intact s
  counted : Counted s

/-- The cell `psi` holds the status of `pid`. -/
def Stored (s : Bgp) (psi pid status : Int) : Prop :=
  psi ∈ s.live ∧ s.pid psi = pid ∧ s.status psi = bits16 status

def Absent (s : Bgp) (pid : Int) : Prop := ∀ psi ∈ s.live, s.pid psi ≠ pid

/-- The addition `o`, which leaves `t`, takes the cell before `head`. -/
def Op.Recycles (head : Int) (t : Bgp) (o : Op) : Prop := o.isAdd = true ∧ t.head = head

/-- The operation `o`, which leaves `t`, loses the status of `pid` in the cell before `head`. -/
def Op.Loses (head pid : Int) (t : Bgp) (o : Op) : Prop :=
  o = .delete pid ∨ o = .clear ∨ o.Recycles head t

/-- What an operation does to the arena, and to a pid that it does not add. -/
structure Stepped (s t : Bgp) (o : Op) : Prop where
  reached : Reached t
  arena : o ≠ .clear → s.nalloc ≤ t.nalloc ∧ if o.isAdd then
    t.head = s.head + 1 ∨ t.head = 1 ∧ s.nalloc ≤ s.head else t.head = s.head
  absent : ∀ pid, (∀ childmax status, o ≠ .add childmax pid status) → Absent s pid → Absent t pid
  stored : ∀ psi pid status, (∀ childmax status', o ≠ .add childmax pid status') →
    Stored s psi pid status → (o.Loses (psi + 1) pid t → Absent t pid) ∧
      (¬o.Loses (psi + 1) pid t → Stored t psi pid status)

/-- A table without an arena. -/
theorem Reached.empty (storage : Int → Pidstat) (table : Nat → Int) :
    Reached ⟨storage, 0, 0, 0, table⟩ := by
  have hempty : Bgp.live ⟨storage, 0, 0, 0, table⟩ = ∅ := rfl
  refine ⟨⟨⟨Int.le_refl _, Int.le_of_lt (Int.ofNat_lt.mpr (Nat.succ_pos _))⟩,
    ⟨Int.le_refl _, Int.le_refl _⟩, fun h => absurd rfl h, ?_⟩, ?_, ?_⟩
  · rw [hempty]
    simp
  · rw [hempty]
    exact Int.le_refl _
  · exact Int.le_of_lt (Int.ofNat_lt.mpr (Nat.succ_pos _))

theorem Reached.add (h : Reached s) {childmax pid status : Int}
    (ho : (Op.add childmax pid status).Allowed s) :
    Stepped s (s.bgpAdd childmax pid status) (.add childmax pid status) := by
  obtain ⟨⟨hc, hpid, hfresh⟩, hnpid⟩ := ho
  have hnpid' := hnpid rfl
  have hadded := h.intact.bgpAdd hc hpid hfresh status
  generalize s.bgpAdd childmax pid status = t at hadded
  have hmem : ∀ q, q ∈ t.live ↔ q = t.head - 1 ∨ q ≠ t.head - 1 ∧ q ∈ s.live := by
    intro q
    rw [hadded.live, Finset.mem_insert, Finset.mem_erase]
  refine ⟨⟨hadded.intact, ?_, ?_⟩, fun _ => ⟨hadded.nalloc, hadded.place⟩, ?_, ?_⟩
  · have hcard := (Finset.card_insert_le (t.head - 1) (s.live.erase (t.head - 1))).trans
      (Nat.succ_le_succ (Finset.card_erase_le (s := s.live) (a := t.head - 1)))
    obtain ⟨hle, hmax⟩ := h.counted
    rw [hadded.live, hadded.npid, int32_of_bounds (by omega) (by omega)]
    omega
  · rw [hadded.npid, int32_of_bounds (by have := h.counted.1; omega) (by omega)]
    omega
  · intro pid' hne habsent q hq
    rcases (hmem q).mp hq with rfl | ⟨hqne, hq⟩
    · rw [hadded.self.1]
      rintro rfl
      exact hne childmax status rfl
    · rw [(hadded.old q hq hqne).1]
      exact habsent q hq
  · rintro psi pid' status' hne ⟨hlive, rfl, hstatus⟩
    have hne' : pid ≠ s.pid psi := by
      rintro rfl
      exact hne childmax status rfl
    constructor
    · rintro (hop | hop | ⟨-, hhead⟩)
      · cases hop
      · cases hop
      · intro q hq
        have hcell : t.head - 1 = psi := by omega
        rcases (hmem q).mp hq with rfl | ⟨hqne, hq⟩
        · rw [hadded.self.1]
          exact hne'
        · rw [(hadded.old q hq hqne).1]
          intro heq
          rw [hcell] at hqne
          exact hqne (h.intact.distinct q hq psi hlive heq)
    · intro hkept
      have hcell : psi ≠ t.head - 1 := fun heq => hkept (Or.inr (Or.inr ⟨rfl, by omega⟩))
      obtain ⟨hpid', hstatus'⟩ := hadded.old psi hlive hcell
      exact ⟨(hmem psi).mpr (Or.inr ⟨hcell, hlive⟩), hpid', hstatus'.trans hstatus⟩

theorem Reached.delete (h : Reached s) (hfuel : 32768 < fuel) (pid : Int) :
    ∃ t, s.bgpDelete fuel pid = some t ∧ Stepped s t (.delete pid) := by
  obtain ⟨t, hrun, hdeleted⟩ := h.intact.bgpDelete h.counted pid hfuel
  have hmem : ∀ q, q ∈ t.live ↔ q ∈ s.live ∧ s.pid q ≠ pid := by
    intro q
    rw [hdeleted.live, Finset.mem_filter]
  refine ⟨t, hrun, ⟨hdeleted.intact, hdeleted.counted⟩, fun _ => ⟨?_, hdeleted.head⟩, ?_, ?_⟩
  · exact Int.le_of_eq hdeleted.nalloc.symm
  · intro pid' hne habsent q hq
    rw [(hdeleted.old q hq).1]
    exact habsent q ((hmem q).mp hq).1
  · rintro psi pid' status hne ⟨hlive, rfl, hstatus⟩
    constructor
    · rintro (hop | hop | hop)
      · cases hop
        intro q hq
        rw [(hdeleted.old q hq).1]
        exact ((hmem q).mp hq).2
      · cases hop
      · cases hop.1
    · intro hkept
      have hne' : s.pid psi ≠ pid := fun heq => hkept (Or.inl (by rw [heq]))
      have hlive' := (hmem psi).mpr ⟨hlive, hne'⟩
      obtain ⟨hpid', hstatus'⟩ := hdeleted.old psi hlive'
      exact ⟨hlive', hpid', hstatus'.trans hstatus⟩

theorem Reached.clear (h : Reached s) : Stepped s s.bgpClear .clear := by
  have hempty : s.bgpClear.live = ∅ := by
    unfold Bgp.bgpClear
    split
    · rename_i hzero
      rw [Bgp.live, hzero]
      rfl
    · rfl
  have hreached : Reached s.bgpClear := by
    unfold Bgp.bgpClear
    split
    · exact h
    · exact Reached.empty _ _
  have habsent : ∀ pid, Absent s.bgpClear pid := by
    intro pid q hq
    rw [hempty] at hq
    exact absurd hq (Finset.notMem_empty q)
  refine ⟨hreached, fun hne => absurd rfl hne, fun pid _ _ => habsent pid,
    fun psi pid status _ _ => ⟨fun _ => habsent pid, fun hkept => ?_⟩⟩
  exact absurd (Or.inr (Or.inl rfl)) hkept

/-- One operation. -/
theorem Reached.run (h : Reached s) (hfuel : 32768 < fuel) {o : Op} (ho : o.Allowed s) :
    ∃ t out, o.run fuel s = .ok (t, out) ∧ Stepped s t o := by
  cases o with
  | add childmax pid status => exact ⟨_, [], rfl, h.add ho⟩
  | delete pid =>
    obtain ⟨t, hrun, hstep⟩ := h.delete hfuel pid
    refine ⟨t, [], ?_, hstep⟩
    simp only [Op.run, hrun]
  | clear => exact ⟨_, [], rfl, h.clear⟩
  | search pid =>
    obtain ⟨result, hrun⟩ : ∃ result, s.bgpSearch fuel pid = some result := by
      rcases h.intact.bgpSearch h.counted pid hfuel with ⟨_, _, _, hrun⟩ | ⟨_, hrun⟩
      · exact ⟨_, hrun⟩
      · exact ⟨_, hrun⟩
    refine ⟨s, [result], ?_, h, fun _ => ⟨Int.le_refl _, rfl⟩, fun _ _ habsent => habsent, ?_⟩
    · simp only [Op.run, hrun]
    · rintro psi pid' status _ hstored
      refine ⟨?_, fun _ => hstored⟩
      rintro (hop | hop | hop)
      · cases hop
      · cases hop
      · cases hop.1

/-! ## Runs -/

/-- A run keeps what the steps keep; `psi` is a cell that holds the status of `pid`. -/
theorem Reached.exec (h : Reached s) (hfuel : 32768 < fuel) {ops : List Op}
    (hops : Meets (Op.run fuel) Op.Allowed s ops) : ∃ t out,
    exec (Op.run fuel) s ops = .ok (t, out) ∧ Reached t ∧
      ∀ pid, (∀ childmax status, Op.add childmax pid status ∉ ops) →
        (Absent s pid → Absent t pid) ∧ ∀ psi status, Stored s psi pid status →
          (Passes (Op.run fuel) (Op.Loses (psi + 1) pid) s ops → Absent t pid) ∧
          (¬Passes (Op.run fuel) (Op.Loses (psi + 1) pid) s ops → Stored t psi pid status) := by
  induction ops generalizing s with
  | nil =>
    refine ⟨s, [], rfl, h, fun pid _ => ⟨id, fun psi status hstored => ⟨fun hpass => ?_,
      fun _ => hstored⟩⟩⟩
    exact absurd hpass (not_passes_nil _ _ _)
  | cons o ops ih =>
    obtain ⟨t, out, hrun, hstep⟩ := h.run hfuel hops.1
    obtain ⟨u, out', hruns, hreached, hrest⟩ := ih hstep.reached (hops.2 t out hrun)
    refine ⟨u, out ++ out', andThen_eq_ok.mpr ⟨t, out, u, out', hrun, hruns, rfl⟩, hreached,
      fun pid hnot => ?_⟩
    have ho : ∀ childmax status, o ≠ .add childmax pid status := by
      rintro childmax status rfl
      exact hnot childmax status (List.mem_cons_self ..)
    obtain ⟨habsent, hkept⟩ := hrest pid fun childmax status hmem =>
      hnot childmax status (List.mem_cons_of_mem _ hmem)
    refine ⟨fun hs => habsent (hstep.absent pid ho hs), fun psi status hstored => ?_⟩
    obtain ⟨hlost, hstay⟩ := hstep.stored psi pid status ho hstored
    rw [passes_cons hrun]
    constructor
    · intro hpass
      by_cases hnow : o.Loses (psi + 1) pid t
      · exact habsent (hlost hnow)
      · exact (hkept psi status (hstay hnow)).1 (hpass.resolve_left hnow)
    · intro hpass
      obtain ⟨hnow, hlater⟩ := not_or.mp hpass
      exact (hkept psi status (hstay hnow)).2 hlater

/-- How far the head has come since `u`, after `k` additions. -/
def Advanced (u s : Bgp) (k : Nat) : Prop :=
  u.head ≤ u.nalloc ∧ u.nalloc ≤ s.nalloc ∧
    (u.nalloc ≤ k ∨ s.head = u.head + k ∨
      s.head < u.head ∧ u.nalloc + s.head ≤ u.head + k)

/-- The head is back where it was only after as many additions as there were cells. -/
theorem Reached.recycles (h : Reached s) (hfuel : 32768 < fuel) {ops : List Op}
    (hops : Meets (Op.run fuel) Op.Allowed s ops) (hclear : Op.clear ∉ ops) {k : Nat}
    (hadv : Advanced u s k) (hpass : Passes (Op.run fuel) (Op.Recycles u.head) s ops) :
    u.nalloc ≤ k + ops.countP Op.isAdd := by
  induction ops generalizing s k with
  | nil => exact absurd hpass (not_passes_nil _ _ _)
  | cons o ops ih =>
    obtain ⟨t, out, hrun, hstep⟩ := h.run hfuel hops.1
    obtain ⟨hnalloc, hhead⟩ := hstep.arena fun heq => hclear (by simp [heq])
    have hhead0 := hstep.reached.intact.head.1
    rw [passes_cons hrun] at hpass
    have hclear' : Op.clear ∉ ops := fun hmem => hclear (List.mem_cons_of_mem _ hmem)
    obtain ⟨hle, hsize, hplace⟩ := hadv
    rw [List.countP_cons]
    cases hadd : o.isAdd with
    | false =>
      rw [hadd] at hhead
      simp only [Bool.false_eq_true, if_false] at hhead ⊢
      refine ih hstep.reached (hops.2 t out hrun) hclear' ⟨hle, by omega, by omega⟩ ?_
      refine hpass.resolve_left fun hnow => ?_
      rw [Op.Recycles, hadd] at hnow
      exact absurd hnow.1 (by simp)
    | true =>
      rw [hadd] at hhead
      simp only [if_true] at hhead ⊢
      rcases hpass with hnow | hlater
      · have hback := hnow.2
        omega
      · have hnext := ih (k := k + 1) hstep.reached (hops.2 t out hrun) hclear'
          ⟨hle, by omega, by omega⟩ hlater
        omega

/-- Some operation of the run `ops` from `u` loses the status of `pid`, which has been added
last. -/
def Lost (fuel : Nat) (u : Bgp) (pid : Int) (ops : List Op) : Prop :=
  .delete pid ∈ ops ∨ .clear ∈ ops ∨ Passes (Op.run fuel) (Op.Recycles u.head) u ops

theorem passes_loses (h : Reached s) (hfuel : 32768 < fuel) {ops : List Op}
    (hops : Meets (Op.run fuel) Op.Allowed s ops) (head pid : Int) :
    Passes (Op.run fuel) (Op.Loses head pid) s ops ↔
      .delete pid ∈ ops ∨ .clear ∈ ops ∨ Passes (Op.run fuel) (Op.Recycles head) s ops := by
  induction ops generalizing s with
  | nil => simp [not_passes_nil]
  | cons o ops ih =>
    obtain ⟨t, out, hrun, hstep⟩ := h.run hfuel hops.1
    rw [passes_cons hrun, passes_cons hrun, ih hstep.reached (hops.2 t out hrun), Op.Loses,
      List.mem_cons, List.mem_cons, eq_comm (a := Op.delete pid), eq_comm (a := Op.clear)]
    tauto

/-- The table after a run of operations: if there is an arena, its chains are doubly linked
lists of the live cells; `npid` counts them; and a search finds the status that was added
last, unless it has been lost, for which its cell is not used again before as many additions
as there were cells. -/
theorem saved_statuses (storage : Int → Pidstat) (fuel : Nat) (hfuel : 32768 < fuel)
    (ops : List Op) (hops : Meets (Op.run fuel) Op.Allowed (Bgp.start storage) ops) :
    ∃ s out, exec (Op.run fuel) (Bgp.start storage) ops = .ok (s, out) ∧
      (s.nalloc ≠ 0 → ∃ chains, Chained s chains) ∧ (s.live.card : Int) ≤ s.npid ∧
      (∀ pid, (∀ childmax status, Op.add childmax pid status ∉ ops) →
        s.bgpSearch fuel pid = some (-1)) ∧
      ∀ pre childmax pid status post, ops = pre ++ .add childmax pid status :: post →
        (∀ childmax' status', Op.add childmax' pid status' ∉ post) → ∃ u out',
        exec (Op.run fuel) (Bgp.start storage) (pre ++ [.add childmax pid status]) =
          .ok (u, out') ∧
        (Lost fuel u pid post → s.bgpSearch fuel pid = some (-1)) ∧
        (¬Lost fuel u pid post → s.bgpSearch fuel pid = some (bits16 status)) ∧
        (Op.clear ∉ post → Passes (Op.run fuel) (Op.Recycles u.head) u post →
          u.nalloc ≤ post.countP Op.isAdd) := by
  have hstart : Reached (Bgp.start storage) := Reached.empty storage _
  obtain ⟨s, out, hrun, hreached, hpids⟩ := hstart.exec hfuel hops
  have habsent : ∀ pid, Absent s pid → s.bgpSearch fuel pid = some (-1) := by
    intro pid hpid
    rcases hreached.intact.bgpSearch hreached.counted pid hfuel with ⟨psi, hlive, heq, -⟩ | hnone
    · exact absurd heq (hpid psi hlive)
    · exact hnone.2
  have hstored : ∀ psi pid status, Stored s psi pid status →
      s.bgpSearch fuel pid = some (bits16 status) := by
    rintro psi pid status ⟨hlive, rfl, hstatus⟩
    rcases hreached.intact.bgpSearch hreached.counted (s.pid psi) hfuel with
      ⟨q, hq, heq, hfound⟩ | ⟨hnone, -⟩
    · rw [hfound, hreached.intact.distinct q hq psi hlive heq, hstatus]
    · exact absurd rfl (hnone psi hlive)
  refine ⟨s, out, hrun, hreached.intact.chained, hreached.counted.1, fun pid hnot => ?_, ?_⟩
  · refine habsent pid ((hpids pid hnot).1 ?_)
    intro q hq
    exact absurd hq (Finset.notMem_empty q)
  · rintro pre childmax pid status post rfl hnot
    obtain ⟨v, out₁, hpre, hv, -⟩ := hstart.exec hfuel hops.take
    have hrest := hops.drop hpre
    obtain ⟨⟨hc, hpid, hfresh⟩, -⟩ := hrest.1
    have hadded := hv.intact.bgpAdd hc hpid hfresh status
    have hu := (hv.add hrest.1).reached
    have hpost := hrest.2 _ [] rfl
    have hself : Stored (v.bgpAdd childmax pid status) ((v.bgpAdd childmax pid status).head - 1) pid
        status := by
      refine ⟨?_, hadded.self.1, hadded.self.2⟩
      rw [hadded.live]
      exact Finset.mem_insert_self _ _
    have hsingle : exec (Op.run fuel) (Bgp.start storage)
        (pre ++ [.add childmax pid status]) = .ok (v.bgpAdd childmax pid status, out₁ ++ []) := by
      rw [exec_append]
      exact andThen_eq_ok.mpr ⟨v, out₁, _, [], hpre, rfl, rfl⟩
    generalize v.bgpAdd childmax pid status = u at *
    obtain ⟨s', out₂, hrun', -, hpids'⟩ := hu.exec hfuel hpost
    have hwhole : exec (Op.run fuel) (Bgp.start storage)
        (pre ++ .add childmax pid status :: post) = .ok (s', out₁ ++ [] ++ out₂) := by
      rw [List.append_cons, exec_append]
      exact andThen_eq_ok.mpr ⟨u, _, s', out₂, hsingle, hrun', rfl⟩
    obtain rfl : s = s' := congrArg Prod.fst (Except.ok.inj (hrun.symm.trans hwhole))
    obtain ⟨-, hkept⟩ := hpids' pid hnot
    obtain ⟨hlost, hstay⟩ := hkept _ status hself
    rw [Int.sub_add_cancel, passes_loses hu hfuel hpost] at hlost hstay
    refine ⟨u, _, hsingle, fun h => habsent pid (hlost h), fun h => hstored _ pid status (hstay h),
      fun hclear hpass => ?_⟩
    have hle := hu.recycles hfuel hpost hclear (k := 0) ⟨hu.intact.head.2, Int.le_refl _,
      Or.inr (Or.inl (Int.add_zero _).symm)⟩ hpass
    simpa using hle

theorem admitted_first (storage : Int → Pidstat) (status : Int) :
    (Op.add 1 7 status).Allowed (Bgp.start storage) :=
  ⟨⟨by decide, by decide, fun psi hpsi => absurd hpsi (Finset.notMem_empty psi)⟩,
    fun _ => Int.ofNat_lt.mpr (Nat.succ_pos _)⟩

/-- The status of one process. -/
theorem saved_statuses_one : ∃ s out, exec (Op.run 32769) (Bgp.start fun _ => ⟨0, 0, 0, 0⟩)
    [.add 1 7 3] = .ok (s, out) ∧ (s.nalloc ≠ 0 → ∃ chains, Chained s chains) ∧
    (s.live.card : Int) ≤ s.npid ∧ s.bgpSearch 32769 8 = some (-1) ∧
    s.bgpSearch 32769 7 = some 3 := by
  obtain ⟨s, out, hrun, hchained, hcount, hnone, hlatest⟩ :=
    saved_statuses (fun _ => ⟨0, 0, 0, 0⟩) 32769 (by decide) [.add 1 7 3]
      ⟨admitted_first _ 3, fun _ _ _ => trivial⟩
  refine ⟨s, out, hrun, hchained, hcount, hnone 8 (by simp), ?_⟩
  obtain ⟨u, out', -, -, hfound, -⟩ := hlatest [] 1 7 3 [] rfl (by simp)
  refine hfound ?_
  rintro (hmem | hmem | hpass)
  · exact absurd hmem List.not_mem_nil
  · exact absurd hmem List.not_mem_nil
  · exact not_passes_nil _ _ _ hpass

/-! ## What the `int` and `bits16_t` fields cannot hold -/

/-- The pids 1, 2, … `n` are added. -/
@[irreducible] def addPids (n : Nat) : List Op :=
  (List.range n).map fun k : Nat => .add 1 (k + 1) 0

theorem addPids_succ (n : Nat) : addPids (n + 1) = addPids n ++ [.add 1 (n + 1) 0] := by
  unfold addPids
  rw [List.range_succ, List.map_append]
  rfl

/-- The first cell holds the pid 1 until the arena is wrapped around. -/
theorem addPids_spec (storage : Int → Pidstat) (fuel n : Nat) : ∃ s,
    exec (Op.run fuel) (Bgp.start storage) (addPids n) = .ok (s, []) ∧
      Meets (Op.run fuel) Op.Admitted (Bgp.start storage) (addPids n) ∧ Intact s ∧
      s.npid = int32 n ∧ (∀ q ∈ s.live, s.pid q ≤ n) ∧
      ((s.head = n ∧ ∀ q ∈ s.live, s.pid q = q + 1) ∨ 1 ≤ n ∧ Absent s 1) := by
  induction n with
  | zero =>
    refine ⟨Bgp.start storage, ?_, ?_, (Reached.empty storage _).intact, rfl, ?_, Or.inl ⟨rfl, ?_⟩⟩
    · rw [addPids]
      rfl
    · rw [addPids]
      exact trivial
    · exact fun q hq => absurd hq (Finset.notMem_empty q)
    · exact fun q hq => absurd hq (Finset.notMem_empty q)
  | succ n ih =>
    obtain ⟨s, hrun, hmeets, hintact, hnpid, hle, hplace⟩ := ih
    have hfresh : ∀ q ∈ s.live, s.pid q ≠ n + 1 := by
      intro q hq
      have hq' := hle q hq
      omega
    have hpid : (n + 1 : Int) ≠ noPid := by
      have hconst : noPid = -1 := rfl
      omega
    have hc : (0 : Int) < 1 ∧ (1 : Int) < 2147483648 := by decide
    have hadded := hintact.bgpAdd hc hpid hfresh 0
    have hmem : ∀ q, q ∈ (s.bgpAdd 1 (n + 1) 0).live ↔ q = (s.bgpAdd 1 (n + 1) 0).head - 1 ∨
        q ≠ (s.bgpAdd 1 (n + 1) 0).head - 1 ∧ q ∈ s.live := by
      intro q
      rw [hadded.live, Finset.mem_insert, Finset.mem_erase]
    rw [addPids_succ]
    refine ⟨s.bgpAdd 1 (n + 1) 0, ?_, hmeets.append hrun ⟨⟨by decide, hpid, hfresh⟩, fun _ _ _ => trivial⟩,
      hadded.intact, ?_, ?_, ?_⟩
    · rw [exec_append, hrun]
      rfl
    · rw [hadded.npid, hnpid, int32, int32, int32, Int.bmod_add_bmod, Int.natCast_add]
      rfl
    · intro q hq
      rcases (hmem q).mp hq with rfl | ⟨hqne, hq⟩
      · rw [hadded.self.1, Int.natCast_add]
        exact Int.le_refl _
      · rw [(hadded.old q hq hqne).1]
        have hq' := hle q hq
        omega
    · have hold : ∀ q ∈ (s.bgpAdd 1 (n + 1) 0).live, (s.bgpAdd 1 (n + 1) 0).pid q = n + 1 ∨
          q ≠ (s.bgpAdd 1 (n + 1) 0).head - 1 ∧ q ∈ s.live ∧
            (s.bgpAdd 1 (n + 1) 0).pid q = s.pid q := by
        intro q hq
        rcases (hmem q).mp hq with rfl | ⟨hqne, hq⟩
        · exact Or.inl hadded.self.1
        · exact Or.inr ⟨hqne, hq, (hadded.old q hq hqne).1⟩
      rcases hplace with ⟨hn, hcells⟩ | ⟨hpos, habsent⟩
      · by_cases hnext : (s.bgpAdd 1 (n + 1) 0).head = n + 1
        · left
          refine ⟨hnext, fun q hq => ?_⟩
          rcases (hmem q).mp hq with rfl | ⟨hqne, hq⟩
          · rw [hadded.self.1, hnext]
            omega
          · rw [(hadded.old q hq hqne).1]
            exact hcells q hq
        · -- the head is back at the first cell
          have hwrap := hadded.place.resolve_left (by rwa [hn])
          right
          refine ⟨by omega, fun q hq => ?_⟩
          rcases hold q hq with hpid | ⟨hqne, hqlive, hpid⟩
          · omega
          · rw [hpid, hcells q hqlive]
            omega
      · right
        refine ⟨by omega, fun q hq => ?_⟩
        rcases hold q hq with hpid | ⟨-, hqlive, hpid⟩
        · omega
        · rw [hpid]
          exact habsent q hqlive

/-- An admitted addition makes `npid` negative. -/
theorem npid_overflows (storage : Int → Pidstat) (fuel : Nat) : ∃ s,
    exec (Op.run fuel) (Bgp.start storage) (addPids 2147483647 ++ [.add 1 1 0]) = .ok (s, []) ∧
      Meets (Op.run fuel) Op.Admitted (Bgp.start storage) (addPids 2147483647 ++ [.add 1 1 0]) ∧
      s.npid = -2147483648 := by
  obtain ⟨s, hrun, hmeets, hintact, hnpid, -, hplace⟩ := addPids_spec storage fuel 2147483647
  have hfresh : Absent s 1 := by
    refine (hplace.resolve_left fun hhead => ?_).2
    have hle := hintact.head.2
    have hmax := hintact.nalloc.2
    have hconst : maxChildMax = 32768 := rfl
    omega
  have hc : (0 : Int) < 1 ∧ (1 : Int) < 2147483648 := by decide
  have hadded := hintact.bgpAdd hc (by decide) hfresh 0
  refine ⟨s.bgpAdd 1 1 0, ?_, hmeets.append hrun ⟨⟨by decide, by decide, hfresh⟩,
    fun _ _ _ => trivial⟩, ?_⟩
  · rw [exec_append, hrun]
    rfl
  · rw [hadded.npid, hnpid]
    decide

/-- After 2147483647 additions one more makes `npid` negative; `bgp_clear` leaves the buckets
as they are; and a status of more than 16 bits is cut off. -/
theorem saved_statuses_limits :
    (∃ s, exec (Op.run 32769) (Bgp.start fun _ => ⟨0, 0, 0, 0⟩)
        (addPids 2147483647 ++ [.add 1 1 0]) = .ok (s, []) ∧
      Meets (Op.run 32769) Op.Admitted (Bgp.start fun _ => ⟨0, 0, 0, 0⟩)
        (addPids 2147483647 ++ [.add 1 1 0]) ∧ ¬(s.live.card : Int) ≤ s.npid) ∧
    (∃ s, exec (Op.run 32769) (Bgp.start fun _ => ⟨0, 0, 0, 0⟩) [.add 1 7 0, .clear] =
        .ok (s, []) ∧
      Meets (Op.run 32769) Op.Admitted (Bgp.start fun _ => ⟨0, 0, 0, 0⟩) [.add 1 7 0, .clear] ∧
      ¬∃ chains, Chained s chains) ∧
    ∃ s, exec (Op.run 32769) (Bgp.start fun _ => ⟨0, 0, 0, 0⟩) [.add 1 7 65536] = .ok (s, []) ∧
      Meets (Op.run 32769) Op.Admitted (Bgp.start fun _ => ⟨0, 0, 0, 0⟩) [.add 1 7 65536] ∧
      s.bgpSearch 32769 7 = some 0 := by
  refine ⟨?_, ?_, ?_⟩
  · obtain ⟨s, hrun, hmeets, hnpid⟩ := npid_overflows (fun _ => ⟨0, 0, 0, 0⟩) 32769
    refine ⟨s, hrun, hmeets, ?_⟩
    rw [hnpid]
    omega
  · refine ⟨_, rfl, ⟨(admitted_first _ 0).1, fun _ _ _ => ⟨trivial, fun _ _ _ => trivial⟩⟩, ?_⟩
    rintro ⟨chains, hchained⟩
    have hempty : chains 7 = [] := by
      rw [List.eq_nil_iff_forall_not_mem]
      intro psi hpsi
      exact Finset.notMem_empty psi ((hchained.mem_iff 7 psi).mp hpsi).1
    have hfirst := (hchained.threaded 7).head?_eq
    rw [hempty] at hfirst
    exact absurd hfirst (by decide)
  · exact ⟨_, rfl, ⟨(admitted_first _ 65536).1, fun _ _ _ => trivial⟩, by decide⟩

end Basht.Jobs
