import Basht.Arrays.VectorMap

/-!
# Shifting vectors

`array_shift` counts elements but moves slots: it replaces the pointers of the elements it
shifts out, and of all slots behind the last of them, by the pointers `n` slots on.
`array_rshift` moves all slots up by `n`, and does not always make the room for that.
-/

namespace Basht.Arrays

variable {V : Type} {m : Map V}

/-- The index of the `n`-th element. -/
theorem Map.Below.exists_rank {size : Int} (h : m.Below size) {n : Nat} (hpos : 0 < n)
    (hn : n ≤ {k | (m k).isSome}.ncard) : ∃ p, (m p).isSome ∧ m.rank p + 1 = n := by
  have hex : ∃ i : Nat, n ≤ m.rank i := by
    refine ⟨size.toNat, ?_⟩
    rw [Map.rank_eq_ncard fun k hk => ?_]
    · exact hn
    · have hbounds := h k hk
      omega
  have hzero : m.rank ((0 : Nat) : Int) = 0 := by
    have hle := Map.rank_le (m := m) (i := 0) fun k hk => (h k hk).1
    rw [sub_self, Int.toNat_zero] at hle
    exact Nat.le_zero.mp hle
  obtain ⟨i, hi, hmin⟩ : ∃ i : Nat, n ≤ m.rank i ∧ ∀ j < i, ¬n ≤ m.rank j := by
    classical
    exact ⟨Nat.find hex, Nat.find_spec hex, fun j hj => Nat.find_min hex hj⟩
  cases i with
  | zero => omega
  | succ p =>
    have hlt := hmin p (Nat.lt_succ_self p)
    rw [Nat.cast_succ] at hi
    cases hp : m p with
    | none =>
      rw [Map.rank_succ_of_none hp] at hi
      exact absurd hi hlt
    | some v =>
      have hsome : (m p).isSome := by
        rw [hp]
        rfl
      have hsucc := h.rank_succ_of_some hsome
      exact ⟨p, hsome, by omega⟩

/-- The elements that are left behind a shift. -/
theorem Map.Below.ncard_shift {size : Int} (h : m.Below size) {n : Nat}
    (hn : n ≤ {k | (m k).isSome}.ncard) (hpos : 0 < n) :
    ({k | (m.shift n k).isSome}.ncard : Int) = {k | (m k).isSome}.ncard - n := by
  obtain ⟨p, hp, hrank⟩ := h.exists_rank hpos hn
  have hsucc := h.rank_succ_of_some hp
  have himage : (fun k : Int => k + n) '' {k | (m.shift n k).isSome} =
      {k | (m k).isSome} \ {k | k < p + 1 ∧ (m k).isSome} := by
    ext k
    rw [Set.mem_image, Set.mem_sdiff, Set.mem_ofPred_eq, Set.mem_ofPred_eq]
    constructor
    · rintro ⟨j, hj, rfl⟩
      rw [Set.mem_ofPred_eq, Map.shift_eq] at hj
      split at hj
      · rename_i hle
        refine ⟨hj, fun hlt => ?_⟩
        have hmono := h.rank_mono (i := j + n) (j := p) (by omega)
        omega
      · cases hj
    · rintro ⟨hk, hge⟩
      refine ⟨k - n, ?_, Int.sub_add_cancel k n⟩
      have hle : p + 1 ≤ k := by
        by_contra hlt
        exact hge ⟨Int.not_le.mp hlt, hk⟩
      have hmono := h.rank_mono hle
      rw [Set.mem_ofPred_eq, Map.shift_eq, Int.sub_add_cancel, if_pos (by omega)]
      exact hk
  have hinj : Function.Injective fun k : Int => k + n := fun i j hij => by
    have hsum : i + n = j + n := hij
    omega
  have hlow : {k | k < p + 1 ∧ (m k).isSome}.ncard = n := by
    rw [← hrank, ← hsucc]
    rfl
  have hsub : {k | k < p + 1 ∧ (m k).isSome} ⊆ {k | (m k).isSome} := fun k hk => hk.2
  rw [← Set.ncard_image_of_injective _ hinj, himage, Set.ncard_sdiff hsub (h.finite_lt _), hlow]
  omega

/-- All elements are shifted out. -/
theorem Map.Below.shift_eq_none {size : Int} (h : m.Below size) {n : Nat}
    (hn : {k | (m k).isSome}.ncard ≤ n) : m.shift n = fun _ => none := by
  funext j
  rw [Map.shift_eq]
  split
  · rename_i hle
    refine Option.not_isSome_iff_eq_none.mp fun hsome => ?_
    have hlt := h.rank_lt_ncard hsome
    omega
  · rfl

/-- `r` lists the first `n` elements of the map, in their order. -/
structure Firsts (ind : Nat → Int) (value : Nat → Option V) (r : List Nat) (m : Map V) (n : Nat) :
    Prop where
  sorted : r.Pairwise fun p q => ind p < ind q
  mem_iff : ∀ k v, (∃ q ∈ r, ind q = k ∧ value q = v) ↔ m k = some v ∧ m.rank k < n

/-- There is one such list of indices and values. -/
theorem Firsts.unique {ind ind' : Nat → Int} {value value' : Nat → Option V} {r r' : List Nat}
    {n : Nat} (h : Firsts ind value r m n) (h' : Firsts ind' value' r' m n) :
    (r.map fun q => (ind q, value q)) = r'.map fun q => (ind' q, value' q) := by
  have hsorted : (r.map fun q => (ind q, value q)).Pairwise fun x y => x.1 < y.1 :=
    h.sorted.map _ fun _ _ hlt => hlt
  have hsorted' : (r'.map fun q => (ind' q, value' q)).Pairwise fun x y => x.1 < y.1 :=
    h'.sorted.map _ fun _ _ hlt => hlt
  have hperm : (r.map fun q => (ind q, value q)).Perm (r'.map fun q => (ind' q, value' q)) := by
    refine (List.perm_ext_iff_of_nodup ?_ ?_).mpr fun x => ?_
    · exact hsorted.imp fun hlt heq => absurd (congrArg Prod.fst heq) (Int.ne_of_lt hlt)
    · exact hsorted'.imp fun hlt heq => absurd (congrArg Prod.fst heq) (Int.ne_of_lt hlt)
    · obtain ⟨k, v⟩ := x
      simp only [List.mem_map, Prod.mk.injEq]
      rw [h.mem_iff, h'.mem_iff]
  exact hperm.eq_of_pairwise (fun x y _ _ hxy hyx => absurd hxy (Int.lt_asymm hyx)) hsorted hsorted'

theorem Firsts.congr {ind ind' : Nat → Int} {value value' : Nat → Option V} {r : List Nat}
    {n : Nat} (h : Firsts ind value r m n)
    (heq : ∀ q ∈ r, ind' q = ind q ∧ value' q = value q) : Firsts ind' value' r m n := by
  refine ⟨List.Pairwise.imp_of_mem (fun hp hq hlt => ?_) h.sorted, fun k v => ?_⟩
  · rw [(heq _ hp).1, (heq _ hq).1]
    exact hlt
  · rw [← h.mem_iff]
    refine exists_congr fun q => and_congr_right fun hq => ?_
    rw [(heq q hq).1, (heq q hq).2]

namespace Vec

variable {a b : Vec V} {i p : Int} {n : Nat}

/-! ## Shifts to the left -/

/-- The number of elements before the slot `i`. -/
noncomputable def rank (a : Vec V) (i : Int) : Nat := {k | k < i ∧ a.slot k ≠ 0}.ncard

theorem Cells.rank_eq (h : a.Cells m) (i : Int) : a.rank i = m.rank i :=
  congrArg Set.ncard (Set.ext fun k => and_congr_right fun _ => (h.isSome_iff k).symm)

/-- The block has a slot `n` behind each of the first `n` elements; up to the last of these, an
element `n` slots on remains if and only if its new slot was not null; the indices
the loops compute are `int`s. -/
def Shifts (a : Vec V) (n : Nat) : Prop :=
  (∀ i, a.slot i ≠ 0 → a.rank i < n → i + n < a.allocSize) ∧
    (∀ i, a.rank i < n → a.slot (i + n) ≠ 0 → (a.slot i ≠ 0 ↔ n ≤ a.rank (i + n))) ∧
    a.maxIndex + n ≤ 2147483647

/-- The pointer that belongs into the slot `i` behind a shift. -/
noncomputable def target (a : Vec V) (n : Nat) (i : Int) : Nat :=
  if n ≤ a.rank (i + n) then a.slot (i + n) else 0

theorem Cells.target_inj (h : a.Cells m) {j : Int} (hj : a.target n j ≠ 0)
    (heq : a.target n j = a.target n i) : j = i := by
  have hvalue : ∀ k, a.target n k ≠ 0 → a.target n k = a.slot (k + n) := by
    intro k hk
    unfold target at hk ⊢
    split
    · rfl
    · rename_i hlt
      rw [if_neg hlt] at hk
      exact absurd rfl hk
  have hi : a.target n i ≠ 0 := by
    rw [← heq]
    exact hj
  rw [hvalue j hj, hvalue i hi] at heq
  rw [hvalue j hj] at hj
  have hsum := h.inj hj heq
  omega

theorem Keeps.shiftFirst (h : a.Keeps m) (hn : a.Shifts n) (hp : (m p).isSome)
    (hrank : m.rank p + 1 = n) (k fuel : Nat)
    (hmoved : Moved a b a.firstIndex i (a.target n)) (hlo : a.firstIndex ≤ i) (h0 : 0 ≤ i)
    (hk : i + k = p + 1) (hfuel : k < fuel) :
    ∃ c, shiftFirst n fuel b i (m.rank i) = some (c, p + 1, a.between k i) ∧
      Moved a c a.firstIndex (p + 1) (a.target n) := by
  obtain ⟨hroom, hstep, hint⟩ := hn
  have hpmax := (h.bounds p hp).2
  have hlt := h.maxIndex_lt
  induction k generalizing b i fuel with
  | zero =>
    rw [Nat.cast_zero, Int.add_zero] at hk
    subst hk
    obtain ⟨fuel, rfl⟩ := Nat.exists_eq_succ_of_ne_zero (Nat.ne_of_gt hfuel)
    have hdone : ¬((m.rank (p + 1) : Int) < n) := by
      rw [h.below.rank_succ_of_some hp, hrank]
      exact Int.lt_irrefl _
    rw [Vec.shiftFirst, if_neg hdone]
    exact ⟨b, rfl, hmoved⟩
  | succ k ih =>
    rw [Nat.cast_succ] at hk
    obtain ⟨fuel, rfl⟩ := Nat.exists_eq_succ_of_ne_zero (Nat.ne_of_gt (Nat.zero_lt_of_lt hfuel))
    have hbelow : m.rank i < n := by
      have hmono := h.below.rank_mono (i := i) (j := p) (by omega)
      omega
    have hload : b.load i = some (a.slot i) := by
      rw [hmoved.load, if_neg (by omega), h.load_eq h0 (by omega)]
    have hnext : toInt (i + 1) = some (i + 1) := if_pos (by omega)
    have harank : a.rank i < n := by rwa [h.rank_eq]
    rw [Vec.shiftFirst, if_pos (Int.ofNat_lt.mpr hbelow), hload]
    simp only [Option.bind_eq_bind, Option.bind_some, hnext]
    by_cases hslot : a.slot i = 0
    · have htarget : a.target n i = 0 := by
        unfold target
        split
        · rename_i hle
          by_contra hne
          exact (hstep i harank hne).mpr hle hslot
        · rfl
      have hnull : a.load i = some 0 := by rw [h.load_eq h0 (by omega), hslot]
      have hsame : m.rank (i + 1) = m.rank i :=
        Map.rank_succ_of_none ((h.cell i).null hslot)
      obtain ⟨c, hfirst, hmoved'⟩ := ih fuel (hmoved.skip hnull htarget) (by omega) (by omega)
        (by omega) (by omega)
      rw [hsame] at hfirst
      simp only [hslot, if_true, between, ne_eq, not_true_eq_false, if_false]
      exact ⟨c, hfirst, hmoved'⟩
    · have htarget : a.target n i = a.slot (i + n) := by
        unfold target
        split
        · rfl
        · rename_i hle
          by_contra hne
          exact hle ((hstep i harank (Ne.symm hne)).mp hslot)
      have hroom' := hroom i hslot harank
      have hrange : 0 ≤ i ∧ i < a.size := by
        rw [h.size]
        omega
      have hsum : toInt (i + n) = some (i + n) := if_pos (by omega)
      have hload' : b.load (i + n) = some (a.target n i) := by
        rw [hmoved.load, if_neg (by omega), htarget, h.load_eq (by omega) hroom']
      have hmax : ¬i > b.maxIndex := by
        rw [hmoved.same.2.2.2.2.2.1]
        omega
      obtain ⟨b', hmove, hmoved'⟩ := hmoved.move hlo hrange fun j _ hj hne heq => by
        have hji := h.target_inj hne heq
        omega
      obtain ⟨c, hfirst, hmoved''⟩ := ih fuel hmoved' (by omega) (by omega) (by omega) (by omega)
      rw [h.below.rank_succ_of_some ((h.isSome_iff i).mpr hslot), Nat.cast_succ] at hfirst
      simp only [hslot, if_false, hmax, hsum, Option.bind_some, hload', hmove, hfirst, between,
        ne_eq, not_false_eq_true, if_true]
      exact ⟨c, rfl, hmoved''⟩

theorem Keeps.shiftRest (h : a.Keeps m) (hn : a.Shifts n) (hpos : 0 < n) (k : Nat)
    (hmoved : Moved a b a.firstIndex i (a.target n)) (hlo : a.firstIndex ≤ i) (h0 : 0 ≤ i)
    (hrank : n ≤ m.rank i) (hk : i + k = a.maxIndex + 1) :
    ∃ c, shiftRest n k b i = some c ∧
      Moved a c a.firstIndex (a.maxIndex + 1) (a.target n) := by
  have hint := hn.2.2
  have hlt := h.maxIndex_lt
  induction k generalizing b i with
  | zero =>
    rw [Nat.cast_zero, Int.add_zero] at hk
    rw [← hk]
    exact ⟨b, rfl, hmoved⟩
  | succ k ih =>
    rw [Nat.cast_succ] at hk
    have hnext : toInt (i + 1) = some (i + 1) := if_pos (by omega)
    have hsum : toInt (i + n) = some (i + n) := if_pos (by omega)
    have hrange : 0 ≤ i ∧ i < a.size := by
      rw [h.size]
      omega
    have htarget : a.target n i = a.slot (i + n) := by
      have hmono := h.below.rank_mono (i := i) (j := i + n) (by omega)
      rw [target, h.rank_eq, if_pos (by omega)]
    have hpointer : i + n ≤ b.maxIndex → b.load (i + n) = some (a.target n i) := by
      intro hmax
      rw [hmoved.same.2.2.2.2.2.1] at hmax
      rw [htarget, hmoved.load, if_neg (by omega), h.load_eq (by omega) (by omega)]
    have hnull : ¬i + n ≤ b.maxIndex → a.target n i = 0 := by
      intro hmax
      rw [hmoved.same.2.2.2.2.2.1] at hmax
      rw [htarget]
      by_contra hne
      exact hmax (h.bounds _ ((h.isSome_iff _).mpr hne)).2
    obtain ⟨b', hmove, hmoved'⟩ := hmoved.move hlo hrange fun j _ hj hne heq => by
      have hji := h.target_inj hne heq
      omega
    have hmono := h.below.rank_mono (i := i) (j := i + 1) (by omega)
    obtain ⟨c, hrest, hmoved''⟩ := ih hmoved' (by omega) (by omega) (by omega) (by omega)
    rw [Vec.shiftRest]
    by_cases hmax : i + n ≤ b.maxIndex
    · simp only [hsum, Option.bind_eq_bind, Option.bind_some, hmax, if_true, hpointer hmax, hmove,
        hnext]
      exact ⟨c, hrest, hmoved''⟩
    · rw [hnull hmax] at hmove
      simp only [hsum, Option.bind_eq_bind, Option.bind_some, hmax, if_false, hmove, hnext]
      exact ⟨c, hrest, hmoved''⟩

/-- Behind the loops the slots hold the shifted map. -/
theorem Keeps.cells_shift (h : a.Keeps m) {c : Vec V}
    (hmoved : Moved a c a.firstIndex (a.maxIndex + 1) (a.target n)) (hpos : 0 < n) :
    c.Cells (m.shift n) := by
  have hshift : ∀ j, m.shift n j = if a.target n j = 0 then none else m (j + n) := by
    intro j
    rw [Map.shift_eq, target, h.rank_eq]
    split
    · split
      · rename_i hzero
        exact (h.cell _).null hzero
      · rfl
    · rfl
  refine hmoved.cells h.toCells (fun j _ _ => ⟨fun hzero => ?_, fun hne => ?_⟩) fun j hj => ⟨?_, ?_⟩
  · rw [hshift, if_pos hzero]
  · rw [hshift, if_neg hne]
    have htarget : a.target n j = a.slot (j + n) := by
      unfold target at hne ⊢
      split
      · rfl
      · rename_i hlt
        rw [if_neg hlt] at hne
        exact absurd rfl hne
    rw [htarget] at hne ⊢
    obtain ⟨hlt, -, hx⟩ := (h.cell (j + n)).element hne
    exact ⟨hlt, hx⟩
  · by_contra hne
    have hbounds := h.bounds j ((h.isSome_iff j).mpr hne)
    omega
  · -- the slots before the first element stay null, and so do those behind the last
    rw [Map.shift_eq]
    split
    · rename_i hle
      refine Option.not_isSome_iff_eq_none.mp fun hsome => ?_
      have hbounds := h.bounds _ hsome
      have hfew := Map.rank_le (i := j + n) fun k hk => (h.bounds k hk).1
      omega
    · rfl

/-- The bookkeeping of a shift that leaves elements. -/
theorem Keeps.shifted (h : a.Keeps m) {c : Vec V}
    (hmoved : Moved a c a.firstIndex (a.maxIndex + 1) (a.target n)) (hpos : 0 < n)
    (hn : n < {k | (m k).isSome}.ncard) :
    ∃ d, c.shifted n = some d ∧ d.Keeps (m.shift n) ∧ d.ind = c.ind ∧ d.value = c.value := by
  have hcells := h.cells_shift hmoved hpos
  have hcount := h.below.ncard_shift hn.le hpos
  obtain ⟨-, -, -, halloc, -, hmax, hnum⟩ := hmoved.same
  have hne : ¬a.isEmpty = true := by
    rw [isEmpty, decide_eq_true_iff, h.count]
    omega
  obtain ⟨h0, hsome⟩ := h.ends_of_ne hne
  have hlt := h.maxIndex_lt
  have htop : m.rank a.maxIndex + 1 = {k | (m k).isSome}.ncard := by
    rw [← h.below.rank_succ_of_some hsome]
    exact Map.rank_eq_ncard fun k hk => Int.lt_add_one_iff.mpr (h.bounds k hk).2
  have hold : ∀ k, (m.shift n k).isSome → n ≤ m.rank (k + n) ∧ (m (k + n)).isSome := by
    intro k hk
    rw [Map.shift_eq] at hk
    split at hk
    · rename_i hle
      exact ⟨hle, hk⟩
    · cases hk
  have hbounds : ∀ k, (m.shift n k).isSome → 0 ≤ k ∧ k ≤ a.maxIndex - n := by
    intro k hk
    have hk' := (h.bounds _ (hold k hk).2).2
    exact ⟨(hcells.below k hk).1, by omega⟩
  have hroom : a.maxIndex - n < c.allocSize := by
    rw [halloc]
    omega
  have hcells' : Cells { c with
      numElements := c.numElements - n, maxIndex := c.maxIndex - n } (m.shift n) :=
    hcells.congr rfl rfl rfl rfl rfl rfl
  obtain ⟨t, hscan, h0t, hbelow⟩ := hcells'.scan_up (Int.le_refl 0) hroom hbounds
  rw [sub_zero, ← hmax] at hscan
  unfold Vec.shifted
  have hleft : c.numElements - n ≠ 0 := by
    rw [hnum, h.count]
    omega
  simp only [hleft, if_false, hscan, Option.bind_eq_bind, Option.bind_some]
  refine ⟨_, rfl, ⟨hcells.congr rfl rfl rfl rfl rfl rfl, fun k hk => ?_, Or.inr ⟨h0t, ?_⟩, ?_⟩, rfl,
    rfl⟩
  · rw [hmax]
    exact ⟨hbelow k hk, (hbounds k hk).2⟩
  · rw [hmax, Map.shift_eq, Int.sub_add_cancel, if_pos (by omega)]
    exact hsome
  · rw [hcount, ← h.count, ← hnum]

/-- The first `n` elements, in the slots up to that of the last of them. -/
theorem Keeps.firsts (h : a.Keeps m) (hlo : a.firstIndex ≤ p)
    (hrank : ∀ k, (m k).isSome → (k < p ↔ m.rank k < n)) :
    Firsts a.ind a.value (a.between (p - a.firstIndex).toNat a.firstIndex) m n := by
  refine ⟨h.toCells.between_pairwise _ _, fun k v => ?_⟩
  constructor
  · rintro ⟨q, hq, rfl, rfl⟩
    obtain ⟨hne, j, hj, hjp, rfl⟩ := mem_between.mp hq
    obtain ⟨-, hind, hm⟩ := (h.cell j).element hne
    rw [hind]
    exact ⟨hm, (hrank j ((h.isSome_iff j).mpr hne)).mp (by omega)⟩
  · rintro ⟨hm, hlt⟩
    have hsome : (m k).isSome := by
      rw [hm]
      rfl
    have hkp := (hrank k hsome).mpr hlt
    have hle := (h.bounds k hsome).1
    have hne := (h.isSome_iff k).mp hsome
    obtain ⟨-, hind, hm'⟩ := (h.cell k).element hne
    refine ⟨a.slot k, mem_between.mpr ⟨hne, k, hle, by omega, rfl⟩, hind, ?_⟩
    rw [hm] at hm'
    exact (Option.some.inj hm').symm

/-- `array_shift` under the conditions that its slots meet. -/
theorem Keeps.arrayShift (h : a.Keeps m) (hpos : 0 < n) (hne : ¬a.isEmpty = true) (dispose : Bool)
    (hn : (n : Int) + 1 ≤ 2147483647)
    (hfew : a.numElements ≤ n → a.maxIndex + 1 ≤ 2147483647)
    (hmany : n < a.numElements → a.Shifts n) :
    ∃ b r, a.arrayShift n dispose = some (b, if dispose then [] else r) ∧ b.Keeps (m.shift n) ∧
      Firsts b.ind b.value r m n := by
  obtain ⟨h0, hsome⟩ := h.ends_of_ne hne
  obtain ⟨hle, -⟩ := h.bounds _ hsome
  have hlt := h.maxIndex_lt
  have hint : toInt ((n : Int) + 1) = some ((n : Int) + 1) := if_pos (by omega)
  unfold Vec.arrayShift
  rw [if_neg (by simp only [not_or, not_le]; exact ⟨hne, by omega⟩), hint]
  simp only [Option.bind_eq_bind, Option.bind_some]
  by_cases hall : (n : Int) ≥ a.numElements
  · rw [if_pos hall]
    obtain ⟨b, htake, hkeeps, hind, hvalue⟩ := h.takeAll hne (hfew hall)
    have hcount : {k | (m k).isSome}.ncard ≤ n := by
      have hcount := h.count
      omega
    refine ⟨b, _, ?_, ?_, (h.firsts (p := a.maxIndex + 1) (n := n) (by omega) fun k hk => ?_).congr
      fun q _ => ⟨congrFun hind q, congrFun hvalue q⟩⟩
    · rw [htake, Option.bind_some]
    · rw [h.below.shift_eq_none hcount]
      exact hkeeps
    · have hk' := (h.bounds k hk).2
      have hk'' := h.below.rank_lt_ncard hk
      exact iff_of_true (by omega) (by omega)
  · rw [if_neg hall]
    have hshifts := hmany (Int.not_le.mp hall)
    have hcount : n < {k | (m k).isSome}.ncard := by
      have hcount := h.count
      omega
    obtain ⟨p, hp, hrank⟩ := h.below.exists_rank hpos hcount.le
    obtain ⟨hlop, hpmax⟩ := h.bounds p hp
    have hn' := hshifts.2.2
    have hmod : Int.bmod a.firstIndex 4294967296 = a.firstIndex :=
      Int.bmod_eq_of_le (by omega) (by omega)
    have hstart : m.rank a.firstIndex = 0 := by
      have hle := Map.rank_le (i := a.firstIndex) fun k hk => (h.bounds k hk).1
      rw [sub_self, Int.toNat_zero] at hle
      exact Nat.le_zero.mp hle
    obtain ⟨b, hfirst, hmoved⟩ := h.shiftFirst hshifts hp hrank (p + 1 - a.firstIndex).toNat
      (a.allocSize + 1 - a.firstIndex).toNat (Moved.refl a a.firstIndex _) (Int.le_refl _) h0
      (by omega) (by omega)
    rw [hstart, Nat.cast_zero] at hfirst
    have hpast : n ≤ m.rank (p + 1) := by
      rw [h.below.rank_succ_of_some hp, hrank]
    have hbmax : b.maxIndex = a.maxIndex := hmoved.same.2.2.2.2.2.1
    obtain ⟨c, hrest, hmoved'⟩ := h.shiftRest hshifts hpos (a.maxIndex + 1 - (p + 1)).toNat hmoved
      (by omega) (by omega) hpast (by omega)
    obtain ⟨d, hshifted, hkeeps, hind, hvalue⟩ := h.shifted hmoved' hpos hcount
    have hlow : ∀ k, (m k).isSome → (k < p + 1 ↔ m.rank k < n) := by
      intro k hk
      constructor
      · intro hkp
        have hmono := h.below.rank_mono (i := k) (j := p) (by omega)
        omega
      · intro hkn
        by_contra hge
        have hmono := h.below.rank_mono (i := p + 1) (j := k) (by omega)
        omega
    refine ⟨d, _, ?_, hkeeps, (h.firsts (p := p + 1) (n := n) (by omega) hlow).congr
      fun q hq => ⟨?_, congrFun (hvalue.trans hmoved'.same.1) q⟩⟩
    · rw [hmod]
      simp only [hfirst, Option.bind_some, hbmax, hrest, hshifted]
    · -- the elements that left the array were not renumbered
      obtain ⟨hqne, k, hk, hkp, rfl⟩ := mem_between.mp hq
      have hksome := (h.isSome_iff k).mpr hqne
      have hkn := (hlow k hksome).mp (by omega)
      rw [hind]
      refine hmoved'.other _ fun j _ _ hj heq => ?_
      unfold target at hj heq
      split at heq
      · rename_i hle'
        have hjk := h.inj (by rw [heq]; exact hqne) heq
        rw [hjk, h.rank_eq] at hle'
        omega
      · exact hqne heq.symm

/-! ## Shifts to the right -/

/-- The slots above `i` are raised by `n`. -/
structure Raised (a b : Vec V) (n i : Int) : Prop where
  same : b.value = a.value ∧ b.brk = a.brk ∧ b.size = a.size ∧ b.allocSize = a.allocSize ∧
    b.firstIndex = a.firstIndex ∧ b.maxIndex = a.maxIndex ∧ b.numElements = a.numElements
  load : ∀ j, 0 ≤ j → j < a.size → b.load j =
    some (if i < j then if i + n < j then a.slot (j - n) else 0 else a.slot j)
  ind : ∀ j, i < j → a.slot j ≠ 0 → b.ind (a.slot j) = j + n
  other : ∀ p, (∀ j, i < j → a.slot j ≠ 0 → a.slot j ≠ p) → b.ind p = a.ind p

theorem Raised.start (h : a.Keeps m) (n : Nat) : Raised a a n a.maxIndex := by
  have hbehind : ∀ j, a.maxIndex < j → a.slot j = 0 := by
    intro j hj
    by_contra hne
    have hle := (h.bounds j ((h.isSome_iff j).mpr hne)).2
    omega
  refine ⟨⟨rfl, rfl, rfl, rfl, rfl, rfl, rfl⟩, fun j h0 hj => ?_, fun j hj hne => ?_, fun _ _ => rfl⟩
  · rw [h.size] at hj
    rw [h.load_eq h0 hj]
    by_cases hmax : a.maxIndex < j
    · rw [if_pos hmax, hbehind j hmax]
      split
      · rw [hbehind _ (by omega)]
      · rfl
    · rw [if_neg hmax]
  · exact absurd (hbehind j hj) hne

/-- One round of the loop. -/
theorem Raised.step (ha : a.Cells m) {n : Int} (h : Raised a b n i) (hpos : 0 < n) (h0 : 0 ≤ i)
    (hi : i + n < a.size) : ∃ b' c, b.load i = some (a.slot i) ∧
      b.move (i + n) (a.slot i) = some b' ∧ b'.store i 0 = some c ∧ Raised a c n (i - 1) := by
  obtain ⟨hvalue, hbrk, hsize, hrest⟩ := h.same
  have hload := h.load i h0 (by omega)
  rw [if_neg (lt_irrefl i)] at hload
  have hto : 0 ≤ i + n ∧ i + n < b.size := by omega
  have hmove : b.move (i + n) (a.slot i) =
      some (if a.slot i ≠ 0 then (b.put (i + n) (a.slot i)).setInd (a.slot i) (i + n)
        else b.put (i + n) (a.slot i)) := by
    rw [Vec.move, store_eq hto]
    rfl
  have hload' : ∀ j, ((b.put (i + n) (a.slot i)).put i 0).load j =
      if j = i then some 0 else if j = i + n then some (a.slot i) else b.load j := by
    intro j
    rw [load_put (by exact ⟨h0, lt_trans (by omega) hto.2⟩), load_put hto]
  have hloads : ∀ j, 0 ≤ j → j < a.size → ((b.put (i + n) (a.slot i)).put i 0).load j =
      some (if i - 1 < j then if i - 1 + n < j then a.slot (j - n) else 0 else a.slot j) := by
    intro j hj0 hj
    rw [hload']
    by_cases hji : j = i
    · rw [if_pos hji, if_pos (by omega), if_neg (by omega)]
    · rw [if_neg hji]
      by_cases hjn : j = i + n
      · rw [if_pos hjn, if_pos (by omega), if_pos (by omega), hjn, Int.add_sub_cancel]
      · rw [if_neg hjn, h.load j hj0 hj]
        by_cases hlt : i < j
        · have hlt' : i - 1 < j := by omega
          rw [if_pos hlt, if_pos hlt']
          refine congrArg some (if_congr ?_ rfl rfl)
          omega
        · have hge : ¬i - 1 < j := by omega
          rw [if_neg hlt, if_neg hge]
  refine ⟨_, _, hload, hmove, store_eq ?_, ?_⟩
  · split
    · exact ⟨h0, lt_trans (by omega) hto.2⟩
    · exact ⟨h0, lt_trans (by omega) hto.2⟩
  · by_cases hslot : a.slot i = 0
    · rw [if_neg (not_not.mpr hslot)]
      refine ⟨⟨hvalue, hbrk, hsize, hrest⟩, hloads, fun j hj hne => ?_, fun p hp => ?_⟩
      · have hji : j ≠ i := by
          rintro rfl
          exact hne hslot
        exact h.ind j (by omega) hne
      · exact h.other p fun j hj hne => hp j (by omega) hne
    · rw [if_pos hslot]
      refine ⟨⟨hvalue, hbrk, hsize, hrest⟩, hloads, fun j hj hne => ?_, fun p hp => ?_⟩
      · by_cases hji : j = i
        · subst hji
          exact Function.update_self _ _ _
        · refine (Function.update_of_ne (fun heq => hji (ha.inj hne heq)) _ _).trans ?_
          exact h.ind j (by omega) hne
      · refine (Function.update_of_ne (hp i (by omega) hslot).symm _ _).trans ?_
        exact h.other p fun j hj hne => hp j (by omega) hne

theorem Raised.rshiftAll (ha : a.Cells m) {n : Int} (hpos : 0 < n) (k : Nat) (h : Raised a b n i)
    (hi : i + n < a.size) (hk : i + 1 = k) :
    ∃ c, rshiftAll n k b i = some c ∧ Raised a c n (-1) := by
  induction k generalizing b i with
  | zero =>
    have hneg : i = -1 := by
      rw [Nat.cast_zero] at hk
      omega
    rw [hneg] at h
    exact ⟨b, rfl, h⟩
  | succ k ih =>
    rw [Nat.cast_succ] at hk
    obtain ⟨b', c, hload, hmove, hstore, hraised⟩ := h.step ha hpos (by omega) hi
    obtain ⟨d, hrest, hfinal⟩ := ih hraised (by omega) (by omega)
    rw [Vec.rshiftAll, hload]
    simp only [Option.bind_eq_bind, Option.bind_some, hmove, hstore]
    exact ⟨d, hrest, hfinal⟩

/-- Behind the loop the slots hold the raised map. -/
theorem Raised.cells (ha : a.Cells m) {n : Int} (hpos : 0 < n) (h : Raised a b n (-1))
    (hroom : ∀ k, (m k).isSome → k + n < a.allocSize) : b.Cells fun j => m (j - n) := by
  obtain ⟨hvalue, hbrk, hsize, halloc, -⟩ := h.same
  have hslot : ∀ j, b.slot j = if 0 ≤ j ∧ j < a.size then a.slot (j - n) else 0 := by
    intro j
    by_cases hj : 0 ≤ j ∧ j < a.size
    · rw [if_pos hj, slot, h.load j hj.1 hj.2, if_pos (by omega)]
      by_cases hjn : -1 + n < j
      · rw [if_pos hjn]
        rfl
      · rw [if_neg hjn]
        exact (slot_eq_zero (by omega)).symm
    · rw [if_neg hj]
      exact slot_eq_zero (by rw [hsize]; exact hj)
  refine ⟨?_, ?_, ?_, fun j h0 hj => ?_, fun j => ?_⟩
  · rw [hsize, halloc]
    exact ha.size
  · rw [halloc]
    exact ha.alloc
  · rw [hbrk]
    exact ha.brk
  · rw [halloc, ← ha.size] at hj
    rw [h.load j h0 hj]
    rfl
  · by_cases hj : 0 ≤ j ∧ j < a.size
    · have hj' : b.slot j = a.slot (j - n) := by rw [hslot, if_pos hj]
      have hcell := ha.cell (j - n)
      refine ⟨fun hzero => ?_, fun hne => ?_⟩
      · rw [hj'] at hzero
        exact hcell.null hzero
      · rw [hj'] at hne ⊢
        obtain ⟨hlt, -, hm⟩ := hcell.element hne
        have hpos' := (ha.range hne).1
        rw [hbrk, hvalue, h.ind (j - n) (by omega) hne]
        exact ⟨hlt, Int.sub_add_cancel j n, hm⟩
    · have hj' : b.slot j = 0 := by rw [hslot, if_neg hj]
      refine ⟨fun _ => Option.not_isSome_iff_eq_none.mp fun hsome => ?_, fun hne => absurd hj' hne⟩
      have hbelow := ha.below _ hsome
      have hfits := hroom _ hsome
      rw [ha.size] at hj
      omega

/-- The slots of the block in which `array_rshift` shifts. -/
def room (a : Vec V) (n : Int) : Int := if n ≥ a.allocSize then a.expandSize n else a.allocSize

theorem ncard_raised (m : Map V) (n : Int) :
    {k | (m (k - n)).isSome}.ncard = {k | (m k).isSome}.ncard := by
  have himage : (fun k : Int => k + n) '' {k | (m k).isSome} = {k | (m (k - n)).isSome} := by
    ext k
    rw [Set.mem_image, Set.mem_ofPred_eq]
    constructor
    · rintro ⟨j, hj, rfl⟩
      rw [Int.add_sub_cancel]
      exact hj
    · intro hk
      exact ⟨k - n, hk, Int.sub_add_cancel k n⟩
  rw [← himage]
  exact Set.ncard_image_of_injective _ fun i j hij => by
    have hsum : i + n = j + n := hij
    omega

/-- The loop of `array_rshift` and the new bounds. -/
theorem Keeps.raised (h : a.Keeps m) {n : Int} (hpos : 0 < n) (hroom : a.maxIndex + n < a.allocSize) :
    ∃ c, rshiftAll n (a.maxIndex + 1).toNat a a.maxIndex = some c ∧
      (c.Cells fun j => m (j - n)) ∧ c.firstIndex = a.firstIndex ∧ c.maxIndex = a.maxIndex ∧
      c.numElements = a.numElements ∧ c.allocSize = a.allocSize := by
  have hmax : -1 ≤ a.maxIndex := by
    rcases h.ends with ⟨hmax, -⟩ | ⟨-, hsome⟩
    · exact Int.le_of_eq hmax.symm
    · have hge := (h.below _ hsome).1
      omega
  lift n to Nat using hpos.le
  obtain ⟨c, hall, hraised⟩ := (Raised.start h n).rshiftAll h.toCells hpos (a.maxIndex + 1).toNat
    (by rw [h.size]; exact hroom) (by omega)
  obtain ⟨-, -, -, halloc, hfirst, hmaxi, hnum⟩ := hraised.same
  refine ⟨c, hall, hraised.cells h.toCells hpos fun k hk => ?_, hfirst, hmaxi, hnum, halloc⟩
  have hle := (h.bounds k hk).2
  omega

/-- A shift to the right within the block. -/
theorem Keeps.arrayRshift_of_lt (h : a.Keeps m) {n : Int} {s : Option V}
    (hne : ¬(a.isEmpty = true ∧ s = none)) (hpos : 0 < n) (hlt : n < a.allocSize)
    (hroom : a.maxIndex + n < a.allocSize) :
    ∃ b, a.arrayRshift n s = some (b, b.numElements) ∧ b.Keeps (m.rshift n s) := by
  obtain ⟨c, hall, hcells, hfirst, hmax, hnum, halloc⟩ := h.raised hpos hroom
  have hbelow : ∀ k, (m (k - n)).isSome → a.firstIndex ≤ k - n ∧ k - n ≤ a.maxIndex :=
    fun k hk => h.bounds _ hk
  unfold Vec.arrayRshift
  rw [if_neg hne, if_neg (Int.not_le.mpr hpos), if_neg (Int.not_le.mpr hlt)]
  simp only [Option.bind_eq_bind, Option.bind_some, hall]
  cases s with
  | none =>
    have hshift : m.rshift n none = fun j => m (j - n) := by
      rw [Map.rshift, if_neg (Int.not_le.mpr hpos)]
      simp
    obtain ⟨h0, hsome⟩ := h.ends_of_ne fun hempty => hne ⟨hempty, rfl⟩
    simp only [ne_eq, not_true_eq_false, if_false]
    rw [hshift]
    have hfirst0 : 0 ≤ c.firstIndex + n := by omega
    refine ⟨_, rfl, hcells.congr rfl rfl rfl rfl rfl rfl, fun k hk => ?_, Or.inr ⟨hfirst0, ?_⟩, ?_⟩
    · have hk' := hbelow k hk
      have hbounds : c.firstIndex + n ≤ k ∧ k ≤ c.maxIndex + n := by omega
      exact hbounds
    · rw [hmax, Int.add_sub_cancel]
      exact hsome
    · rw [hnum, h.count, ncard_raised]
  | some w =>
    have hshift : m.rshift n (some w) =
        Function.update (fun j => m (j - n)) 0 (some (some w)) := by
      rw [Map.rshift, if_neg (Int.not_le.mpr hpos)]
      funext j
      by_cases hj : j = 0
      · subst hj
        simp
      · simp [hj]
    have hzero : m (0 - n) = none := by
      refine Option.not_isSome_iff_eq_none.mp fun hsome => ?_
      have hge := (h.below _ hsome).1
      omega
    have hin : 0 ≤ (0 : Int) ∧ 0 < c.allocSize := by
      rw [halloc]
      exact ⟨Int.le_refl 0, by omega⟩
    have hcells' := (hcells.arrayCreateElement 0 (some w)).put (p := c.brk) (x := some (some w)) hin
      (fun hnull => absurd hnull (Nat.ne_of_gt hcells.brk)) fun _ =>
        ⟨Nat.lt_succ_self _, Function.update_self _ _ _,
          congrArg some (Function.update_self c.brk (some w) c.value).symm⟩
    have hrange : 0 ≤ (0 : Int) ∧ 0 < c.size := by
      rw [hcells.size]
      exact hin
    have hcount : c.numElements + 1 =
        {k | (Function.update (fun j => m (j - n)) 0 (some (some w)) k).isSome}.ncard := by
      rw [ncard_update_some hcells.below hzero, ncard_raised, hnum, h.count]
    simp only [ne_eq, reduceCtorEq, not_false_eq_true, if_true]
    rw [store_eq (by exact hrange), hshift]
    simp only [Option.bind_some]
    by_cases hone : c.numElements + 1 = 1
    · rw [if_pos (by exact hone)]
      have hempty : a.isEmpty = true := by
        rw [isEmpty, decide_eq_true_iff]
        omega
      have hm := h.isEmpty_iff.mp hempty
      refine ⟨_, rfl, hcells'.congr rfl rfl rfl rfl rfl rfl, fun k hk => ?_, Or.inr ⟨Int.le_refl 0, ?_⟩,
        hcount⟩
      · have hk0 : k = 0 := by
          by_contra hk0
          rw [Function.update_of_ne hk0, hm] at hk
          cases hk
        subst hk0
        exact ⟨Int.le_refl 0, Int.le_refl 0⟩
      · rw [Function.update_self]
        rfl
    · rw [if_neg (by exact hone)]
      have hnonempty : ¬a.isEmpty = true := by
        rw [isEmpty, decide_eq_true_iff]
        omega
      obtain ⟨h0, hsome⟩ := h.ends_of_ne hnonempty
      have hmax0 := (h.below _ hsome).1
      refine ⟨_, rfl, hcells'.congr rfl rfl rfl rfl rfl rfl, fun k hk => ?_, Or.inr ⟨Int.le_refl 0, ?_⟩,
        hcount⟩
      · have hbounds : 0 ≤ k ∧ k ≤ c.maxIndex + n := by
          rw [hmax]
          by_cases hk0 : k = 0
          · omega
          · rw [Function.update_of_ne hk0] at hk
            have hk' := hbelow k hk
            omega
        exact hbounds
      · have htop : (Function.update (fun j => m (j - n)) 0 (some (some w))
            (c.maxIndex + n)).isSome := by
          rw [hmax, Function.update_of_ne (by omega), Int.add_sub_cancel]
          exact hsome
        exact htop

/-- `array_rshift` if the block is long enough; it returns the number of elements. -/
theorem Keeps.arrayRshift (h : a.Keeps m) (n : Int) (s : Option V) (hint : n ≤ 2147483647)
    (hroom : 0 < n → a.maxIndex + n < a.room n) :
    ∃ b, a.arrayRshift n s = some (b, b.numElements) ∧ b.Keeps (m.rshift n s) := by
  by_cases hnone : a.isEmpty = true ∧ s = none
  · obtain ⟨hempty, rfl⟩ := hnone
    have hm := h.isEmpty_iff.mp hempty
    have hzero : a.numElements = 0 := of_decide_eq_true hempty
    have hshift : m.rshift n none = m := by
      rw [hm, Map.rshift]
      simp
    rw [Vec.arrayRshift, if_pos ⟨hempty, rfl⟩, hshift]
    exact ⟨a, by rw [hzero], h⟩
  · by_cases hn : n ≤ 0
    · rw [Vec.arrayRshift, if_neg hnone, if_pos hn, Map.rshift, if_pos hn]
      exact ⟨a, rfl, h⟩
    · have hpos : 0 < n := Int.not_le.mp hn
      have hfits := hroom hpos
      unfold room at hfits
      by_cases hge : n ≥ a.allocSize
      · rw [if_pos hge] at hfits
        obtain ⟨hexpand, hlt, hcells⟩ := h.toCells.arrayExpand hge (by omega)
        have hrshift : a.arrayRshift n s =
            (a.cleared (a.expandSize n) (a.expandSize n)).arrayRshift n s := by
          unfold Vec.arrayRshift
          rw [if_neg hnone, if_neg hn, if_pos hge, hexpand]
          refine Eq.trans ?_ (if_neg hnone).symm
          refine Eq.trans ?_ (if_neg hn).symm
          exact (if_neg (Int.not_le.mpr hlt)).symm
        rw [hrshift]
        exact (h.cleared hcells).arrayRshift_of_lt hnone hpos hlt hfits
      · rw [if_neg hge] at hfits
        exact h.arrayRshift_of_lt hnone hpos (Int.not_le.mp hge) hfits

end Vec

end Basht.Arrays
