import Basht.Arrays.Slots
import Mathlib.Tactic.Ring

/-!
# Vectors are finite maps

A vector that holds a map (`Vec.Keeps`), and what the operations on single elements, the
growth of the block, `array_flush` and `array_copy` do to it.
-/

namespace Basht.Arrays.Vec

variable {V : Type} {a b : Vec V} {m : Map V} {i : Int}

/-- The vector holds the map `m`. `first_index` is a lower bound only: after the last element
of an array is removed, it is 0. -/
structure Keeps (a : Vec V) (m : Map V) : Prop extends Cells a m where
  bounds : ∀ i, (m i).isSome → a.firstIndex ≤ i ∧ i ≤ a.maxIndex
  ends : (a.maxIndex = -1 ∧ a.firstIndex ≤ 0) ∨ (0 ≤ a.firstIndex ∧ (m a.maxIndex).isSome)
  count : a.numElements = {k | (m k).isSome}.ncard

/-- The bookkeeping does not touch the slots. -/
theorem Cells.congr (h : a.Cells m) (hind : b.ind = a.ind) (hvalue : b.value = a.value)
    (hbrk : b.brk = a.brk) (helements : b.elements = a.elements) (hsize : b.size = a.size)
    (halloc : b.allocSize = a.allocSize) : b.Cells m := by
  obtain ⟨bind, bvalue, bbrk, belements, bsize, bfirst, bmax, bnum, balloc⟩ := b
  simp only at hind hvalue hbrk helements hsize halloc
  subst hind hvalue hbrk helements hsize halloc
  exact ⟨h.size, h.alloc, h.brk, h.full, fun i => ⟨(h.cell i).null, (h.cell i).element⟩⟩

theorem keeps_arrayCreate : (arrayCreate : Vec V).Keeps fun _ => none := by
  have hslot : ∀ i, (arrayCreate : Vec V).slot i = 0 := by
    intro i
    refine slot_eq_zero ?_
    rintro ⟨h0, hi⟩
    exact absurd (Int.lt_of_le_of_lt h0 hi) (Int.lt_irrefl 0)
  refine ⟨⟨rfl, ⟨Int.le_refl 0, by simp [arrayCreate]⟩, Nat.one_pos, fun i h0 hi => ?_, fun i => ?_⟩,
    fun i hi => ?_, Or.inl ⟨rfl, by simp [arrayCreate]⟩, ?_⟩
  · exact absurd (Int.lt_of_le_of_lt h0 hi) (Int.lt_irrefl 0)
  · exact ⟨fun _ => rfl, fun hne => absurd (hslot i) hne⟩
  · cases hi
  · simp [arrayCreate]

namespace Keeps

theorem isEmpty_iff (h : a.Keeps m) : a.isEmpty = true ↔ m = fun _ => none := by
  rw [isEmpty, decide_eq_true_iff, h.count, Int.natCast_eq_zero,
    Set.ncard_eq_zero h.below.finite, Set.eq_empty_iff_forall_notMem]
  constructor
  · intro hnone
    funext k
    exact Option.not_isSome_iff_eq_none.mp (hnone k)
  · rintro rfl k hk
    cases hk

/-- An array that is not empty. -/
theorem ends_of_ne (h : a.Keeps m) (hne : ¬a.isEmpty = true) :
    0 ≤ a.firstIndex ∧ (m a.maxIndex).isSome := by
  refine h.ends.resolve_left ?_
  rintro ⟨hmax, -⟩
  refine hne (h.isEmpty_iff.mpr (funext fun k => Option.not_isSome_iff_eq_none.mp fun hk => ?_))
  have hle := (h.bounds k hk).2
  have hge := (h.below k hk).1
  omega

theorem maxIndex_lt (h : a.Keeps m) : a.maxIndex < a.allocSize := by
  rcases h.ends with ⟨hmax, -⟩ | ⟨-, hmax⟩
  · rw [hmax]
    exact lt_of_lt_of_le (by decide) h.alloc.1
  · exact (h.below _ hmax).2

end Keeps

/-! ## The growth of the block -/

theorem double_spec (n : Int) (fuel : Nat) {nsize : Int} (hpos : 0 < nsize) :
    nsize ≤ double n fuel nsize ∧ (n < nsize * 2 ^ fuel → n < double n fuel nsize) := by
  induction fuel generalizing nsize with
  | zero => simp [double]
  | succ fuel ih =>
    rw [double]
    split
    · have hpos' : 0 < 2 * nsize := by omega
      obtain ⟨hle, hlt⟩ := ih hpos'
      refine ⟨by omega, fun hn => hlt ?_⟩
      calc n < nsize * 2 ^ (fuel + 1) := hn
        _ = 2 * nsize * 2 ^ fuel := by ring
    · rename_i hlt
      exact ⟨Int.le_refl _, fun _ => Int.not_le.mp hlt⟩

/-- The new size has room for the index. -/
theorem lt_expandSize (h0 : 0 ≤ a.allocSize) {n : Int} (hn : n < 9223372036854775808) :
    n < a.expandSize n := by
  have hpos : 0 < (if a.allocSize ≠ 0 then a.allocSize else 1024) := by
    split
    · omega
    · decide
  obtain ⟨-, hlt⟩ := double_spec n 63 hpos
  have hone : (1 : Int) ≤ if a.allocSize ≠ 0 then a.allocSize else 1024 := hpos
  have hdouble := hlt <|
    calc n < 1 * 2 ^ 63 := by simpa using hn
      _ ≤ _ := Int.mul_le_mul_of_nonneg_right hone (by decide)
  unfold expandSize
  generalize double n 63 (if a.allocSize ≠ 0 then a.allocSize else 1024) = d at hdouble ⊢
  simp only
  split
  · omega
  · exact hdouble

theorem expandSize_le {n : Int} (hn : n + 1024 < 2305843009213693952) :
    a.expandSize n < 2305843009213693952 := by
  unfold expandSize
  generalize double n 63 (if a.allocSize ≠ 0 then a.allocSize else 1024) = d
  simp only
  split
  · exact hn
  · omega

/-- The new slots are null. -/
theorem Cells.cleared (h : a.Cells m) {n : Int} (hn : a.allocSize < n)
    (hsize : n < 2305843009213693952) : (a.cleared n n).Cells m := by
  have h0 := h.alloc.1
  have hload : ∀ i, (a.cleared n n).load i =
      if a.allocSize ≤ i ∧ i < n then some 0 else a.load i := by
    intro i
    unfold Vec.load Vec.cleared
    simp only
    by_cases hnew : a.allocSize ≤ i ∧ i < n
    · rw [if_pos ⟨le_trans h0 hnew.1, hnew.2⟩, if_pos hnew, if_pos hnew]
    · rw [if_neg hnew, if_neg hnew, h.size]
      by_cases hold : 0 ≤ i ∧ i < a.allocSize
      · rw [if_pos ⟨hold.1, lt_trans hold.2 hn⟩, if_pos hold.2, if_pos hold]
      · rw [if_neg (by omega), if_neg hold]
  have hslot : ∀ i, (a.cleared n n).slot i = a.slot i := by
    intro i
    rw [slot, hload]
    by_cases hnew : a.allocSize ≤ i ∧ i < n
    · rw [if_pos hnew, slot_eq_zero]
      · rfl
      · rw [h.size]
        omega
    · rw [if_neg hnew]
      rfl
  refine ⟨rfl, ⟨le_trans h0 hn.le, hsize⟩, h.brk, fun i hi hin => ?_, fun i => ?_⟩
  · rw [hload]
    by_cases hnew : a.allocSize ≤ i ∧ i < n
    · rw [if_pos hnew]
      rfl
    · rw [if_neg hnew]
      exact h.full i hi (not_le.mp fun hle => hnew ⟨hle, hin⟩)
  · have hcell := h.cell i
    refine ⟨fun hzero => hcell.null ?_, fun hne => ?_⟩
    · rwa [hslot] at hzero
    · rw [hslot] at hne ⊢
      exact hcell.element hne

/-- `array_expand` clears the new slots and leaves the rest. -/
theorem Cells.arrayExpand (h : a.Cells m) {n : Int} (hn : n ≥ a.allocSize)
    (hfit : n + 1024 < 2305843009213693952) :
    a.arrayExpand n = some (a.cleared (a.expandSize n) (a.expandSize n)) ∧
      n < a.expandSize n ∧ (a.cleared (a.expandSize n) (a.expandSize n)).Cells m := by
  have hlt : n < a.expandSize n := lt_expandSize h.alloc.1 (by omega)
  have hsize : a.expandSize n < 2305843009213693952 := expandSize_le hfit
  have hgrow : a.allocSize < a.expandSize n := lt_of_le_of_lt hn hlt
  refine ⟨?_, hlt, h.cleared hgrow hsize⟩
  have hmod : a.expandSize n % 2305843009213693952 = a.expandSize n :=
    Int.emod_eq_of_lt (le_trans h.alloc.1 hgrow.le) hsize
  rw [Vec.arrayExpand, if_pos hn, arrayResize]
  simp only [hmod]
  rw [if_neg (by omega), if_neg (by omega)]

/-! ## Single elements -/

/-- A pointer comes into a slot. -/
theorem Cells.put (h : a.Cells m) (hi : 0 ≤ i ∧ i < a.allocSize) {p : Nat}
    {x : Option (Option V)} (hnull : p = 0 → x = none)
    (helement : p ≠ 0 → p < a.brk ∧ a.ind p = i ∧ x = some (a.value p)) :
    (a.put i p).Cells (Function.update m i x) := by
  have hrange : 0 ≤ i ∧ i < a.size := by
    rw [h.size]
    exact hi
  refine ⟨h.size, h.alloc, h.brk, fun j h0 hj => ?_, fun j => ?_⟩
  · rw [load_put hrange]
    split
    · rfl
    · exact h.full j h0 hj
  · by_cases hj : j = i
    · subst hj
      have hslot : (a.put j p).slot j = p := by rw [slot_put hrange, if_pos rfl]
      refine ⟨fun hzero => ?_, fun hne => ?_⟩
      · rw [hslot] at hzero
        rw [Function.update_self]
        exact hnull hzero
      · rw [hslot] at hne ⊢
        rw [Function.update_self]
        exact helement hne
    · have hslot : (a.put i p).slot j = a.slot j := by rw [slot_put hrange, if_neg hj]
      have hcell := h.cell j
      refine ⟨fun hzero => ?_, fun hne => ?_⟩
      · rw [hslot] at hzero
        rw [Function.update_of_ne hj]
        exact hcell.null hzero
      · rw [hslot] at hne ⊢
        rw [Function.update_of_ne hj]
        exact hcell.element hne

/-- A new element in memory. -/
theorem Cells.arrayCreateElement (h : a.Cells m) (i : Int) (v : Option V) :
    (a.arrayCreateElement i v).Cells m := by
  have hslot : ∀ j, (a.arrayCreateElement i v).slot j = a.slot j := slot_congr rfl rfl
  refine ⟨h.size, h.alloc, Nat.succ_pos _, h.full, fun j => ?_⟩
  have hcell := h.cell j
  refine ⟨fun hzero => hcell.null ?_, fun hne => ?_⟩
  · rwa [hslot] at hzero
  · rw [hslot] at hne ⊢
    obtain ⟨hlt, hind, hx⟩ := hcell.element hne
    refine ⟨Nat.lt_succ_of_lt hlt, ?_, ?_⟩
    · exact (Function.update_of_ne (Nat.ne_of_lt hlt) _ _).trans hind
    · rw [hx]
      exact congrArg some (Function.update_of_ne (Nat.ne_of_lt hlt) _ _).symm

/-- A new value for the element in the slot `i`. -/
theorem Cells.replace (h : a.Cells m) (hi : a.slot i ≠ 0) (v : Option V) :
    ((a.setValue (a.slot i) v).setInd (a.slot i) i).Cells (Function.update m i (some v)) := by
  have hslot : ∀ j, ((a.setValue (a.slot i) v).setInd (a.slot i) i).slot j = a.slot j :=
    slot_congr rfl rfl
  refine ⟨h.size, h.alloc, h.brk, h.full, fun j => ?_⟩
  by_cases hj : j = i
  · subst hj
    obtain ⟨hlt, -, -⟩ := (h.cell j).element hi
    refine ⟨fun hzero => ?_, fun _ => ?_⟩
    · rw [hslot] at hzero
      exact absurd hzero hi
    · rw [hslot, Function.update_self]
      refine ⟨hlt, Function.update_self _ _ _, congrArg some (Eq.symm ?_)⟩
      exact Function.update_self (a.slot j) v a.value
  · have hcell := h.cell j
    refine ⟨fun hzero => ?_, fun hne => ?_⟩
    · rw [hslot] at hzero
      rw [Function.update_of_ne hj]
      exact hcell.null hzero
    · rw [hslot] at hne ⊢
      rw [Function.update_of_ne hj]
      obtain ⟨hlt, hind, hx⟩ := hcell.element hne
      have hother : a.slot j ≠ a.slot i := fun heq => hj (h.inj hne heq)
      refine ⟨hlt, (Function.update_of_ne hother _ _).trans hind, ?_⟩
      rw [hx]
      exact congrArg some (Function.update_of_ne hother _ _).symm

theorem ncard_update_some {size : Int} (h : m.Below size) (hi : m i = none) (v : Option V) :
    ({k | (Function.update m i (some v) k).isSome}.ncard : Int) =
      {k | (m k).isSome}.ncard + 1 := by
  have hset : {k | (Function.update m i (some v) k).isSome} = insert i {k | (m k).isSome} := by
    ext k
    rw [Set.mem_insert_iff, Set.mem_ofPred_eq, Set.mem_ofPred_eq]
    by_cases hk : k = i
    · subst hk
      simp
    · simp [hk]
  rw [hset, Set.ncard_insert_of_notMem _ h.finite]
  · exact Nat.cast_succ _
  · rw [Set.mem_ofPred_eq, hi]
    simp

theorem ncard_update_none {size : Int} (h : m.Below size) (hi : (m i).isSome) :
    ({k | (Function.update m i none k).isSome}.ncard : Int) = {k | (m k).isSome}.ncard - 1 := by
  obtain ⟨v, hv⟩ := Option.isSome_iff_exists.mp hi
  have hback : Function.update (Function.update m i none) i (some v) = m := by
    rw [Function.update_idem, ← hv, Function.update_eq_self]
  have hbelow : Map.Below (Function.update m i none) size := by
    intro k hk
    by_cases hki : k = i
    · subst hki
      rw [Function.update_self] at hk
      cases hk
    · rw [Function.update_of_ne hki] at hk
      exact h k hk
  have hone := ncard_update_some hbelow (Function.update_self i none m) v
  rw [hback] at hone
  omega

/-- Behind an insertion at `i` the bounds take in `i`. -/
theorem Keeps.inserted (h : a.Keeps m) (hi : 0 ≤ i) {v : Option V}
    (hb : b.Cells (Function.update m i (some v)))
    (hmax : b.maxIndex = if i > a.maxIndex then i else a.maxIndex)
    (hfirst : b.firstIndex =
      if a.firstIndex < 0 ∨ i < a.firstIndex then i else a.firstIndex)
    (hcount : b.numElements = {k | (Function.update m i (some v) k).isSome}.ncard) :
    b.Keeps (Function.update m i (some v)) := by
  refine ⟨hb, fun k hk => ?_, Or.inr ⟨?_, ?_⟩, hcount⟩
  · rw [hmax, hfirst]
    by_cases hki : k = i
    · subst hki
      constructor
      · split
        · exact Int.le_refl k
        · omega
      · split
        · exact Int.le_refl k
        · omega
    · rw [Function.update_of_ne hki] at hk
      obtain ⟨hlo, hhi⟩ := h.bounds k hk
      have h0 := (h.below k hk).1
      constructor
      · split
        · rcases h.ends with ⟨hneg, -⟩ | ⟨hnonneg, -⟩
          · omega
          · omega
        · exact hlo
      · split
        · omega
        · exact hhi
  · rw [hfirst]
    split
    · exact hi
    · omega
  · rw [hmax]
    split
    · rw [Function.update_self]
      rfl
    · rename_i hle
      by_cases hmi : a.maxIndex = i
      · rw [hmi, Function.update_self]
        rfl
      · rw [Function.update_of_ne hmi]
        rcases h.ends with ⟨hneg, -⟩ | ⟨-, hsome⟩
        · omega
        · exact hsome

/-- An insertion into the block. -/
theorem Keeps.arrayInsert_of_lt (h : a.Keeps m) (hi : 0 ≤ i) (hlt : i < a.allocSize)
    (v : Option V) : ∃ b, a.arrayInsert i v = some (b, if (m i).isSome then 0 else -1) ∧
      b.Keeps (Function.update m i (some v)) := by
  unfold Vec.arrayInsert
  rw [if_neg (not_le.mpr hlt)]
  simp only [Option.bind_eq_bind, Option.bind_some, h.load_eq hi hlt]
  by_cases hslot : a.slot i = 0
  · -- a new element
    have hnone : m i = none := (h.cell i).null hslot
    have hcells := ((h.toCells.arrayCreateElement i v).put (p := a.brk) (x := some v) ⟨hi, hlt⟩
      (fun hzero => absurd hzero (Nat.ne_of_gt h.brk)) fun _ =>
        ⟨Nat.lt_succ_self _, Function.update_self _ _ _,
          congrArg some (Function.update_self a.brk v a.value).symm⟩)
    have hrange : 0 ≤ i ∧ i < a.size := by
      rw [h.size]
      exact ⟨hi, hlt⟩
    simp only [hslot, ne_eq, not_true_eq_false, if_false]
    rw [hnone, store_eq (by exact hrange), Option.bind_some]
    refine ⟨_, rfl, h.inserted hi (hcells.congr rfl rfl rfl rfl rfl rfl) rfl rfl ?_⟩
    rw [ncard_update_some h.below hnone v, ← h.count]
    rfl
  · have hsome := (h.isSome_iff i).mpr hslot
    simp only [hslot, ne_eq, not_false_eq_true, if_true, hsome]
    refine ⟨_, rfl, h.inserted hi ((h.replace hslot v).congr rfl rfl rfl rfl rfl rfl) rfl rfl ?_⟩
    refine h.count.trans (congrArg (fun s : Set Int => (s.ncard : Int)) (Set.ext fun k => ?_))
    by_cases hk : k = i
    · subst hk
      simp [hsome]
    · simp [hk]

/-- What `array_expand` leaves holds the same map. -/
theorem Keeps.cleared (h : a.Keeps m) {n : Int} (hcells : (a.cleared n n).Cells m) :
    (a.cleared n n).Keeps m :=
  ⟨hcells, h.bounds, h.ends, h.count⟩

/-- `array_insert` returns 0 only where it replaces an element. -/
theorem Keeps.arrayInsert (h : a.Keeps m) (hi : 0 ≤ i)
    (hfit : i ≥ a.allocSize → i + 1024 < 2305843009213693952) (v : Option V) :
    ∃ b, a.arrayInsert i v = some (b, if (m i).isSome then 0 else -1) ∧
      b.Keeps (Function.update m i (some v)) := by
  by_cases hlt : i < a.allocSize
  · exact h.arrayInsert_of_lt hi hlt v
  · have hge : i ≥ a.allocSize := Int.not_lt.mp hlt
    obtain ⟨hexpand, hroom, hcells⟩ := h.toCells.arrayExpand hge (hfit hge)
    have hinsert : a.arrayInsert i v =
        (a.cleared (a.expandSize i) (a.expandSize i)).arrayInsert i v := by
      unfold Vec.arrayInsert
      rw [if_pos hge, hexpand]
      exact (if_neg (not_le.mpr hroom)).symm
    rw [hinsert]
    exact (h.cleared hcells).arrayInsert_of_lt hi hroom v

/-! ## Removal -/

/-- The search for the last element, from `hi` down. -/
theorem Cells.scan_down (h : a.Cells m) {lo hi : Int} (hlo : 0 ≤ lo) (hle : lo ≤ hi + 1)
    (hhi : hi < a.allocSize) (hbounds : ∀ k, (m k).isSome → lo ≤ k ∧ k ≤ hi) :
    ∃ t, a.scan (-1) (hi + 1 - lo).toNat hi = some t ∧
      (((m t).isSome ∧ ∀ k, (m k).isSome → k ≤ t) ∨ (t = lo - 1 ∧ m = fun _ => none)) := by
  obtain ⟨s, hs, hscan, hzero, hstop⟩ := h.scan (-1) (hi + 1 - lo).toNat hi fun s hs => by omega
  refine ⟨_, hscan, ?_⟩
  have habove : ∀ k, (m k).isSome → k ≤ hi + -1 * s := by
    intro k hk
    by_contra hgt
    have hle := (hbounds k hk).2
    have hnull := hzero (hi - k).toNat (by omega)
    rw [Int.toNat_of_nonneg (by omega), neg_one_mul, neg_sub, add_sub_cancel] at hnull
    exact (h.isSome_iff k).mp hk hnull
  rcases Nat.lt_or_eq_of_le hs with hlt | heq
  · exact Or.inl ⟨(h.isSome_iff _).mpr (hstop hlt), habove⟩
  · refine Or.inr ⟨by omega, funext fun k => Option.not_isSome_iff_eq_none.mp fun hk => ?_⟩
    have hge := (hbounds k hk).1
    have hle := habove k hk
    omega

/-- The search for the first element, from `lo` up. -/
theorem Cells.scan_up (h : a.Cells m) {lo hi : Int} (hlo : 0 ≤ lo) (hhi : hi < a.allocSize)
    (hbounds : ∀ k, (m k).isSome → lo ≤ k ∧ k ≤ hi) :
    ∃ t, a.scan 1 (hi + 1 - lo).toNat lo = some t ∧ lo ≤ t ∧ ∀ k, (m k).isSome → t ≤ k := by
  obtain ⟨s, hs, hscan, hzero, -⟩ := h.scan 1 (hi + 1 - lo).toNat lo fun s hs => by omega
  refine ⟨_, hscan, by omega, fun k hk => ?_⟩
  by_contra hlt
  have hge := (hbounds k hk).1
  have hnull := hzero (k - lo).toNat (by omega)
  rw [Int.toNat_of_nonneg (by omega), one_mul, add_sub_cancel] at hnull
  exact (h.isSome_iff k).mp hk hnull

/-- The bounds are narrowed if they stood at the slot `i`. -/
theorem Cells.trimmed (h : a.Cells m) (hi : m i = none) (h0 : 0 ≤ a.firstIndex)
    (hin : a.firstIndex ≤ i ∧ i ≤ a.maxIndex) (hlt : a.maxIndex < a.allocSize)
    (hbounds : ∀ k, (m k).isSome → a.firstIndex ≤ k ∧ k ≤ a.maxIndex)
    (hmax : i ≠ a.maxIndex → (m a.maxIndex).isSome)
    (hempty : (m = fun _ => none) → a.firstIndex = 0)
    (hcount : a.numElements = {k | (m k).isSome}.ncard) :
    ∃ c, a.trimmed i = some c ∧ c.Keeps m ∧ c.ind = a.ind ∧ c.value = a.value := by
  unfold Vec.trimmed
  by_cases him : i = a.maxIndex
  · rw [if_pos him]
    have hhi : i < a.allocSize := by omega
    have hbounds' : ∀ k, (m k).isSome → a.firstIndex ≤ k ∧ k ≤ i := by
      rw [him]
      exact hbounds
    obtain ⟨t, hscan, htop⟩ := h.scan_down h0 (by omega) hhi hbounds'
    simp only [hscan, Option.bind_eq_bind, Option.bind_some]
    rcases htop with ⟨hsome, habove⟩ | ⟨ht, hm⟩
    · -- there are elements left, and their lowest bound is not `i`
      have hne : i ≠ a.firstIndex := by
        intro heq
        have ht := hbounds' t hsome
        have hti : t = i := by omega
        rw [hti, hi] at hsome
        cases hsome
      rw [if_neg hne]
      have hcells : Cells { a with maxIndex := t } m := h.congr rfl rfl rfl rfl rfl rfl
      refine ⟨_, rfl, ⟨hcells, fun k hk => ⟨(hbounds k hk).1, habove k hk⟩, ?_, hcount⟩, rfl, rfl⟩
      exact Or.inr ⟨h0, hsome⟩
    · have hfirst := hempty hm
      have hneg : t = -1 := by omega
      have hcells : Cells { a with maxIndex := t } m := h.congr rfl rfl rfl rfl rfl rfl
      have hnone : ∀ k, ¬(m k).isSome := by
        intro k hk
        rw [hm] at hk
        cases hk
      by_cases hif : i = a.firstIndex
      · have hstop : (t + 1 - i).toNat = 0 := by omega
        rw [if_pos hif, hstop, Vec.scan, Option.bind_some]
        refine ⟨_, rfl, ⟨hcells.congr rfl rfl rfl rfl rfl rfl, fun k hk => absurd hk (hnone k),
          Or.inl ⟨hneg, ?_⟩, hcount⟩, rfl, rfl⟩
        exact Int.le_of_eq (hif.trans hfirst)
      · rw [if_neg hif]
        exact ⟨_, rfl, ⟨hcells, fun k hk => absurd hk (hnone k),
          Or.inl ⟨hneg, Int.le_of_eq hfirst⟩, hcount⟩, rfl, rfl⟩
  · rw [if_neg him]
    simp only [Option.bind_eq_bind, Option.bind_some]
    by_cases hif : i = a.firstIndex
    · have hbounds' : ∀ k, (m k).isSome → i ≤ k ∧ k ≤ a.maxIndex := by
        rw [hif]
        exact hbounds
      obtain ⟨t, hscan, hle, hbelow⟩ := h.scan_up (by omega) hlt hbounds'
      rw [if_pos hif, hscan, Option.bind_some]
      refine ⟨_, rfl, ⟨h.congr rfl rfl rfl rfl rfl rfl, fun k hk => ⟨hbelow k hk, (hbounds k hk).2⟩,
        Or.inr ⟨?_, hmax him⟩, hcount⟩, rfl, rfl⟩
      exact le_trans (by omega) hle
    · rw [if_neg hif]
      exact ⟨_, rfl, ⟨h, hbounds, Or.inr ⟨h0, hmax him⟩, hcount⟩, rfl, rfl⟩

/-- The bookkeeping of a removal. -/
theorem Keeps.removed (h : a.Keeps m) (hi : (m i).isSome)
    (hb : b.Cells (Function.update m i none)) (halloc : b.allocSize = a.allocSize)
    (hfirst : b.firstIndex = a.firstIndex) (hmax : b.maxIndex = a.maxIndex)
    (hnum : b.numElements = a.numElements) :
    ∃ c, b.removed i = some c ∧ c.Keeps (Function.update m i none) ∧ c.ind = b.ind ∧
      c.value = b.value := by
  obtain ⟨hlo, hhi⟩ := h.bounds i hi
  have hne : ¬a.isEmpty = true := by
    intro hempty
    rw [h.isEmpty_iff.mp hempty] at hi
    cases hi
  obtain ⟨h0, hsome⟩ := h.ends_of_ne hne
  have hlt := h.maxIndex_lt
  have hpos := (h.below i hi).1
  have hold : ∀ k, (Function.update m i none k).isSome → k ≠ i ∧ (m k).isSome := by
    intro k hk
    by_cases hki : k = i
    · subst hki
      rw [Function.update_self] at hk
      cases hk
    · rw [Function.update_of_ne hki] at hk
      exact ⟨hki, hk⟩
  have htop : i ≠ a.maxIndex → (Function.update m i none a.maxIndex).isSome := by
    intro him
    rw [Function.update_of_ne him.symm]
    exact hsome
  have hcount : b.numElements - 1 = {k | (Function.update m i none k).isSome}.ncard := by
    rw [ncard_update_none h.below hi, hnum, h.count]
  have hself : Function.update m i none i = none := Function.update_self i none m
  have hempty : b.numElements - 1 = 0 ↔ Function.update m i none = fun _ => none := by
    rw [hcount, Int.natCast_eq_zero, Set.ncard_eq_zero hb.below.finite,
      Set.eq_empty_iff_forall_notMem]
    constructor
    · intro hnone
      funext k
      exact Option.not_isSome_iff_eq_none.mp (hnone k)
    · intro hnone k hk
      rw [Set.mem_ofPred_eq, hnone] at hk
      cases hk
  rw [← hmax] at htop
  unfold Vec.removed
  simp only
  by_cases hzero : b.numElements - 1 = 0
  · rw [if_pos hzero]
    have hm := hempty.mp hzero
    have hbmax : b.maxIndex ≠ -1 := by omega
    rw [if_neg hbmax]
    refine Cells.trimmed (hb.congr rfl rfl rfl rfl rfl rfl) hself (Int.le_refl 0)
      ⟨hpos, by rw [hmax]; exact hhi⟩ (by rw [hmax, halloc]; exact hlt) (fun k hk => ?_) htop
      (fun _ => rfl) hcount
    rw [hm] at hk
    cases hk
  · rw [if_neg hzero]
    refine Cells.trimmed (hb.congr rfl rfl rfl rfl rfl rfl) hself (by rw [hfirst]; exact h0)
      ⟨by rw [hfirst]; exact hlo, by rw [hmax]; exact hhi⟩ (by rw [hmax, halloc]; exact hlt)
      (fun k hk => ?_) htop (fun hm => absurd (hempty.mpr hm) hzero) hcount
    rw [hfirst, hmax]
    exact h.bounds k (hold k hk).2

/-- `array_remove` returns the element. -/
theorem Keeps.arrayRemove (h : a.Keeps m) (i : Int) :
    ∃ b ae, a.arrayRemove i = some (b, ae) ∧ b.Keeps (Function.update m i none) ∧
      (ae = 0 → m i = none) ∧ (ae ≠ 0 → b.ind ae = i ∧ m i = some (b.value ae)) := by
  have habsent : m i = none → Function.update m i none = m := by
    intro hi
    rw [← hi, Function.update_eq_self]
  unfold Vec.arrayRemove
  split
  · rename_i hempty
    have hi : m i = none := congrFun (h.isEmpty_iff.mp hempty) i
    rw [habsent hi]
    exact ⟨a, 0, rfl, h, fun _ => hi, fun hne => absurd rfl hne⟩
  · rename_i hempty
    split
    · rename_i hout
      have hi : m i = none := by
        refine Option.not_isSome_iff_eq_none.mp fun hsome => ?_
        have hbounds := h.bounds i hsome
        omega
      rw [habsent hi]
      exact ⟨a, 0, rfl, h, fun _ => hi, fun hne => absurd rfl hne⟩
    · rename_i hin
      obtain ⟨hfirst, -⟩ := h.ends_of_ne hempty
      have hmax := h.maxIndex_lt
      have hlt : i < a.allocSize := by omega
      have h0 : 0 ≤ i := by omega
      have hrange : 0 ≤ i ∧ i < a.size := by
        rw [h.size]
        exact ⟨h0, hlt⟩
      have hcells := h.toCells.put (p := 0) (x := none) ⟨h0, hlt⟩ (fun _ => rfl)
        fun hne => absurd rfl hne
      rw [h.load_eq h0 hlt, store_eq hrange]
      simp only [Option.bind_eq_bind, Option.bind_some]
      by_cases hslot : a.slot i = 0
      · have hi : m i = none := (h.cell i).null hslot
        rw [if_neg (not_not.mpr hslot), hslot]
        rw [habsent hi] at hcells ⊢
        exact ⟨_, 0, rfl, ⟨hcells, h.bounds, h.ends, h.count⟩, fun _ => hi,
          fun hne => absurd rfl hne⟩
      · obtain ⟨-, hind, hvalue⟩ := (h.cell i).element hslot
        obtain ⟨c, hremoved, hkeeps, hcind, hcvalue⟩ :=
          h.removed ((h.isSome_iff i).mpr hslot) hcells rfl rfl rfl rfl
        rw [if_pos hslot, hremoved, Option.bind_some]
        refine ⟨c, a.slot i, rfl, hkeeps, fun hzero => absurd hzero hslot, fun _ => ?_⟩
        rw [hcind, hcvalue]
        exact ⟨hind, hvalue⟩

/-- `array_reference` returns what the map holds. -/
theorem Keeps.arrayReference (h : a.Keeps m) (i : Int) :
    a.arrayReference i = some (m i).join := by
  unfold Vec.arrayReference
  split
  · rename_i hempty
    rw [h.isEmpty_iff.mp hempty]
    rfl
  · rename_i hempty
    split
    · rename_i hout
      have hi : m i = none := by
        refine Option.not_isSome_iff_eq_none.mp fun hsome => ?_
        have hbounds := h.bounds i hsome
        omega
      rw [hi]
      rfl
    · rename_i hin
      obtain ⟨hfirst, -⟩ := h.ends_of_ne hempty
      have hmax := h.maxIndex_lt
      rw [h.load_eq (by omega) (by omega), Option.bind_eq_bind, Option.bind_some]
      by_cases hslot : a.slot i = 0
      · rw [if_neg (not_not.mpr hslot), (h.cell i).null hslot]
        rfl
      · rw [if_pos hslot, ((h.cell i).element hslot).2.2]
        rfl

/-! ## Taking all elements out -/

theorem Moved.takeOut {lo : Int} (ha : a.Cells m) (k : Nat)
    (h : Moved a b lo i fun _ => 0) (hlo : lo ≤ i) (h0 : 0 ≤ i) (hk : i + k ≤ a.allocSize)
    (hint : i + k ≤ 2147483647) :
    ∃ c, takeOut k b i = some (c, a.between k i) ∧ Moved a c lo (i + k) (fun _ => 0) ∧
      c.ind = b.ind := by
  induction k generalizing b i with
  | zero =>
    rw [Nat.cast_zero, Int.add_zero]
    exact ⟨b, rfl, h, rfl⟩
  | succ k ih =>
    rw [Nat.cast_succ] at hk hint
    have hload : b.load i = some (a.slot i) := by
      rw [h.load, if_neg (by omega), ha.load_eq h0 (by omega)]
    have hnext : toInt (i + 1) = some (i + 1) := if_pos (by omega)
    have hsum : i + ((k + 1 : Nat) : Int) = i + 1 + k := by
      rw [Nat.cast_succ]
      omega
    rw [Vec.takeOut, hload, hsum]
    simp only [Option.bind_eq_bind, Option.bind_some]
    by_cases hslot : a.slot i = 0
    · have hnull : a.load i = some 0 := by
        rw [ha.load_eq h0 (by omega), hslot]
      obtain ⟨c, htake, hmoved, hind⟩ := ih (h.skip hnull rfl) (by omega) (by omega) (by omega)
        (by omega)
      rw [if_neg (not_not.mpr hslot)]
      simp only [Option.bind_some, hnext, htake, hslot, between, ne_eq, not_true_eq_false, if_false]
      exact ⟨c, rfl, hmoved, hind⟩
    · have hrange : 0 ≤ i ∧ i < a.size := by
        rw [ha.size]
        omega
      obtain ⟨b', hmove, hmoved⟩ := h.move hlo hrange fun j _ _ hne => absurd rfl hne
      have hstore : b.store i 0 = some b' := by
        rw [← hmove, Vec.move]
        cases b.store i 0 with
        | none => rfl
        | some c => rfl
      have hind' : b'.ind = b.ind := by
        rw [Vec.store] at hstore
        split at hstore
        · obtain rfl := Option.some.inj hstore
          rfl
        · cases hstore
      obtain ⟨c, htake, hmoved, hind⟩ := ih hmoved (by omega) (by omega) (by omega) (by omega)
      rw [if_pos hslot, hstore]
      simp only [Option.bind_some, hnext, htake, hslot, between, ne_eq, not_false_eq_true, if_true]
      exact ⟨c, rfl, hmoved, hind.trans hind'⟩

/-- The loops that empty the array take out all elements in their order. -/
theorem Keeps.takeAll (h : a.Keeps m) (hne : ¬a.isEmpty = true)
    (hint : a.maxIndex + 1 ≤ 2147483647) :
    ∃ b, a.takeAll = some (b, a.between (a.maxIndex + 1 - a.firstIndex).toNat a.firstIndex) ∧
      (b.Keeps fun _ => none) ∧ b.ind = a.ind ∧ b.value = a.value := by
  obtain ⟨h0, hsome⟩ := h.ends_of_ne hne
  have hlt := h.maxIndex_lt
  have hle := (h.bounds _ hsome).1
  have hmod : Int.bmod a.firstIndex 4294967296 = a.firstIndex :=
    Int.bmod_eq_of_le (by omega) (by omega)
  have hcount : a.firstIndex + (a.maxIndex + 1 - a.firstIndex).toNat = a.maxIndex + 1 := by omega
  obtain ⟨c, htake, hmoved, hind⟩ := (Moved.refl a a.firstIndex _).takeOut h.toCells
    (a.maxIndex + 1 - a.firstIndex).toNat (Int.le_refl _) h0 (by omega) (by omega)
  rw [hcount] at hmoved
  have hcells : c.Cells fun _ => none := by
    refine hmoved.cells h.toCells (fun j _ _ => ⟨fun _ => rfl, fun hne => absurd rfl hne⟩)
      fun j hj => ⟨?_, rfl⟩
    by_contra hslot
    have hbounds := h.bounds j ((h.isSome_iff j).mpr hslot)
    omega
  rw [Vec.takeAll, hmod]
  simp only [htake, Option.bind_eq_bind, Option.bind_some]
  refine ⟨_, rfl, ⟨hcells.congr rfl rfl rfl rfl rfl rfl, fun k hk => ?_, Or.inl ⟨rfl, ?_⟩, ?_⟩, hind,
    hmoved.same.1⟩
  · cases hk
  · exact Int.negSucc_le_zero 0
  · simp

theorem Keeps.arrayFlush (h : a.Keeps m)
    (hint : a.isEmpty = true ∨ a.maxIndex + 1 ≤ 2147483647) :
    ∃ b, a.arrayFlush = some b ∧ b.Keeps fun _ => none := by
  unfold Vec.arrayFlush
  by_cases hempty : a.isEmpty = true
  · rw [if_pos hempty]
    have hm := h.isEmpty_iff.mp hempty
    subst hm
    refine ⟨_, rfl, h.toCells.congr rfl rfl rfl rfl rfl rfl, fun k hk => ?_, Or.inl ⟨rfl, ?_⟩,
      h.count⟩
    · cases hk
    · exact Int.negSucc_le_zero 0
  · rw [if_neg hempty]
    obtain ⟨b, htake, hkeeps, -⟩ := h.takeAll hempty (hint.resolve_left hempty)
    exact ⟨b, congrArg (Option.map Prod.fst) htake, hkeeps⟩

/-! ## Copies -/

/-- The slots before `i` are copied to `b`. -/
structure Copied (a b : Vec V) (m : Map V) (i : Int) : Prop where
  size : b.size = a.allocSize
  same : b.allocSize = a.allocSize ∧ b.firstIndex = a.firstIndex ∧ b.maxIndex = a.maxIndex ∧
    b.numElements = a.numElements
  brk : a.brk ≤ b.brk
  old : ∀ p < a.brk, b.ind p = a.ind p ∧ b.value p = a.value p
  full : ∀ j, 0 ≤ j → j < i → (b.load j).isSome
  cell : ∀ j, 0 ≤ j → j < i → b.Cell j (m j)

/-- Writes to other slots and to new memory do not matter. -/
theorem Cell.congr {x : Option (Option V)} (h : a.Cell i x) (hslot : b.slot i = a.slot i)
    (hbrk : a.brk ≤ b.brk) (hold : ∀ p < a.brk, b.ind p = a.ind p ∧ b.value p = a.value p) :
    b.Cell i x := by
  refine ⟨fun hzero => h.null ?_, fun hne => ?_⟩
  · rwa [hslot] at hzero
  · rw [hslot] at hne ⊢
    obtain ⟨hlt, hind, hx⟩ := h.element hne
    rw [(hold _ hlt).1, (hold _ hlt).2]
    exact ⟨lt_of_lt_of_le hlt hbrk, hind, hx⟩

/-- One more slot is copied. -/
theorem Copied.put {c : Vec V} {q : Nat} (h : Copied a b m i) (h0 : 0 ≤ i) (hlt : i < a.allocSize)
    (hload : ∀ j, c.load j = b.load j) (hsize : c.size = b.size)
    (hsame : c.allocSize = b.allocSize ∧ c.firstIndex = b.firstIndex ∧
      c.maxIndex = b.maxIndex ∧ c.numElements = b.numElements)
    (hbrk : b.brk ≤ c.brk) (hold : ∀ p < b.brk, c.ind p = b.ind p ∧ c.value p = b.value p)
    (hnull : q = 0 → m i = none)
    (helement : q ≠ 0 → q < c.brk ∧ c.ind q = i ∧ m i = some (c.value q)) :
    Copied a (c.put i q) m (i + 1) := by
  have hrange : 0 ≤ i ∧ i < c.size := by
    rw [hsize, h.size]
    exact ⟨h0, hlt⟩
  obtain ⟨halloc, hfirst, hmax, hnum⟩ := hsame
  obtain ⟨halloc', hfirst', hmax', hnum'⟩ := h.same
  refine ⟨hsize.trans h.size, ⟨halloc.trans halloc', hfirst.trans hfirst', hmax.trans hmax',
    hnum.trans hnum'⟩, le_trans h.brk hbrk, fun p hp => ?_, fun j hj0 hj => ?_, fun j hj0 hj => ?_⟩
  · obtain ⟨hind, hvalue⟩ := hold p (lt_of_lt_of_le hp h.brk)
    exact ⟨hind.trans (h.old p hp).1, hvalue.trans (h.old p hp).2⟩
  · rw [load_put hrange, hload]
    by_cases hji : j = i
    · rw [if_pos hji]
      rfl
    · rw [if_neg hji]
      exact h.full j hj0 (by omega)
  · by_cases hji : j = i
    · subst hji
      have hslot : (c.put j q).slot j = q := by rw [slot_put hrange, if_pos rfl]
      refine ⟨fun hzero => ?_, fun hne => ?_⟩
      · rw [hslot] at hzero
        exact hnull hzero
      · rw [hslot] at hne ⊢
        exact helement hne
    · refine (h.cell j hj0 (by omega)).congr ?_ hbrk hold
      rw [slot_put hrange, if_neg hji, slot, hload]
      rfl

theorem Copied.copyElements (ha : a.Cells m) (k : Nat) (h : Copied a b m i) (h0 : 0 ≤ i)
    (hk : i + k = a.allocSize) :
    ∃ c, copyElements a k b i = some c ∧ Copied a c m a.allocSize := by
  induction k generalizing b i with
  | zero =>
    rw [Nat.cast_zero, Int.add_zero] at hk
    rw [hk] at h
    exact ⟨b, rfl, h⟩
  | succ k ih =>
    rw [Nat.cast_succ] at hk
    have hlt : i < a.allocSize := by omega
    have hrange : 0 ≤ i ∧ i < b.size := by
      rw [h.size]
      exact ⟨h0, hlt⟩
    have hcell := ha.cell i
    rw [Vec.copyElements, ha.load_eq h0 hlt]
    simp only [Option.bind_eq_bind, Option.bind_some]
    by_cases hslot : a.slot i = 0
    · rw [if_neg (not_not.mpr hslot), store_eq hrange, Option.bind_some]
      exact ih (h.put (q := 0) h0 hlt (fun _ => rfl) rfl ⟨rfl, rfl, rfl, rfl⟩ (Nat.le_refl _)
        (fun _ _ => ⟨rfl, rfl⟩) (fun _ => hcell.null hslot) fun hne => absurd rfl hne) (by omega)
        (by omega)
    · obtain ⟨hp, hind, hm⟩ := hcell.element hslot
      obtain ⟨hbind, hbvalue⟩ := h.old _ hp
      rw [if_pos hslot, store_eq (by exact hrange), Option.bind_some, hbind, hbvalue, hind]
      refine ih (h.put (q := b.brk) h0 hlt (fun _ => rfl) rfl ⟨rfl, rfl, rfl, rfl⟩
        (Nat.le_succ _) (fun p hp => ?_) (fun hzero => ?_) fun _ => ?_) (by omega) (by omega)
      · exact ⟨Function.update_of_ne (Nat.ne_of_lt hp) _ _,
          Function.update_of_ne (Nat.ne_of_lt hp) _ _⟩
      · exact absurd (Nat.lt_of_lt_of_le hp h.brk) (by omega)
      · refine ⟨Nat.lt_succ_self _, Function.update_self _ _ _, ?_⟩
        rw [hm]
        exact congrArg some (Function.update_self b.brk (a.value (a.slot i)) b.value).symm

theorem Keeps.arrayCopy (h : a.Keeps m) (hroom : a.numElements = 0 → a.allocSize = 0) :
    ∃ b, a.arrayCopy = some b ∧ b.Keeps m := by
  unfold Vec.arrayCopy
  by_cases hzero : a.numElements = 0
  · simp only [hzero, if_true]
    have halloc := hroom hzero
    have hm := h.isEmpty_iff.mp (decide_eq_true hzero)
    subst hm
    refine ⟨_, rfl, ⟨halloc.symm, h.alloc, h.brk, fun j hj0 hj => ?_, fun j => ?_⟩, h.bounds, h.ends,
      ?_⟩
    · exact absurd (lt_of_le_of_lt hj0 hj) (by rw [halloc]; exact Int.lt_irrefl 0)
    · refine ⟨fun _ => rfl, fun hne => absurd (slot_eq_zero ?_) hne⟩
      rintro ⟨hj0, hj⟩
      exact absurd (lt_of_le_of_lt hj0 hj) (Int.lt_irrefl 0)
    · rw [← hzero]
      exact h.count
  · simp only [hzero, if_false]
    have hmod : a.allocSize % 2305843009213693952 = a.allocSize :=
      Int.emod_eq_of_lt h.alloc.1 h.alloc.2
    rw [hmod]
    have hstart : Copied a { a with elements := fun _ => none, size := a.allocSize } m 0 :=
      ⟨rfl, ⟨rfl, rfl, rfl, rfl⟩, Nat.le_refl _, fun _ _ => ⟨rfl, rfl⟩,
        fun j hj0 hj => absurd hj (Int.not_lt.mpr hj0),
        fun j hj0 hj => absurd hj (Int.not_lt.mpr hj0)⟩
    have hcount : 0 + (a.allocSize.toNat : Int) = a.allocSize := by
      rw [zero_add, Int.toNat_of_nonneg h.alloc.1]
    obtain ⟨c, hcopy, hcopied⟩ := hstart.copyElements h.toCells _ (Int.le_refl 0) hcount
    obtain ⟨halloc, hfirst, hmax, hnum⟩ := hcopied.same
    refine ⟨c, hcopy, ⟨hcopied.size.trans halloc.symm, ?_, ?_, fun j hj0 hj => ?_, fun j => ?_⟩, ?_, ?_,
      ?_⟩
    · rw [halloc]
      exact h.alloc
    · exact lt_of_lt_of_le h.brk hcopied.brk
    · rw [halloc] at hj
      exact hcopied.full j hj0 hj
    · by_cases hj : 0 ≤ j ∧ j < a.allocSize
      · exact hcopied.cell j hj.1 hj.2
      · have hnull : c.slot j = 0 := slot_eq_zero (by rw [hcopied.size]; exact hj)
        refine ⟨fun _ => (h.cell j).null (slot_eq_zero ?_), fun hne => absurd hnull hne⟩
        rw [h.size]
        exact hj
    · rw [hfirst, hmax]
      exact h.bounds
    · rw [hfirst, hmax]
      exact h.ends
    · rw [hnum]
      exact h.count

end Basht.Arrays.Vec
