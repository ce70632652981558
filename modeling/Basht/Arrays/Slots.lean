import Basht.Arrays.Shifts
import Basht.Arrays.Vector
import Mathlib.Data.Int.Interval

/-!
# The slots of a vector

A vector holds a map if each slot is null or points to an element with the index of the slot
and its value (`Vec.Cells`). The loops of the operations put new pointers into a range of
slots, one after the other (`Vec.Moved`), or take all elements of a range out.
-/

namespace Basht.Arrays

variable {V : Type} {m : Map V}

/-! ## Ranks -/

/-- The number of indices below `i`. -/
noncomputable def Map.rank (m : Map V) (i : Int) : Nat := {k | k < i ∧ (m k).isSome}.ncard

theorem Map.shift_eq (m : Map V) (n : Nat) (j : Int) :
    m.shift n j = if n ≤ m.rank (j + n) then m (j + n) else none := rfl

theorem Map.rank_succ_of_none {i : Int} (hi : m i = none) : m.rank (i + 1) = m.rank i := by
  refine congrArg Set.ncard (Set.ext fun k => and_congr_left fun hk => ?_)
  have hne : k ≠ i := by
    rintro rfl
    rw [hi] at hk
    cases hk
  omega

/-- The map has finitely many indices, all in `[0, size)`. -/
def Map.Below (m : Map V) (size : Int) : Prop := ∀ i, (m i).isSome → 0 ≤ i ∧ i < size

namespace Map.Below

variable {size : Int}

theorem finite (h : m.Below size) : {k | (m k).isSome}.Finite :=
  (Set.finite_Ico 0 size).subset fun k hk => h k hk

theorem finite_lt (h : m.Below size) (i : Int) : {k | k < i ∧ (m k).isSome}.Finite :=
  h.finite.subset fun _ hk => hk.2

theorem rank_mono (h : m.Below size) {i j : Int} (hij : i ≤ j) : m.rank i ≤ m.rank j :=
  Set.ncard_le_ncard (fun _ hk => ⟨lt_of_lt_of_le hk.1 hij, hk.2⟩) (h.finite_lt j)

theorem rank_succ_of_some (h : m.Below size) {i : Int} (hi : (m i).isSome) :
    m.rank (i + 1) = m.rank i + 1 := by
  have hset : {k | k < i + 1 ∧ (m k).isSome} = insert i {k | k < i ∧ (m k).isSome} := by
    ext k
    rw [Set.mem_insert_iff, Set.mem_ofPred_eq, Set.mem_ofPred_eq]
    constructor
    · intro hk
      rcases Int.lt_or_eq_of_le (Int.lt_add_one_iff.mp hk.1) with hlt | heq
      · exact Or.inr ⟨hlt, hk.2⟩
      · exact Or.inl heq
    · intro hk
      rcases hk with rfl | hk
      · exact ⟨Int.lt_succ k, hi⟩
      · exact ⟨Int.lt_trans hk.1 (Int.lt_succ i), hk.2⟩
  rw [Map.rank, hset, Set.ncard_insert_of_notMem (fun hmem => lt_irrefl i hmem.1)
    (h.finite_lt i)]
  rfl

/-- An index has a smaller rank than those above it. -/
theorem rank_lt (h : m.Below size) {i j : Int} (hi : (m i).isSome) (hij : i < j) :
    m.rank i < m.rank j := by
  have hsucc := h.rank_succ_of_some hi
  have hmono := h.rank_mono (i := i + 1) (j := j) (by omega)
  omega

theorem rank_lt_ncard (h : m.Below size) {i : Int} (hi : (m i).isSome) :
    m.rank i < {k | (m k).isSome}.ncard :=
  Set.ncard_lt_ncard ⟨fun _ hk => hk.2, fun hsub => lt_irrefl i (hsub hi).1⟩ h.finite

end Map.Below

/-- Between `lo` and `i` there are at most `i - lo` indices. -/
theorem Map.rank_le {lo i : Int} (hlo : ∀ k, (m k).isSome → lo ≤ k) :
    m.rank i ≤ (i - lo).toNat := by
  have hsub : {k | k < i ∧ (m k).isSome} ⊆ ((Finset.Ico lo i : Finset Int) : Set Int) := by
    intro k hk
    rw [Finset.coe_Ico]
    exact ⟨hlo k hk.2, hk.1⟩
  have hle := Set.ncard_le_ncard hsub (Finset.finite_toSet _)
  rw [Set.ncard_coe_finset, Int.card_Ico] at hle
  exact hle

theorem Map.rank_eq_ncard {i : Int} (hi : ∀ k, (m k).isSome → k < i) :
    m.rank i = {k | (m k).isSome}.ncard :=
  congrArg Set.ncard (Set.ext fun k => ⟨fun hk => hk.2, fun hk => ⟨hi k hk, hk⟩⟩)

/-! ## Slots -/

namespace Vec

variable {a b : Vec V} {i j : Int} {p : Nat}

/-- The pointer in the slot `i`; null outside the block. -/
def slot (a : Vec V) (i : Int) : Nat := (a.load i).getD 0

/-- The slot `i` holds `x`. -/
structure Cell (a : Vec V) (i : Int) (x : Option (Option V)) : Prop where
  null : a.slot i = 0 → x = none
  element : a.slot i ≠ 0 → a.slot i < a.brk ∧ a.ind (a.slot i) = i ∧ x = some (a.value (a.slot i))

/-- The slots hold the map `m`. -/
structure Cells (a : Vec V) (m : Map V) : Prop where
  size : a.size = a.allocSize
  alloc : 0 ≤ a.allocSize ∧ a.allocSize < 2305843009213693952
  brk : 0 < a.brk
  full : ∀ i, 0 ≤ i → i < a.allocSize → (a.load i).isSome
  cell : ∀ i, a.Cell i (m i)

theorem slot_eq_zero (hi : ¬(0 ≤ i ∧ i < a.size)) : a.slot i = 0 := by
  rw [slot, load, if_neg hi]
  rfl

theorem store_eq (hi : 0 ≤ i ∧ i < a.size) : a.store i p = some (a.put i p) := if_pos hi

theorem load_put (hi : 0 ≤ i ∧ i < a.size) (j : Int) :
    (a.put i p).load j = if j = i then some p else a.load j := by
  unfold load put
  by_cases hj : j = i
  · subst hj
    rw [if_pos hi, if_pos rfl]
    exact Function.update_self _ _ _
  · simp only [hj, if_false, Function.update_of_ne (Ne.intro hj)]

theorem slot_put (hi : 0 ≤ i ∧ i < a.size) (j : Int) :
    (a.put i p).slot j = if j = i then p else a.slot j := by
  rw [slot, load_put hi]
  split
  · rfl
  · rfl

/-- What changes neither the block nor its size changes no slot. -/
theorem slot_congr (helements : b.elements = a.elements) (hsize : b.size = a.size) (i : Int) :
    b.slot i = a.slot i := by
  unfold slot load
  rw [helements, hsize]

namespace Cells

theorem load_eq (h : a.Cells m) (h0 : 0 ≤ i) (hi : i < a.allocSize) :
    a.load i = some (a.slot i) := by
  obtain ⟨p, hp⟩ := Option.isSome_iff_exists.mp (h.full i h0 hi)
  rw [slot, hp]
  rfl

theorem range (h : a.Cells m) (hi : a.slot i ≠ 0) : 0 ≤ i ∧ i < a.allocSize := by
  by_contra hout
  rw [← h.size] at hout
  exact hi (slot_eq_zero hout)

theorem isSome_iff (h : a.Cells m) (i : Int) : (m i).isSome ↔ a.slot i ≠ 0 := by
  constructor
  · intro hi hzero
    rw [(h.cell i).null hzero] at hi
    cases hi
  · intro hi
    rw [((h.cell i).element hi).2.2]
    rfl

theorem below (h : a.Cells m) : m.Below a.allocSize := fun i hi =>
  h.range ((h.isSome_iff i).mp hi)

/-- Two slots do not share an element. -/
theorem inj (h : a.Cells m) (hi : a.slot i ≠ 0) (heq : a.slot i = a.slot j) : i = j := by
  have hind := ((h.cell i).element hi).2.1
  rw [heq] at hi hind
  exact hind.symm.trans ((h.cell j).element hi).2.1

end Cells

/-! ## Loops that fill a range of slots -/

/-- From `a` to `b`, the pointers `g` came into the slots from `lo` to before `hi`. -/
structure Moved (a b : Vec V) (lo hi : Int) (g : Int → Nat) : Prop where
  same : b.value = a.value ∧ b.brk = a.brk ∧ b.size = a.size ∧ b.allocSize = a.allocSize ∧
    b.firstIndex = a.firstIndex ∧ b.maxIndex = a.maxIndex ∧ b.numElements = a.numElements
  load : ∀ j, b.load j = if lo ≤ j ∧ j < hi then some (g j) else a.load j
  ind : ∀ j, lo ≤ j → j < hi → g j ≠ 0 → b.ind (g j) = j
  other : ∀ p, (∀ j, lo ≤ j → j < hi → g j ≠ 0 → g j ≠ p) → b.ind p = a.ind p

namespace Moved

variable {lo hi : Int} {g : Int → Nat}

theorem refl (a : Vec V) (lo : Int) (g : Int → Nat) : Moved a a lo lo g := by
  refine ⟨⟨rfl, rfl, rfl, rfl, rfl, rfl, rfl⟩, fun j => ?_, fun j hlo hhi => ?_, fun p _ => rfl⟩
  · rw [if_neg (by omega)]
  · omega

/-- The slots that are filled already are within the block. -/
theorem slot (h : Moved a b lo hi g) (j : Int) :
    b.slot j = if lo ≤ j ∧ j < hi then g j else a.slot j := by
  rw [Vec.slot, h.load]
  split
  · rfl
  · rfl

theorem move (h : Moved a b lo hi g) (hlo : lo ≤ hi) (hrange : 0 ≤ hi ∧ hi < a.size)
    (hinj : ∀ j, lo ≤ j → j < hi → g j ≠ 0 → g j ≠ g hi) :
    ∃ b', b.move hi (g hi) = some b' ∧ Moved a b' lo (hi + 1) g := by
  obtain ⟨hvalue, hbrk, hsize, hrest⟩ := h.same
  have hrange' : 0 ≤ hi ∧ hi < b.size := by
    rw [hsize]
    exact hrange
  have hload : ∀ j, (b.put hi (g hi)).load j =
      if lo ≤ j ∧ j < hi + 1 then some (g j) else a.load j := by
    intro j
    rw [load_put hrange', h.load]
    by_cases hj : j = hi
    · subst hj
      rw [if_pos rfl, if_pos ⟨hlo, Int.lt_succ j⟩]
    · rw [if_neg hj]
      refine if_congr ?_ rfl rfl
      omega
  unfold Vec.move
  rw [store_eq hrange', Option.bind_eq_bind, Option.bind_some]
  by_cases hg : g hi = 0
  · rw [if_neg (not_not.mpr hg)]
    refine ⟨_, rfl, ⟨hvalue, hbrk, hsize, hrest⟩, hload, fun j hj hj' hgj => ?_, fun p hp => ?_⟩
    · have hne : j ≠ hi := by
        rintro rfl
        exact hgj hg
      exact h.ind j hj (by omega) hgj
    · exact h.other p fun j hj hj' hgj => hp j hj (by omega) hgj
  · rw [if_pos hg]
    refine ⟨_, rfl, ⟨hvalue, hbrk, hsize, hrest⟩, hload, fun j hj hj' hgj => ?_, fun p hp => ?_⟩
    · by_cases hne : j = hi
      · subst hne
        exact Function.update_self _ _ _
      · refine (Function.update_of_ne (hinj j hj (by omega) hgj) _ _).trans ?_
        exact h.ind j hj (by omega) hgj
    · refine (Function.update_of_ne (hp hi hlo (Int.lt_succ hi) hg).symm _ _).trans ?_
      exact h.other p fun j hj hj' hgj => hp j hj (by omega) hgj

/-- A slot that stays null. -/
theorem skip (h : Moved a b lo hi g) (hload : a.load hi = some 0) (hg : g hi = 0) :
    Moved a b lo (hi + 1) g := by
  refine ⟨h.same, fun j => ?_, fun j hj hj' hgj => ?_, fun p hp => ?_⟩
  · rw [h.load]
    by_cases hj : j = hi
    · subst hj
      rw [if_neg (by omega), hload, hg]
      split
      · rfl
      · rfl
    · refine if_congr ?_ rfl rfl
      omega
  · have hne : j ≠ hi := by
      rintro rfl
      exact hgj hg
    exact h.ind j hj (by omega) hgj
  · exact h.other p fun j hj hj' hgj => hp j hj (by omega) hgj

/-- The slots hold a new map. -/
theorem cells (h : Moved a b lo hi g) (ha : a.Cells m) {m' : Map V}
    (hin : ∀ j, lo ≤ j → j < hi → (g j = 0 → m' j = none) ∧
      (g j ≠ 0 → g j < a.brk ∧ m' j = some (a.value (g j))))
    (hout : ∀ j, ¬(lo ≤ j ∧ j < hi) → a.slot j = 0 ∧ m' j = none) : b.Cells m' := by
  obtain ⟨hvalue, hbrk, hsize, halloc, -⟩ := h.same
  refine ⟨?_, ?_, ?_, fun j h0 hj => ?_, fun j => ?_⟩
  · rw [hsize, halloc]
    exact ha.size
  · rw [halloc]
    exact ha.alloc
  · rw [hbrk]
    exact ha.brk
  · rw [halloc] at hj
    rw [h.load]
    split
    · rfl
    · exact ha.full j h0 hj
  · by_cases hj : lo ≤ j ∧ j < hi
    · have hslot : b.slot j = g j := by rw [h.slot, if_pos hj]
      refine ⟨fun hzero => ?_, fun hne => ?_⟩
      · rw [hslot] at hzero
        exact (hin j hj.1 hj.2).1 hzero
      · rw [hslot] at hne ⊢
        rw [hbrk, hvalue]
        obtain ⟨hlt, hm⟩ := (hin j hj.1 hj.2).2 hne
        exact ⟨hlt, h.ind j hj.1 hj.2 hne, hm⟩
    · have hslot : b.slot j = a.slot j := by rw [h.slot, if_neg hj]
      refine ⟨fun _ => (hout j hj).2, fun hne => ?_⟩
      rw [hslot] at hne
      exact absurd (hout j hj).1 hne

end Moved

/-! ## The elements of a range -/

/-- The elements in the slots `i`, ..., `i + k - 1`. -/
def between (a : Vec V) : Nat → Int → List Nat
  | 0, _ => []
  | k + 1, i =>
    if a.slot i ≠ 0 then a.slot i :: between a k (i + 1) else between a k (i + 1)

theorem mem_between {k : Nat} : p ∈ a.between k i ↔
    p ≠ 0 ∧ ∃ j, i ≤ j ∧ j < i + k ∧ a.slot j = p := by
  induction k generalizing i with
  | zero =>
    rw [between]
    refine iff_of_false List.not_mem_nil ?_
    rintro ⟨-, j, hj, hj', -⟩
    rw [Int.ofNat_zero, Int.add_zero] at hj'
    omega
  | succ k ih =>
    have hstep : p ∈ a.between (k + 1) i ↔
        (a.slot i ≠ 0 ∧ p = a.slot i) ∨ p ∈ a.between k (i + 1) := by
      rw [between]
      by_cases hi : a.slot i = 0
      · simp [hi]
      · rw [if_pos hi, List.mem_cons]
        simp [hi]
    rw [hstep, ih]
    constructor
    · intro hp
      rcases hp with ⟨hi, rfl⟩ | ⟨hp, j, hj, hj', rfl⟩
      · exact ⟨hi, i, Int.le_refl i, by omega, rfl⟩
      · exact ⟨hp, j, by omega, by omega, rfl⟩
    · rintro ⟨hp, j, hj, hj', rfl⟩
      by_cases hij : j = i
      · subst hij
        exact Or.inl ⟨hp, rfl⟩
      · exact Or.inr ⟨hp, j, by omega, by omega, rfl⟩

/-- They are in the order of their indices. -/
theorem Cells.between_pairwise (h : a.Cells m) (k : Nat) (i : Int) :
    (a.between k i).Pairwise fun p q => a.ind p < a.ind q := by
  induction k generalizing i with
  | zero => exact List.Pairwise.nil
  | succ k ih =>
    rw [between]
    split
    · rename_i hi
      refine List.pairwise_cons.mpr ⟨fun q hq => ?_, ih (i + 1)⟩
      obtain ⟨hq, j, hj, -, rfl⟩ := mem_between.mp hq
      rw [((h.cell i).element hi).2.1, ((h.cell j).element hq).2.1]
      omega
    · exact ih (i + 1)

/-! ## Searches -/

/-- A search stops at the first slot that is not null, or behind the last. -/
theorem Cells.scan (h : a.Cells m) (d : Int) (k : Nat) (i : Int)
    (hrange : ∀ s : Nat, s < k → 0 ≤ i + d * s ∧ i + d * s < a.allocSize) :
    ∃ s ≤ k, a.scan d k i = some (i + d * s) ∧ (∀ t < s, a.slot (i + d * t) = 0) ∧
      (s < k → a.slot (i + d * s) ≠ 0) := by
  induction k generalizing i with
  | zero => exact ⟨0, Nat.le_refl 0, by simp [Vec.scan], by simp, by simp⟩
  | succ k ih =>
    have hi := hrange 0 (Nat.succ_pos k)
    rw [Nat.cast_zero, Int.mul_zero, Int.add_zero] at hi
    rw [Vec.scan, h.load_eq hi.1 hi.2, Option.bind_eq_bind, Option.bind_some]
    by_cases hslot : a.slot i = 0
    · rw [if_neg (not_not.mpr hslot)]
      have hadd : ∀ s : Nat, i + d * (s + 1 : Nat) = i + d + d * s := by
        intro s
        rw [Nat.cast_succ, Int.mul_add, Int.mul_one]
        omega
      obtain ⟨s, hs, hscan, hzero, hstop⟩ := ih (i + d) fun s hs => by
        rw [← hadd]
        exact hrange (s + 1) (Nat.succ_lt_succ hs)
      refine ⟨s + 1, Nat.succ_le_succ hs, ?_, fun t ht => ?_, fun hlt => ?_⟩
      · rw [hscan, hadd]
      · cases t with
        | zero =>
          rw [Nat.cast_zero, Int.mul_zero, Int.add_zero]
          exact hslot
        | succ t =>
          rw [hadd]
          exact hzero t (Nat.lt_of_succ_lt_succ ht)
      · rw [hadd]
        exact hstop (Nat.lt_of_succ_lt_succ hlt)
    · rw [if_pos hslot]
      refine ⟨0, Nat.zero_le _, by simp, by simp, fun _ => ?_⟩
      rw [Nat.cast_zero, Int.mul_zero, Int.add_zero]
      exact hslot

end Vec

end Basht.Arrays
