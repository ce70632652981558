import Basht.Arrays.Elements
import Mathlib.Data.Set.Card

/-!
# Whole arrays

`array_shift`, `array_rshift`, `array_flush` and `array_copy` in an array that holds a map.
An index is at least the number of elements before it (`Links.length_le`), so shifting to
the left leaves no negative index.
-/

namespace Basht.Arrays

open Chains

variable {V : Type} {a : Arr V} {as : List Nat} {m : Map V}

/-- The `n` smallest indices are removed, and `n` is subtracted from the rest. -/
noncomputable def Map.shift (m : Map V) (n : Nat) : Map V := fun j =>
  if n ≤ {k | k < j + n ∧ (m k).isSome}.ncard then m (j + n) else none

/-! ## Walks along all elements -/

theorem Links.length_le {head q : Nat} {xs ys : List Nat} (h : Links a head (xs ++ q :: ys)) :
    (xs.length : Int) ≤ a.ind q := by
  induction xs using List.reverseRecOn generalizing q ys with
  | nil => exact h.nonneg (by simp)
  | append_singleton xs x ih =>
    have hsplit : Links a head (xs ++ x :: (q :: ys)) := by
      rw [List.append_cons]
      exact h
    have hle := ih hsplit
    have hlt : a.ind x < a.ind q := h.lt_of_mem (by simp) (by simp)
    rw [List.length_append, List.length_singleton]
    omega

theorem skip_spec {ys : List Nat} {ae : Nat} (hlinked : Linked a.next a.prev (ys ++ [a.head]))
    (hhead : a.head ∉ ys) (hae : (ys ++ [a.head]).head? = some ae) (n : Nat) :
    (ys.drop n ++ [a.head]).head? = some (a.skip n ae) := by
  induction n generalizing ys ae with
  | zero => exact hae
  | succ n ih =>
    cases ys with
    | nil =>
      cases hae
      simp [Arr.skip]
    | cons y ys =>
      obtain rfl : y = ae := Option.some.inj hae
      have hne : y ≠ a.head := by
        rintro rfl
        simp at hhead
      rw [Arr.skip, if_neg hne, List.drop_succ_cons]
      refine ih hlinked.of_cons (fun hmem => hhead (List.mem_cons_of_mem _ hmem)) ?_
      cases ys with
      | nil => exact congrArg some hlinked.next_head.symm
      | cons z ys => exact congrArg some hlinked.next_head.symm

theorem findLast_spec {ys : List Nat} {ae : Nat} (hlinked : Linked a.next a.prev (ys ++ [a.head]))
    (hhead : a.head ∉ ys) (hae : ys.head? = some ae) {fuel : Nat} (hfuel : ys.length ≤ fuel) :
    ∃ last, ys.getLast? = some last ∧ a.findLast fuel ae = some last := by
  induction ys generalizing ae fuel with
  | nil => cases hae
  | cons y ys ih =>
    obtain rfl : y = ae := Option.some.inj hae
    obtain ⟨f, rfl⟩ : ∃ f, fuel = f + 1 := ⟨fuel - 1, by simp at hfuel; omega⟩
    rw [Arr.findLast]
    cases ys with
    | nil =>
      have hnext : a.next y = a.head := hlinked.next_head
      rw [if_pos hnext]
      exact ⟨y, rfl, rfl⟩
    | cons z ys =>
      have hnext : a.next y = z := hlinked.next_head
      have hne : z ≠ a.head := by
        rintro rfl
        simp at hhead
      rw [hnext, if_neg hne]
      obtain ⟨last, hend, hlast⟩ := ih hlinked.of_cons
        (fun hmem => hhead (List.mem_cons_of_mem _ hmem)) rfl (by simpa using hfuel)
      exact ⟨last, (List.getLast?_cons_cons ..).trans hend, hlast⟩

/-- The indices of the elements from `ae` on are changed by `d`. -/
theorem renumber_spec {ys : List Nat} {ae : Nat} (d : Int)
    (hlinked : Linked a.next a.prev (ys ++ [a.head])) (hnodup : ys.Nodup) (hhead : a.head ∉ ys)
    (hae : (ys ++ [a.head]).head? = some ae) {fuel : Nat} (hfuel : ys.length < fuel) :
    Arr.renumber d fuel a ae =
      some { a with ind := fun p => if p ∈ ys then a.ind p + d else a.ind p } := by
  induction ys generalizing a ae fuel with
  | nil =>
    cases hae
    obtain ⟨f, rfl⟩ := Nat.exists_eq_add_of_lt hfuel
    simp [Arr.renumber]
  | cons y ys ih =>
    obtain rfl : y = ae := Option.some.inj hae
    obtain ⟨f, rfl⟩ : ∃ f, fuel = f + 1 := ⟨fuel - 1, by simp at hfuel; omega⟩
    obtain ⟨hy, hnodup⟩ := List.nodup_cons.mp hnodup
    have hne : y ≠ a.head := by
      rintro rfl
      simp at hhead
    have hnext : (ys ++ [a.head]).head? = some (a.next y) := by
      cases ys with
      | nil => exact congrArg some hlinked.next_head.symm
      | cons z ys => exact congrArg some hlinked.next_head.symm
    rw [Arr.renumber, if_neg hne]
    refine (ih (a := a.setInd y (a.ind y + d)) hlinked.of_cons hnodup
      (fun hmem => hhead (List.mem_cons_of_mem _ hmem)) hnext (by simpa using hfuel)).trans ?_
    simp only [Arr.setInd, Option.some.injEq, Arr.mk.injEq, true_and, and_true]
    funext p
    rw [Function.update_apply]
    by_cases hp : p = y
    · subst hp
      simp [hy]
    · simp [hp]

/-! ## Shifts to the left -/

/-- The number of indices below that of an element is the number of elements before it. -/
theorem Holds.ncard_lt {s t : List Nat} {p : Nat} (h : Holds a (s ++ p :: t) m) :
    {k | k < a.ind p ∧ (m k).isSome}.ncard = s.length := by
  have hset : {k | k < a.ind p ∧ (m k).isSome} = ((s.map a.ind).toFinset : Set Int) := by
    ext k
    simp only [Set.mem_ofPred_eq, List.coe_toFinset, List.mem_map]
    constructor
    · rintro ⟨hlt, hk⟩
      obtain ⟨v, hv⟩ := Option.isSome_iff_exists.mp hk
      obtain ⟨q, hq, rfl, -⟩ := (h.lists.mem_iff k v).mp hv
      refine ⟨q, ?_, rfl⟩
      rcases List.mem_append.mp hq with hq | hq
      · exact hq
      · rcases List.mem_cons.mp hq with rfl | hq
        · exact absurd hlt (Int.lt_irrefl _)
        · have hsplit : Links a a.head (s ++ [p] ++ t) := by
            rw [← List.append_cons]
            exact h.toLinks
          have hgt : a.ind p < a.ind q := hsplit.lt_of_mem (by simp) hq
          exact absurd hlt (by omega)
    · rintro ⟨q, hq, rfl⟩
      refine ⟨h.toLinks.lt_of_mem hq (by simp), ?_⟩
      rw [h.lists.eq_some (List.mem_append_left _ hq)]
      rfl
  have hnodup : (s.map a.ind).Nodup := by
    have hall := h.lists.nodup
    rw [List.map_append] at hall
    exact hall.of_append_left
  rw [hset, Set.ncard_coe_finset, List.toFinset_card_of_nodup hnodup, List.length_map]

/-- The elements `xs` leave the array; they are the first `n`, or all if there are fewer. -/
theorem Holds.lists_shift {xs ys : List Nat} {n : Nat} {ind : Nat → Int}
    (h : Holds a (xs ++ ys) m) (hle : xs.length ≤ n) (heq : ys ≠ [] → xs.length = n)
    (hind : ∀ p ∈ ys, ind p = a.ind p - n) : Tabulates ind a.value ys (m.shift n) := by
  constructor
  · have hall := h.lists.nodup
    rw [List.map_append] at hall
    have hmap : ys.map ind = (ys.map a.ind).map fun i : Int => i - n := by
      rw [List.map_map]
      exact List.map_congr_left hind
    rw [hmap]
    exact hall.of_append_right.map fun i j (hij : i - n = j - n) => by omega
  · intro j v
    rw [Map.shift]
    constructor
    · intro hv
      split at hv
      · rename_i hrank
        obtain ⟨p, hp, hpj, hpv⟩ := (h.lists.mem_iff _ _).mp hv
        rcases List.mem_append.mp hp with hp | hp
        · -- too few elements lie before one of `xs`
          obtain ⟨s, t, rfl⟩ := List.append_of_mem hp
          have hsplit : Holds a (s ++ p :: (t ++ ys)) m := by
            simpa using h
          rw [← hpj, hsplit.ncard_lt] at hrank
          simp only [List.length_append, List.length_cons] at hle
          omega
        · refine ⟨p, hp, ?_, hpv⟩
          rw [hind p hp]
          omega
      · cases hv
    · rintro ⟨p, hp, rfl, rfl⟩
      obtain ⟨s, t, rfl⟩ := List.append_of_mem hp
      have hsplit : Holds a (xs ++ s ++ p :: t) m := by
        simpa using h
      have hidx : ind p + n = a.ind p := by
        rw [hind p hp]
        omega
      rw [hidx, hsplit.ncard_lt, if_pos, h.lists.eq_some (List.mem_append_right _ hp)]
      rw [List.length_append]
      have hxs := heq (List.ne_nil_of_mem hp)
      omega

theorem Holds.shift_eq (h : Holds a as m) {n : Nat} (hle : as.length ≤ n) :
    m.shift n = fun _ => none := by
  have hall : Holds a (as ++ []) m := by
    rw [List.append_nil]
    exact h
  have hlists : Tabulates a.ind a.value [] (m.shift n) :=
    hall.lists_shift hle (fun hne => absurd rfl hne) (by simp)
  funext j
  exact hlists.eq_none_iff.mpr (by simp)

/-- An array without elements. -/
theorem holds_nil {b : Arr V} (hnext : b.next b.head = b.head) (hprev : b.prev b.head = b.head)
    (halloc : 0 < b.head ∧ b.head < b.brk) (hind : b.ind b.head = -1) (hmax : b.maxIndex = -1)
    (hcount : b.numElements = 0) (hlast : b.lastref = 0) : Holds b [] fun _ => none := by
  refine ⟨⟨⟨⟨Linked.pair hnext hprev, by simp, by simpa using halloc⟩, hind, by simp⟩, hcount, ?_,
    Or.inl hlast⟩, Tabulates.nil⟩
  rw [hmax, hprev, hind]

theorem Holds.arrayFlush (h : Holds a as m) : Holds a.arrayFlush [] fun _ => none :=
  holds_nil (Function.update_self _ _ _) (Function.update_self _ _ _)
    (h.alloc a.head (List.mem_cons_self ..)) h.headInd rfl rfl rfl

/-- The elements `xs` are cut off the ring. -/
theorem Cycle.cut {xs ys : List Nat} {y : Nat} (h : Cycle a a.head (xs ++ y :: ys))
    (hxs : xs ≠ []) :
    Cycle (((a.setNext (a.prev y) 0).setNext a.head y).setPrev y a.head) a.head (y :: ys) := by
  obtain ⟨xs', x, rfl⟩ : ∃ xs' x, xs = xs' ++ [x] :=
    ⟨_, _, (List.dropLast_append_getLast hxs).symm⟩
  have hlast : (a.head :: (xs' ++ [x])).getLast? = some x := by
    rw [← List.cons_append, List.getLast?_concat]
  have hprev : a.prev y = x := (h.seam hlast rfl).2
  obtain ⟨hhead, hnodup⟩ := List.nodup_cons.mp h.nodup
  have hsub : ∀ p ∈ y :: ys, p ≠ x ∧ p ≠ a.head := by
    intro p hp
    refine ⟨?_, h.head_ne (List.mem_append_right _ hp)⟩
    rintro rfl
    exact List.disjoint_of_nodup_append hnodup (by simp) hp
  have hy : ∀ p ∈ ys ++ [a.head], p ≠ y := by
    intro p hp
    rcases List.mem_append.mp hp with hp | hp
    · rintro rfl
      exact (List.nodup_cons.mp hnodup.of_append_right).1 hp
    · rw [List.mem_singleton.mp hp]
      exact Ne.symm (hsub y (by simp)).2
  have hrest : Linked a.next a.prev (y :: (ys ++ [a.head])) :=
    h.linked.part (s := a.head :: (xs' ++ [x])) (t := []) (by simp)
  refine ⟨Linked.cons ?_ ?_ (hrest.congr (fun p hp => ?_) fun p hp => ?_), ?_, fun p hp => ?_⟩
  · exact Function.update_self _ _ _
  · exact Function.update_self _ _ _
  · rw [← List.cons_append, List.dropLast_concat] at hp
    obtain ⟨hpx, hphead⟩ := hsub p hp
    simp only [Arr.setNext, Arr.setPrev, hprev, Function.update_of_ne hpx,
      Function.update_of_ne hphead]
  · exact Function.update_of_ne (hy p hp) _ _
  · refine List.nodup_cons.mpr ⟨fun hmem => (hsub _ hmem).2 rfl, hnodup.of_append_right⟩
  · refine h.alloc p ?_
    rcases List.mem_cons.mp hp with rfl | hp
    · simp
    · exact List.mem_cons_of_mem _ (List.mem_append_right _ hp)

/-- All indices are changed by `d`, which leaves none below 0. -/
theorem Cycle.renumbered {ys : List Nat} {d : Int} (h : Cycle a a.head ys)
    (hind : a.ind a.head = -1) (hsorted : (ys.map a.ind).Pairwise (· < ·))
    (hnonneg : ∀ p ∈ ys, 0 ≤ a.ind p + d) :
    Links { a with ind := fun p => if p ∈ ys then a.ind p + d else a.ind p } a.head ys := by
  have hhead : a.head ∉ ys := (List.nodup_cons.mp h.nodup).1
  refine ⟨⟨h.linked, h.nodup, h.alloc⟩, by simp [hhead, hind], ?_⟩
  have hmap : ys.map (fun p => if p ∈ ys then a.ind p + d else a.ind p) =
      (ys.map a.ind).map (· + d) := by
    rw [List.map_map]
    exact List.map_congr_left fun p hp => if_pos hp
  rw [List.map_cons, hmap, List.pairwise_cons]
  constructor
  · intro i hi
    obtain ⟨j, hj, rfl⟩ := List.mem_map.mp hi
    obtain ⟨p, hp, rfl⟩ := List.mem_map.mp hj
    have hp' := hnonneg p hp
    simp only [hhead, if_false, hind]
    omega
  · exact hsorted.map _ fun i j (hij : i < j) => by omega

/-- `p` is the first of the elements `xs`, which are linked up to a null pointer. -/
structure Chained (a : Arr V) (xs : List Nat) (p : Nat) : Prop where
  first : (xs ++ [0]).head? = some p
  links : (xs ++ [0]).IsChain fun x y => a.next x = y
  nonnull : ∀ x ∈ xs, x ≠ 0

theorem Chained.nil (a : Arr V) : Chained a [] 0 := ⟨rfl, List.isChain_singleton 0, by simp⟩

/-- The last of some linked elements gets a null pointer. -/
theorem chained_of_linked {b : Arr V} {xs : List Nat} {x p : Nat}
    (h : Linked a.next a.prev (xs ++ [x])) (hp : (xs ++ [x]).head? = some p)
    (hnext : ∀ q ∈ xs, b.next q = a.next q) (hlast : b.next x = 0)
    (hnonnull : ∀ q ∈ xs ++ [x], q ≠ 0) : Chained b (xs ++ [x]) p := by
  refine ⟨?_, ?_, hnonnull⟩
  · cases xs with
    | nil => exact hp
    | cons y xs => exact hp
  · rw [List.append_assoc]
    refine List.isChain_split.mpr ⟨List.isChain_iff_forall_rel_of_append_cons_cons.mpr
      fun u v l₁ l₂ hl => ?_, List.isChain_pair.mpr hlast⟩
    have hu : u ∈ xs := by
      have hdrop := congrArg List.dropLast hl
      rw [List.dropLast_concat] at hdrop
      rw [hdrop]
      simp [List.dropLast_append_of_ne_nil]
    rw [hl] at h
    rw [hnext u hu, h.next_eq]

theorem Holds.shiftOut (h : Holds a as m) (hne : as ≠ []) (hlastref : a.lastref = 0) {n : Int}
    (hn : 0 < n) (dispose : Bool) {fuel : Nat} (hfuel : as.length < fuel) :
    ∃ a' as' ret, a.shiftOut fuel n dispose = some (a', ret) ∧ Holds a' as' (m.shift n.toNat) ∧
      as'.length ≤ as.length ∧ Chained a' (if dispose then [] else as.take n.toNat) ret ∧
      ∀ p ∈ as.take n.toNat, a'.ind p = a.ind p ∧ a'.value p = a.value p := by
  obtain ⟨q, l, hq, hnext, -⟩ := h.toRing.exists_first hne
  have hhead := (List.nodup_cons.mp h.nodup).1
  have hfirst : (as ++ [a.head]).head? = some (a.next a.head) := by
    rw [hq, hnext]
    rfl
  have hskip := skip_spec h.linked.of_cons hhead hfirst n.toNat
  have hlen : as.length = (as.take n.toNat).length + (as.drop n.toNat).length := by
    rw [← List.length_append, List.take_append_drop]
  have hsplit : Holds a (as.take n.toNat ++ as.drop n.toNat) m := by
    rwa [List.take_append_drop]
  unfold Arr.shiftOut
  cases hys : as.drop n.toNat with
  | nil =>
    rw [hys, List.nil_append] at hskip
    simp only [(Option.some.inj hskip).symm, if_true]
    rw [h.shift_eq (List.drop_eq_nil_iff.mp hys)]
    cases dispose with
    | true =>
      exact ⟨_, [], 0, rfl, h.arrayFlush, Nat.zero_le _, Chained.nil _, fun _ _ => ⟨rfl, rfl⟩⟩
    | false =>
      have hstart : as.head? = some (a.next a.head) := by
        rw [hq, hnext]
        rfl
      obtain ⟨last, hend, hlast⟩ :=
        findLast_spec h.linked.of_cons hhead hstart (Nat.le_of_lt hfuel)
      simp only [hlast, Bool.false_eq_true, if_false]
      obtain ⟨xs, has⟩ := List.getLast?_eq_some_iff.mp hend
      have hlinked : Linked a.next a.prev (xs ++ [last]) := by
        rw [← has]
        exact h.linked.part (s := [a.head]) (t := [a.head]) rfl
      have hnodup : (a.head :: (xs ++ [last])).Nodup := by
        rw [← has]
        exact h.nodup
      obtain ⟨hheadmem, hnodup⟩ := List.nodup_cons.mp hnodup
      have hlastmem : last ∉ xs := fun hmem =>
        List.disjoint_of_nodup_append hnodup hmem (List.mem_singleton_self last)
      have hlasthead : last ≠ a.head := by
        rintro rfl
        exact hheadmem (by simp)
      refine ⟨_, [], _, rfl, ?_, Nat.zero_le _, ?_, fun _ _ => ⟨rfl, rfl⟩⟩
      · exact holds_nil (Function.update_self _ _ _) (Function.update_self _ _ _)
          (h.alloc a.head (List.mem_cons_self ..)) h.headInd rfl rfl hlastref
      · rw [List.take_of_length_le (List.drop_eq_nil_iff.mp hys), has]
        refine chained_of_linked hlinked (by rw [← has]; exact hstart) (fun p hp => ?_) ?_ fun p hp => ?_
        · have hphead : p ≠ a.head := by
            rintro rfl
            exact hheadmem (List.mem_append_left _ hp)
          have hplast : p ≠ last := by
            rintro rfl
            exact hlastmem hp
          exact (Function.update_of_ne hphead _ _).trans (Function.update_of_ne hplast _ _)
        · exact (Function.update_of_ne hlasthead _ _).trans (Function.update_self _ _ _)
        · rw [← has] at hp
          exact Nat.ne_of_gt (h.alloc p (List.mem_cons_of_mem _ hp)).1
  | cons y ys =>
    rw [hys] at hskip hsplit hlen
    have hy : a.skip n.toNat (a.next a.head) = y := (Option.some.inj hskip).symm
    have hyhead : y ≠ a.head := hsplit.toCycle.head_ne (by simp)
    have hxslen : (as.take n.toNat).length = n.toNat := by
      rw [List.length_cons] at hlen
      rw [List.length_take] at hlen ⊢
      omega
    have hxs : as.take n.toNat ≠ [] := by
      intro hnil
      rw [hnil, List.length_nil] at hxslen
      omega
    simp only [hy, if_neg hyhead]
    have hcut := hsplit.toCycle.cut hxs
    have hnonneg : ∀ p ∈ y :: ys, 0 ≤ a.ind p + -n := by
      intro p hp
      obtain ⟨s, t, hst⟩ := List.append_of_mem hp
      have hlinks : Links a a.head (as.take n.toNat ++ s ++ p :: t) := by
        rw [List.append_assoc, ← hst]
        exact hsplit.toLinks
      have hle := hlinks.length_le
      rw [List.length_append] at hle
      omega
    have hsorted : ((y :: ys).map a.ind).Pairwise (· < ·) := by
      have hall := hsplit.sorted
      rw [List.map_cons, List.pairwise_cons, List.map_append, List.pairwise_append] at hall
      exact hall.2.2.1
    have hlinks := hcut.renumbered (d := -n) h.headInd hsorted hnonneg
    obtain ⟨hhead', hnodup'⟩ := List.nodup_cons.mp hcut.nodup
    have hfuel' : (y :: ys).length < fuel := by
      rw [List.length_cons] at hlen ⊢
      omega
    have hrenumber := renumber_spec (-n) hcut.linked.of_cons hnodup' hhead' rfl hfuel'
    simp only [hrenumber]
    obtain ⟨xs, x, hxsx⟩ : ∃ xs x, as.take n.toNat = xs ++ [x] :=
      ⟨_, _, (List.dropLast_append_getLast hxs).symm⟩
    have hall := hsplit.nodup
    rw [hxsx, List.nodup_cons] at hall
    obtain ⟨hheadmem, hall⟩ := hall
    have hprevy : a.prev y = x := by
      refine (hsplit.toCycle.seam (x := x) ?_ rfl).2
      rw [hxsx, ← List.cons_append, List.getLast?_concat]
    have hxmem : x ∉ xs := fun hmem =>
      List.disjoint_of_nodup_append hall.of_append_left hmem (List.mem_singleton_self x)
    have hheadxs : ∀ p ∈ xs ++ [x], p ≠ a.head := by
      rintro p hp rfl
      exact hheadmem (List.mem_append_left _ hp)
    have hout : ∀ p ∈ as.take n.toNat, p ∉ y :: ys := by
      intro p hp hmem
      rw [hxsx] at hp
      exact List.disjoint_of_nodup_append hall hp hmem
    refine ⟨_, y :: ys, _, rfl, ⟨⟨⟨⟨hlinks.linked, hlinks.nodup, hlinks.alloc⟩, hlinks.headInd,
      hlinks.sorted⟩, ?_, rfl, Or.inl hlastref⟩, ?_⟩, by rw [hlen]; omega, ?_,
      fun p hp => ⟨if_neg (hout p hp), rfl⟩⟩
    · have hcount := h.count
      simp only [Arr.setNext, Arr.setPrev]
      omega
    · refine hsplit.lists_shift (Nat.le_of_eq hxslen) (fun _ => hxslen) fun p hp => ?_
      simp only [if_pos hp, Arr.setNext, Arr.setPrev]
      omega
    · cases dispose with
      | true => exact Chained.nil _
      | false =>
        simp only [Bool.false_eq_true, if_false]
        rw [hxsx]
        have hpart : Linked a.next a.prev (xs ++ [x]) := by
          rw [← hxsx]
          refine h.linked.part (s := [a.head]) (t := as.drop n.toNat ++ [a.head]) ?_
          rw [List.append_assoc, ← List.append_assoc (as.take n.toNat), List.take_append_drop]
          rfl
        have hfirst' : (xs ++ [x]).head? = some (a.next a.head) := by
          rw [← hxsx, List.head?_take, if_neg (by omega), hq, hnext]
          rfl
        refine chained_of_linked hpart hfirst' (fun p hp => ?_) ?_ fun p hp => ?_
        · have hpx : p ≠ a.prev y := by
            rw [hprevy]
            rintro rfl
            exact hxmem hp
          exact (Function.update_of_ne (hheadxs p (List.mem_append_left _ hp)) _ _).trans
            (Function.update_of_ne hpx _ _)
        · rw [← hprevy]
          refine (Function.update_of_ne ?_ _ _).trans (Function.update_self _ _ _)
          rw [hprevy]
          exact hheadxs x (by simp)
        · rw [← hxsx] at hp
          exact Nat.ne_of_gt (h.alloc p (List.mem_cons_of_mem _ (List.mem_of_mem_take hp))).1

/-- `array_shift` returns the elements it shifts out. -/
theorem Holds.arrayShift_returns (h : Holds a as m) (n : Int) (dispose : Bool) {fuel : Nat}
    (hfuel : as.length < fuel) :
    ∃ a' as' ret, a.arrayShift fuel n dispose = some (a', ret) ∧ Holds a' as' (m.shift n.toNat) ∧
      as'.length ≤ as.length ∧ Chained a' (if dispose then [] else as.take n.toNat) ret ∧
      ∀ p ∈ as.take n.toNat, a'.ind p = a.ind p ∧ a'.value p = a.value p := by
  unfold Arr.arrayShift
  split
  · rename_i hnone
    have htake : as.take n.toNat = [] := by
      rcases hnone with hempty | hn
      · rw [h.toRing.isEmpty_iff.mp hempty, List.take_nil]
      · rw [Int.toNat_of_nonpos hn, List.take_zero]
    refine ⟨a, as, 0, rfl, ?_, Nat.le_refl _, ?_, fun _ _ => ⟨rfl, rfl⟩⟩
    · rcases hnone with hempty | hn
      · have has := h.toRing.isEmpty_iff.mp hempty
        subst has
        rw [h.shift_eq (Nat.zero_le _)]
        exact ⟨h.toRing, Tabulates.nil⟩
      · have hshift : m.shift n.toNat = m := by
          rw [Int.toNat_of_nonpos hn]
          funext j
          simp [Map.shift]
        rw [hshift]
        exact h
    · rw [htake, ite_self]
      exact Chained.nil a
  · rename_i hsome
    obtain ⟨hempty, hn⟩ := not_or.mp hsome
    have hne : as ≠ [] := fun has => hempty (h.toRing.isEmpty_iff.mpr has)
    exact (h.setLastref (Or.inl rfl)).shiftOut hne rfl (Int.not_le.mp hn) dispose hfuel

theorem Holds.arrayShift (h : Holds a as m) (n : Int) (dispose : Bool) {fuel : Nat}
    (hfuel : as.length < fuel) :
    ∃ a' as' ret, a.arrayShift fuel n dispose = some (a', ret) ∧ Holds a' as' (m.shift n.toNat) ∧
      as'.length ≤ as.length := by
  obtain ⟨a', as', ret, hrun, hholds, hlen, -⟩ := h.arrayShift_returns n dispose hfuel
  exact ⟨a', as', ret, hrun, hholds, hlen⟩

/-! ## Shifts to the right -/

/-- `n` is added to all indices, and `s`, if there is one, becomes the element 0. -/
def Map.rshift (m : Map V) (n : Int) (s : Option V) : Map V :=
  if n ≤ 0 then m else fun j => if j = 0 ∧ s.isSome then some s else m (j - n)

theorem lists_rshift (h : Tabulates a.ind a.value as m) (n : Int) :
    Tabulates (fun p => if p ∈ as then a.ind p + n else a.ind p) a.value as fun j => m (j - n) := by
  constructor
  · have hmap : as.map (fun p => if p ∈ as then a.ind p + n else a.ind p) =
        (as.map a.ind).map fun i : Int => i + n := by
      rw [List.map_map]
      exact List.map_congr_left fun p hp => if_pos hp
    rw [hmap]
    exact h.nodup.map fun i j (hij : i + n = j + n) => by omega
  · intro j v
    rw [h.mem_iff]
    refine exists_congr fun p => and_congr_right fun hp => and_congr_left' ?_
    rw [if_pos hp]
    omega

theorem Holds.sorted_elements (h : Holds a as m) : (as.map a.ind).Pairwise (· < ·) := by
  have hsorted := h.sorted
  rw [List.map_cons, List.pairwise_cons] at hsorted
  exact hsorted.2

/-- The first element and the head. -/
theorem Cycle.next_head (h : Cycle a a.head as) :
    (as ++ [a.head]).head? = some (a.next a.head) ∧ a.prev (a.next a.head) = a.head := by
  obtain ⟨y, hy⟩ : ∃ y, (as ++ [a.head]).head? = some y :=
    ⟨(as ++ [a.head]).head (by simp), List.head?_eq_some_head _⟩
  obtain ⟨hnext, hprev⟩ := h.first hy
  rw [hnext]
  exact ⟨hy, hprev⟩

/-- The shift to the right without a new element. -/
theorem Holds.renumber_right (h : Holds a as m) {n : Int} (hn : 0 < n) {fuel : Nat}
    (hfuel : as.length < fuel) : ∃ a', Arr.renumber n fuel a (a.next a.head) = some a' ∧
      Holds { a' with maxIndex := a'.ind (a'.prev a'.head), lastref := 0 } as
        (m.rshift n none) := by
  obtain ⟨hhead, hnodup⟩ := List.nodup_cons.mp h.nodup
  have hlinks := h.toCycle.renumbered h.headInd h.sorted_elements (d := n) fun p hp => by
    have hp' := h.toLinks.nonneg hp
    omega
  refine ⟨_, renumber_spec n h.linked.of_cons hnodup hhead h.toCycle.next_head.1 hfuel,
    ⟨⟨⟨hlinks.linked, hlinks.nodup, hlinks.alloc⟩, hlinks.headInd, hlinks.sorted⟩, h.count, rfl,
      Or.inl rfl⟩, ?_⟩
  have hmap : m.rshift n none = fun j => m (j - n) := by
    rw [Map.rshift, if_neg (Int.not_le.mpr hn)]
    simp
  rw [hmap]
  exact lists_rshift h.lists n

/-- A new element with the index 0 is linked in behind the head. -/
theorem Holds.createFirst (h : Holds a as m) (s : Option V) :
    Cycle ((a.arrayCreateElement 0 s).addBefore (a.next a.head) a.brk) a.head (a.brk :: as) ∧
      (∀ p ∈ a.head :: as, ((a.arrayCreateElement 0 s).addBefore (a.next a.head) a.brk).ind p =
        a.ind p) ∧
      (∀ p ∈ as, ((a.arrayCreateElement 0 s).addBefore (a.next a.head) a.brk).value p =
        a.value p) := by
  have hb := h.createElement 0 s
  have hn := h.brk_notMem
  have hne : ∀ p ∈ a.head :: as, p ≠ a.brk := by
    rintro p hp rfl
    exact hn hp
  obtain ⟨hfirst, hprev⟩ := h.toCycle.next_head
  have hmem : a.next a.head ∈ a.head :: as :=
    (List.perm_append_singleton a.head as).mem_iff.mp (List.mem_of_head? hfirst)
  have hprev' : (a.arrayCreateElement 0 s).prev (a.next a.head) = a.head :=
    (a.arrayCreateElement_ne 0 s (hne _ hmem)).2.1.trans hprev
  have hfront : Cycle (a.arrayCreateElement 0 s) a.head ([] ++ as) := hb.toCycle
  refine ⟨hfront.add (x := a.head) rfl hfirst hn ⟨?_, Nat.lt_succ_self _⟩ (fun p => ?_) (fun p => ?_) rfl,
    fun p hp => ?_, fun p hp => ?_⟩
  · exact Nat.lt_of_le_of_lt (Nat.zero_le _) (h.alloc a.head (List.mem_cons_self ..)).2
  · rw [Arr.addBefore_next, hprev']
  · rw [Arr.addBefore_prev, hprev']
  · exact (a.arrayCreateElement_ne 0 s (hne p hp)).2.2.1
  · exact (a.arrayCreateElement_ne 0 s (hne p (List.mem_cons_of_mem _ hp))).2.2.2

/-- The array with the element 0 in front of the others, whose indices have grown. -/
theorem Holds.consZero {e : Arr V} {n : Int} {new : Nat} {s : V} (h : Holds a as m)
    (hn : 0 < n) (hcycle : Cycle e e.head (new :: as)) (hhead : e.ind e.head = -1)
    (hnew : e.ind new = 0 ∧ e.value new = some s)
    (hold : ∀ p ∈ as, e.ind p = a.ind p + n ∧ e.value p = a.value p)
    (hcount : e.numElements = a.numElements + 1) (hmax : e.maxIndex = e.ind (e.prev e.head))
    (hlast : e.lastref = 0) : Holds e (new :: as) (m.rshift n (some s)) := by
  have hlists : Tabulates e.ind e.value as fun j => m (j - n) := by
    refine (lists_rshift h.lists n).congr fun p hp => ?_
    rw [if_pos hp]
    exact hold p hp
  have hnone : (fun j => m (j - n)) (e.ind new) = none := by
    refine h.eq_none fun p hp => ?_
    have hp' := h.toLinks.nonneg hp
    rw [hnew.1]
    omega
  have hcons := hlists.cons hnone
  have hmap : Function.update (fun j => m (j - n)) (e.ind new) (some (e.value new)) =
      m.rshift n (some s) := by
    funext j
    rw [Map.rshift, if_neg (Int.not_le.mpr hn), hnew.1, hnew.2, Function.update_apply]
    simp
  rw [hmap] at hcons
  refine ⟨⟨⟨hcycle, hhead, ?_⟩, ?_, hmax, Or.inl hlast⟩, hcons⟩
  · have hinds : as.map e.ind = (as.map a.ind).map (· + n) := by
      rw [List.map_map]
      exact List.map_congr_left fun p hp => (hold p hp).1
    have hpos : ∀ i ∈ (as.map a.ind).map (· + n), 0 < i := by
      intro i hi
      obtain ⟨j, hj, rfl⟩ := List.mem_map.mp hi
      obtain ⟨p, hp, rfl⟩ := List.mem_map.mp hj
      have hp' := h.toLinks.nonneg hp
      omega
    rw [List.map_cons, List.map_cons, hinds, hhead, hnew.1, List.pairwise_cons,
      List.pairwise_cons]
    refine ⟨fun i hi => ?_, hpos, h.sorted_elements.map _ fun i j (hij : i < j) => by omega⟩
    rcases List.mem_cons.mp hi with rfl | hi
    · omega
    · have hi' := hpos i hi
      omega
  · rw [hcount, h.count, List.length_cons]
    omega

/-- `array_rshift` returns the number of elements. -/
theorem Holds.arrayRshift_returns (h : Holds a as m) (n : Int) (s : Option V) {fuel : Nat}
    (hfuel : as.length < fuel) :
    ∃ a' as', a.arrayRshift fuel n s = some (a', a'.numElements) ∧
      Holds a' as' (m.rshift n s) ∧ as'.length ≤ as.length + 1 := by
  unfold Arr.arrayRshift
  split
  · rename_i hnone
    obtain ⟨hempty, rfl⟩ := hnone
    obtain rfl := h.toRing.isEmpty_iff.mp hempty
    have hm : m = fun _ => none := funext fun j => h.lists.eq_none_iff.mpr (by simp)
    have hshift : m.rshift n none = m := by
      rw [hm, Map.rshift]
      simp
    rw [hshift]
    have hzero : a.numElements = 0 := h.count
    exact ⟨a, [], by rw [hzero], h, Nat.zero_le _⟩
  · rename_i hsome
    split
    · rename_i hn
      rw [Map.rshift, if_pos hn]
      exact ⟨_, as, rfl, h, Nat.le_succ _⟩
    · rename_i hn
      have hpos : 0 < n := Int.not_le.mp hn
      cases s with
      | none =>
        obtain ⟨a', hrenumber, hholds⟩ := h.renumber_right hpos hfuel
        simp only [ne_eq, not_true_eq_false, if_false, false_and, hrenumber]
        exact ⟨_, as, rfl, hholds, Nat.le_succ _⟩
      | some w =>
        obtain ⟨hcycle, hind, hvalue⟩ := h.createFirst (some w)
        obtain ⟨hnewind, hnewvalue⟩ := a.arrayCreateElement_self 0 (some w)
        obtain ⟨hhead, hnodup⟩ := List.nodup_cons.mp hcycle.nodup
        obtain ⟨hnewmem, hnodup⟩ := List.nodup_cons.mp hnodup
        have hhead' : a.head ∉ as := fun hmem => hhead (List.mem_cons_of_mem _ hmem)
        have hheadind := (hind a.head (List.mem_cons_self ..)).trans h.headInd
        simp only [ne_eq, reduceCtorEq, not_false_eq_true, if_true, true_and]
        split
        · rename_i hone
          have has : as = [] := by
            have hcount := h.count
            have hzero : a.numElements + 1 = 1 := hone
            rw [← List.length_eq_zero_iff]
            omega
          subst has
          have hlast : a.lastref = 0 := h.lastref.resolve_right List.not_mem_nil
          have hmax := Option.some.inj hcycle.getLast?_eq
          refine ⟨{ (a.arrayCreateElement 0 (some w)).addBefore (a.next a.head) a.brk with
              numElements := a.numElements + 1, maxIndex := 0 }, [a.brk],
            congrArg (fun k => some (_, k)) (Eq.symm hone), h.consZero hpos ⟨hcycle.linked, hcycle.nodup, hcycle.alloc⟩
            hheadind ⟨hnewind, hnewvalue⟩ (fun p hp => absurd hp List.not_mem_nil) rfl ?_ hlast,
            Nat.le_refl _⟩
          exact hnewind.symm.trans (congrArg _ hmax)
        · have hrenumber := renumber_spec
            (a := { (a.arrayCreateElement 0 (some w)).addBefore (a.next a.head) a.brk with
              numElements := a.numElements + 1 }) n
            hcycle.linked.of_cons.of_cons hnodup hhead' h.toCycle.next_head.1 hfuel
          rw [show ((a.arrayCreateElement 0 (some w)).addBefore (a.next a.head) a.brk).numElements =
            a.numElements from rfl, hrenumber]
          refine ⟨_, a.brk :: as, rfl, h.consZero hpos
            ⟨hcycle.linked, hcycle.nodup, hcycle.alloc⟩ ?_ ⟨?_, hnewvalue⟩
            (fun p hp => ⟨?_, hvalue p hp⟩) rfl rfl rfl, Nat.le_refl _⟩
          · exact (if_neg hhead').trans hheadind
          · exact (if_neg hnewmem).trans hnewind
          · refine (if_pos hp).trans ?_
            rw [hind p (List.mem_cons_of_mem _ hp)]

theorem Holds.arrayRshift (h : Holds a as m) (n : Int) (s : Option V) {fuel : Nat}
    (hfuel : as.length < fuel) :
    ∃ a' as' num, a.arrayRshift fuel n s = some (a', num) ∧ Holds a' as' (m.rshift n s) ∧
      as'.length ≤ as.length + 1 := by
  obtain ⟨a', as', hrun, hholds, hlen⟩ := h.arrayRshift_returns n s hfuel
  exact ⟨a', as', _, hrun, hholds, hlen⟩

end Basht.Arrays
