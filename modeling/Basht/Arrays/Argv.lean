import Basht.Arrays.FiniteMap
import Mathlib.Data.List.Perm.Subperm
import Mathlib.Data.List.Sort

/-!
# Assigning a vector

`array_from_argv` assigns a vector to an array. It gives an array that has elements already, and
not too many of them, the new values in place, but gives all of them the first string and leaves
their indices as they are. So it assigns the vector if the array has more elements than the vector
or none, or the first strings are equal and the elements are numbered from 0 on
(`Holds.assigns_iff`).
-/

namespace Basht.Arrays

open Chains

variable {V : Type}

namespace Arr

/-- `for ( ; i < count; i++) array_insert (a, i, vec[i])`; `vec` are the strings from `i` on. -/
def insertAll (fuel : Nat) : Arr V → Int → List (Option V) → Option (Arr V)
  | a, _, [] => some a
  | a, i, v :: vec =>
    match a.arrayInsert fuel i v with
    | none => none
    | some (a, _) => insertAll fuel a (i + 1) vec

/-- `ae = element_forw (ae)` and `ARRAY_ELEMENT_REPLACE (ae, t)`, `n` times. -/
def replaceAll (t : Option V) : Nat → Arr V → Nat → Arr V
  | 0, a, _ => a
  | n + 1, a, ae => replaceAll t n (a.setValue (a.next ae) t) (a.next ae)

/-- `array_from_argv`; `vec` is a vector of `count` strings. -/
def arrayFromArgv (fuel : Nat) (a : Arr V) (vec : List (Option V)) : Option (Arr V) :=
  let count : Int := vec.length
  if a.numElements = 0 then insertAll fuel a 0 vec
  else
    let t := vec.head?.join
    if a.numElements = count ∧ count = 1 then some (a.setValue (a.next a.head) t)
    else if a.numElements ≤ count then
      insertAll fuel (replaceAll t a.numElements.toNat a a.head) a.numElements
        (vec.drop a.numElements.toNat)
    else insertAll fuel a.arrayFlush 0 vec

end Arr

/-- The map with the strings of a vector at the indices from `i` on. -/
def Map.store (m : Map V) (i : Int) : List (Option V) → Map V
  | [] => m
  | v :: vec => store (Function.update m i (some v)) (i + 1) vec

/-- The vector as a map. -/
def Map.ofArgv (vec : List (Option V)) : Map V := fun i => if 0 ≤ i then vec[i.toNat]? else none

variable {a b : Arr V} {as : List Nat} {m : Map V}

/-! ## Maps -/

theorem Map.store_apply (m : Map V) (i j : Int) (vec : List (Option V)) :
    m.store i vec j = if i ≤ j ∧ j < i + vec.length then vec[(j - i).toNat]? else m j := by
  induction vec generalizing m i with
  | nil =>
    rw [store, if_neg]
    rw [List.length_nil]
    omega
  | cons v vec ih =>
    rw [store, ih, List.length_cons]
    by_cases hj : j = i
    · subst hj
      rw [if_neg (by omega), if_pos (by omega), Function.update_self, Int.sub_self]
      rfl
    · rw [Function.update_of_ne hj]
      by_cases hlt : i + 1 ≤ j ∧ j < i + 1 + vec.length
      · have hs : (j - i).toNat = (j - (i + 1)).toNat + 1 := by omega
        rw [if_pos hlt, if_pos (by push_cast; omega), hs, List.getElem?_cons_succ]
      · rw [if_neg hlt, if_neg (by push_cast; omega)]

theorem Map.store_none (vec : List (Option V)) :
    Map.store (fun _ => none) 0 vec = Map.ofArgv vec := by
  funext j
  rw [store_apply, ofArgv]
  by_cases hj : 0 ≤ j
  · rw [if_pos hj, Int.sub_zero]
    by_cases hlt : j < vec.length
    · rw [if_pos (by omega)]
    · rw [if_neg (by omega), List.getElem?_eq_none (by omega)]
  · rw [if_neg hj, if_neg (by omega)]

/-! ## The loops -/

theorem Holds.insertAll (h : Holds a as m) {i : Int} (hi : 0 ≤ i) (vec : List (Option V))
    {fuel : Nat} (hfuel : as.length + vec.length < fuel) :
    ∃ a' as', a.insertAll fuel i vec = some a' ∧ Holds a' as' (m.store i vec) := by
  induction vec generalizing a as m i with
  | nil => exact ⟨a, as, rfl, h⟩
  | cons v vec ih =>
    rw [List.length_cons] at hfuel
    obtain ⟨b, bs, hrun, hb, hlen⟩ := h.arrayInsert hi v (by omega : as.length < fuel)
    obtain ⟨c, cs, hrest, hc⟩ := ih hb (i := i + 1) (by omega) (by omega)
    refine ⟨c, cs, ?_, hc⟩
    rw [Arr.insertAll, hrun]
    exact hrest

/-- The loop over the elements `ys` behind `ae`. -/
theorem replaceAll_eq (t : Option V) {ae e : Nat} {ys : List Nat}
    (hlinked : Linked a.next a.prev (ae :: (ys ++ [e]))) :
    a.replaceAll t ys.length ae = { a with value := fun p => if p ∈ ys then t else a.value p } := by
  induction ys generalizing a ae with
  | nil =>
    rw [List.length_nil, Arr.replaceAll]
    simp only [List.not_mem_nil, if_false]
  | cons y ys ih =>
    have hnext : a.next ae = y := hlinked.next_head
    rw [List.length_cons, Arr.replaceAll, hnext, ih (a := a.setValue y t) hlinked.of_cons]
    simp only [Arr.setValue, List.mem_cons]
    congr 1
    funext p
    by_cases hp : p = y
    · subst hp
      rw [Function.update_self, ite_self, if_pos (Or.inl rfl)]
    · rw [Function.update_of_ne hp]
      simp only [hp, false_or]

theorem Holds.replaceAll (h : Holds a as m) (t : Option V) :
    Holds (a.replaceAll t as.length a.head) as fun i => (m i).map fun _ => t := by
  rw [replaceAll_eq t h.linked]
  refine ⟨⟨⟨⟨h.linked, h.nodup, h.alloc⟩, h.headInd, h.sorted⟩, h.count, h.max, h.lastref⟩, ?_⟩
  refine ⟨h.lists.nodup, fun k d => ?_⟩
  rw [Option.map_eq_some_iff]
  constructor
  · rintro ⟨d', hd', rfl⟩
    obtain ⟨e, he, hk, -⟩ := (h.lists.mem_iff k d').mp hd'
    exact ⟨e, he, hk, if_pos he⟩
  · rintro ⟨e, he, rfl, hd⟩
    exact ⟨a.value e, h.lists.eq_some he, (if_pos he).symm.trans hd⟩

/-! ## What the array holds -/

/-- The elements of an array are determined by its links. -/
theorem Cycle.elements_eq {head : Nat} {bs : List Nat} (ha : Cycle a head as)
    (hb : Cycle a head bs) : as = bs := by
  have key : ∀ (xs ys : List Nat) (x : Nat), Linked a.next a.prev (x :: (xs ++ [head])) →
      Linked a.next a.prev (x :: (ys ++ [head])) → head ∉ xs → head ∉ ys → xs = ys := by
    intro xs
    induction xs with
    | nil =>
      intro ys x hxs hys _ hn
      cases ys with
      | nil => rfl
      | cons y ys =>
        have h1 : head = y := hxs.next_head.symm.trans hys.next_head
        exact absurd (h1 ▸ List.mem_cons_self ..) hn
    | cons y xs ih =>
      intro ys x hxs hys hn hn'
      cases ys with
      | nil =>
        have h1 : y = head := hxs.next_head.symm.trans hys.next_head
        exact absurd (h1 ▸ List.mem_cons_self ..) hn
      | cons z ys =>
        obtain rfl : y = z := hxs.next_head.symm.trans hys.next_head
        rw [ih ys y hxs.of_cons hys.of_cons (fun h => hn (List.mem_cons_of_mem _ h))
          fun h => hn' (List.mem_cons_of_mem _ h)]
  exact key as bs head ha.linked hb.linked (List.nodup_cons.mp ha.nodup).1
    (List.nodup_cons.mp hb.nodup).1

/-- An array holds one map. -/
theorem Holds.map_eq {bs : List Nat} {m' : Map V} (h : Holds a as m) (h' : Holds a bs m') :
    m = m' := by
  obtain rfl := h.toCycle.elements_eq h'.toCycle
  funext i
  apply Option.ext
  intro v
  rw [h.lists.mem_iff, h'.lists.mem_iff]

/-- The indices of the elements. -/
theorem Holds.isSome_iff (h : Holds a as m) (i : Int) :
    (m i).isSome ↔ i ∈ as.map a.ind := by
  rw [Option.isSome_iff_ne_none, Ne, h.lists.eq_none_iff, List.mem_map]
  push Not
  rfl

theorem mem_range_int (n : Nat) (i : Int) :
    i ∈ (List.range n).map (fun k : Nat => (k : Int)) ↔ 0 ≤ i ∧ i < n := by
  rw [List.mem_map]
  constructor
  · rintro ⟨k, hk, rfl⟩
    have := List.mem_range.mp hk
    omega
  · rintro ⟨h0, h1⟩
    exact ⟨i.toNat, List.mem_range.mpr (by omega), by omega⟩

/-- `n` elements whose indices are below `n` have all of these. -/
theorem Holds.isSome_of_lt (h : Holds a as m) (hlt : ∀ p ∈ as, a.ind p < as.length) (i : Int) :
    (m i).isSome ↔ 0 ≤ i ∧ i < as.length := by
  rw [h.isSome_iff, ← mem_range_int]
  have hsub : as.map a.ind ⊆ (List.range as.length).map (fun k : Nat => (k : Int)) := by
    intro j hj
    obtain ⟨p, hp, rfl⟩ := List.mem_map.mp hj
    exact (mem_range_int _ _).mpr ⟨h.toLinks.nonneg hp, hlt p hp⟩
  have hnodup : (as.map a.ind).Nodup := h.lists.nodup
  apply ((hnodup.subperm hsub).perm_of_length_le _).mem_iff
  rw [List.length_map, List.length_map, List.length_range]

/-- `n` elements that have all the indices below `n` have no other ones. -/
theorem Holds.lt_of_isSome (h : Holds a as m)
    (hall : ∀ i : Int, 0 ≤ i → i < as.length → (m i).isSome) : ∀ p ∈ as, a.ind p < as.length := by
  intro p hp
  have hsub : (List.range as.length).map (fun k : Nat => (k : Int)) ⊆ as.map a.ind := by
    intro i hi
    obtain ⟨h0, h1⟩ := (mem_range_int _ _).mp hi
    exact (h.isSome_iff i).mp (hall i h0 h1)
  have hnodup : ((List.range as.length).map (fun k : Nat => (k : Int))).Nodup :=
    List.nodup_range.map Int.ofNat_injective
  have hperm : ((List.range as.length).map (fun k : Nat => (k : Int))).Perm (as.map a.ind) := by
    apply (hnodup.subperm hsub).perm_of_length_le
    rw [List.length_map, List.length_map, List.length_range]
  exact ((mem_range_int _ _).mp (hperm.mem_iff.mpr (List.mem_map_of_mem hp))).2

/-- The elements are numbered from 0 on. -/
theorem Holds.dense_iff (h : Holds a as m) (hne : as ≠ []) :
    a.maxIndex + 1 = a.numElements ↔ ∀ p ∈ as, a.ind p < as.length := by
  obtain ⟨l, q, hl, -, hmax⟩ := h.toRing.exists_last hne
  have hq : q ∈ as := by
    rw [hl]
    exact List.mem_append_right _ (List.mem_singleton_self q)
  have hpos : 0 < as.length := List.length_pos_of_ne_nil hne
  rw [h.count]
  constructor
  · intro heq p hp
    have := h.toRing.le_maxIndex hp
    omega
  · intro hlt
    obtain ⟨p, hp, hp'⟩ := List.mem_map.mp ((h.isSome_iff _).mp
      ((h.isSome_of_lt hlt (as.length - 1 : Int)).mpr (by omega)))
    have h1 := h.toRing.le_maxIndex hp
    have h2 := hlt q hq
    omega

/-! ## The assignment -/

/-- What `array_from_argv` makes of the map `m` of an array of `n` elements. -/
def Map.argv (m : Map V) (n : Nat) (vec : List (Option V)) : Map V :=
  if n = 0 ∨ vec.length < n then Map.ofArgv vec
  else Map.store (fun i => (m i).map fun _ => vec.head?.join) n (vec.drop n)

theorem Holds.arrayFromArgv (h : Holds a as m) (vec : List (Option V)) {fuel : Nat}
    (hfuel : as.length + vec.length < fuel) :
    ∃ a' as', a.arrayFromArgv fuel vec = some a' ∧ Holds a' as' (m.argv as.length vec) := by
  rw [Arr.arrayFromArgv, Map.argv]
  dsimp only
  rw [h.count]
  by_cases h0 : as = []
  · subst h0
    rw [List.length_nil, if_pos (Or.inl rfl)]
    have hm : m = fun _ => none := by
      funext i
      exact h.eq_none nofun
    obtain ⟨a', as', hrun, hholds⟩ := h.insertAll (Int.le_refl 0) vec hfuel
    rw [hm, Map.store_none] at hholds
    exact ⟨a', as', (if_pos rfl).trans hrun, hholds⟩
  have hpos : 0 < as.length := List.length_pos_of_ne_nil h0
  rw [if_neg (by omega)]
  by_cases hlt : vec.length < as.length
  · rw [if_neg (by omega), if_neg (by omega), if_pos (Or.inr hlt)]
    have hfuel' : ([] : List Nat).length + vec.length < fuel := by
      rw [List.length_nil]
      omega
    obtain ⟨a', as', hrun, hholds⟩ := h.arrayFlush.insertAll (Int.le_refl 0) vec hfuel'
    rw [Map.store_none] at hholds
    exact ⟨a', as', hrun, hholds⟩
  rw [if_neg (by omega : ¬(as.length = 0 ∨ vec.length < as.length))]
  have hr := h.replaceAll vec.head?.join
  split
  · rename_i hone
    have h1 : as.length = 1 := by omega
    have h2 : vec.drop as.length = [] := List.drop_eq_nil_of_le (by omega)
    rw [h1] at hr
    rw [h2]
    exact ⟨_, as, rfl, hr⟩
  · rw [if_pos (by omega), Int.toNat_natCast]
    exact hr.insertAll (Int.natCast_nonneg _) (vec.drop as.length) (by
      rw [List.length_drop]
      omega)

/-- The elements in place are right if they are numbered from 0 on and get the right string. -/
theorem Holds.argv_eq_iff (h : Holds a as m) {vec : List (Option V)}
    (hle : as.length ≤ vec.length) :
    Map.store (fun i => (m i).map fun _ => vec.head?.join) as.length (vec.drop as.length) =
        Map.ofArgv vec ↔
      (∀ p ∈ as, a.ind p < as.length) ∧ ∀ v ∈ vec.take as.length, v = vec.head?.join := by
  constructor
  · intro heq
    have hlow : ∀ i : Int, 0 ≤ i → i < as.length →
        (m i).map (fun _ => vec.head?.join) = vec[i.toNat]? := by
      intro i h0 h1
      have h2 := congrFun heq i
      rwa [Map.store_apply, if_neg (by omega), Map.ofArgv, if_pos h0] at h2
    refine ⟨h.lt_of_isSome fun i h0 h1 => ?_, fun v hv => ?_⟩
    · have h2 := hlow i h0 h1
      rw [List.getElem?_eq_getElem (by omega)] at h2
      obtain ⟨d, hd, -⟩ := Option.map_eq_some_iff.mp h2
      rw [hd]
      rfl
    · obtain ⟨k, hk, rfl⟩ := List.mem_iff_getElem.mp hv
      rw [List.length_take] at hk
      have h2 := hlow k (by omega) (by omega)
      rw [Int.toNat_natCast, List.getElem?_eq_getElem (by omega)] at h2
      obtain ⟨d, -, hd⟩ := Option.map_eq_some_iff.mp h2
      rw [List.getElem_take]
      exact hd.symm
  · rintro ⟨hlt, hvec⟩
    have hsome := h.isSome_of_lt hlt
    funext i
    rw [Map.store_apply, Map.ofArgv, List.length_drop]
    by_cases h0 : 0 ≤ i
    · rw [if_pos h0]
      by_cases h1 : i < as.length
      · obtain ⟨d, hd⟩ := Option.isSome_iff_exists.mp ((hsome i).mpr ⟨h0, h1⟩)
        have h2 : i.toNat < vec.length := by omega
        rw [if_neg (by omega), hd, Option.map_some, List.getElem?_eq_getElem h2]
        congr 1
        apply (hvec _ _).symm
        exact List.mem_take_iff_getElem.mpr ⟨i.toNat, by omega, rfl⟩
      · have hn : m i = none := Option.not_isSome_iff_eq_none.mp (mt (hsome i).mp (by omega))
        split
        · rw [List.getElem?_drop]
          congr 1
          omega
        · rw [hn, Option.map_none, List.getElem?_eq_none (by omega)]
    · have hn : m i = none := Option.not_isSome_iff_eq_none.mp (mt (hsome i).mp (by omega))
      rw [if_neg h0, if_neg (by omega), hn, Option.map_none]

/-- `array_from_argv` assigns the vector to an empty array, to one with more elements, and to one
whose elements are numbered from 0 on if the strings for these are all the same. -/
theorem Holds.assigns_iff (h : Holds a as m) (vec : List (Option V)) {fuel : Nat}
    (hfuel : as.length + vec.length < fuel) :
    (∃ a' as', a.arrayFromArgv fuel vec = some a' ∧ Holds a' as' (Map.ofArgv vec)) ↔
      a.numElements = 0 ∨ vec.length < a.numElements ∨
        a.maxIndex + 1 = a.numElements ∧
          ∀ v ∈ vec.take a.numElements.toNat, v = vec.head?.join := by
  obtain ⟨b, bs, hrun, hb⟩ := h.arrayFromArgv vec hfuel
  have hiff : (∃ a' as', a.arrayFromArgv fuel vec = some a' ∧ Holds a' as' (Map.ofArgv vec)) ↔
      m.argv as.length vec = Map.ofArgv vec := by
    constructor
    · rintro ⟨a', as', hrun', h'⟩
      obtain rfl : b = a' := Option.some.inj (hrun.symm.trans hrun')
      exact hb.map_eq h'
    · intro heq
      exact ⟨b, bs, hrun, heq ▸ hb⟩
  rw [hiff, Map.argv, h.count, Int.toNat_natCast]
  by_cases h0 : as = []
  · subst h0
    exact iff_of_true (if_pos (Or.inl rfl)) (Or.inl rfl)
  have hpos : 0 < as.length := List.length_pos_of_ne_nil h0
  by_cases hlt : vec.length < as.length
  · exact iff_of_true (if_pos (Or.inr hlt)) (Or.inr (Or.inl (by omega)))
  rw [if_neg (by omega), h.argv_eq_iff (Nat.not_lt.mp hlt), ← h.dense_iff h0, h.count,
    or_iff_right (by omega), or_iff_right (by omega)]

/-- Three strings for an array with one element, at index 5. -/
theorem assigns_iff_sparse : ∃ (a : Arr Char) (as : List Nat) (vec : List (Option Char)),
    as.length = 1 ∧ a.maxIndex = 5 ∧ vec = [some 'x', some 'y', some 'z'] ∧
    ((∃ a' as', a.arrayFromArgv 8 vec = some a' ∧ Holds a' as' (Map.ofArgv vec)) ↔
      a.numElements = 0 ∨ vec.length < a.numElements ∨
        a.maxIndex + 1 = a.numElements ∧
          ∀ v ∈ vec.take a.numElements.toNat, v = vec.head?.join) := by
  obtain ⟨a, as, hrun, hholds, -⟩ :=
    holds_arrayCreate.arrayInsert (by decide : (0 : Int) ≤ 5) (some 'a') (Nat.zero_lt_succ 3)
  have hmax : a.maxIndex = 5 :=
    (Option.some.inj (congrArg (Option.map fun r => r.1.maxIndex) hrun)).symm
  have hcount : a.numElements = 1 :=
    (Option.some.inj (congrArg (Option.map fun r => r.1.numElements) hrun)).symm
  have hlen : as.length = 1 := by
    have := hholds.count
    omega
  exact ⟨a, as, _, hlen, hmax, rfl, hholds.assigns_iff _ (by rw [hlen]; decide)⟩

/-- Two strings for an array of two elements, which both get the first. -/
theorem argv_two : ∃ a a' : Arr Char,
    [Op.insert 0 (some 'a'), .insert 1 (some 'b')].foldlM (Op.run 8) Arr.arrayCreate = some a ∧
      a.arrayFromArgv 8 [some 'x', some 'y'] = some a' ∧
      (a'.arrayReference 8 1).map Prod.snd = some (some 'x') ∧
      ∀ as, ¬Holds a' as (Map.ofArgv [some 'x', some 'y']) := by
  refine ⟨_, _, rfl, rfl, rfl, fun as h => ?_⟩
  have hlen : (2 : Int) = as.length := h.count
  obtain ⟨b, hrun, -⟩ := h.arrayReference 1 (by omega : as.length < 8)
  have heq : some (some 'x') = some (some 'y') := congrArg (Option.map Prod.snd) hrun
  exact absurd heq (by decide)

end Basht.Arrays
