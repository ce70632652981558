import Basht.Arrays.Array
import Basht.Library.Chains

/-!
# The ring of an array

The elements of an array form a ring with its head (`Cycle`), in the order of their indices
(`Links`), and the other fields of the `ARRAY` fit them (`Ring`). With a map that lists the
indices and values (`Holds`) this is the representation invariant.
-/

namespace Basht.Arrays

open Chains

variable {V : Type}

/-- The elements `as` form a ring with `head`. -/
structure Cycle (a : Arr V) (head : Nat) (as : List Nat) : Prop where
  linked : Linked a.next a.prev (head :: (as ++ [head]))
  nodup : (head :: as).Nodup
  alloc : ∀ p ∈ head :: as, 0 < p ∧ p < a.brk

/-- The elements `as` form a ring with `head`, in the order of their indices. -/
structure Links (a : Arr V) (head : Nat) (as : List Nat) : Prop extends Cycle a head as where
  headInd : a.ind head = -1
  sorted : ((head :: as).map a.ind).Pairwise (· < ·)

/-- The fields of the array fit the elements `as`. -/
structure Ring (a : Arr V) (as : List Nat) : Prop extends Links a a.head as where
  count : a.numElements = as.length
  max : a.maxIndex = a.ind (a.prev a.head)
  lastref : a.lastref = 0 ∨ a.lastref ∈ as

/-- A finite map from indices to values; a value may be null. -/
abbrev Map (V : Type) := Int → Option (Option V)

/-- The array holds the map `m`. -/
structure Holds (a : Arr V) (as : List Nat) (m : Map V) : Prop
    extends Ring a as where
  lists : Tabulates a.ind a.value as m

/-! ## What the stores change -/

namespace Arr

variable (a : Arr V)

theorem addBefore_next (ae new p : Nat) : (a.addBefore ae new).next p =
    if p = new then ae else if p = a.prev ae then new else a.next p := by
  simp only [addBefore, setNext, setPrev, Function.update_apply]

theorem addBefore_prev (ae new p : Nat) : (a.addBefore ae new).prev p =
    if p = ae then new else if p = new then a.prev ae else a.prev p := by
  simp only [addBefore, setNext, setPrev, Function.update_apply]

theorem addAfter_next {ae new : Nat} (hne : ae ≠ new) (p : Nat) : (a.addAfter ae new).next p =
    if p = new then a.next ae else if p = ae then new else a.next p := by
  simp only [addAfter, setNext, setPrev, Function.update_apply]
  split_ifs with hae hnew
  · exact absurd (hae.symm.trans hnew) hne
  · rfl
  · rfl
  · rfl

theorem addAfter_prev {ae new : Nat} (hne : new ≠ a.next ae) (p : Nat) :
    (a.addAfter ae new).prev p =
      if p = a.next ae then new else if p = new then ae else a.prev p := by
  simp only [addAfter, setNext, setPrev, Function.update_apply]
  split_ifs with hnew hae
  · exact absurd (hnew.symm.trans hae) hne
  · rfl
  · rfl
  · rfl

/-- A new element changes no other one. -/
theorem arrayCreateElement_ne (i : Int) (v : Option V) {p : Nat} (hp : p ≠ a.brk) :
    (a.arrayCreateElement i v).next p = a.next p ∧ (a.arrayCreateElement i v).prev p = a.prev p ∧
      (a.arrayCreateElement i v).ind p = a.ind p ∧
      (a.arrayCreateElement i v).value p = a.value p := by
  simp only [arrayCreateElement, setNext, setPrev, setInd, setValue, Function.update_of_ne hp,
    and_self]

theorem arrayCreateElement_self (i : Int) (v : Option V) :
    (a.arrayCreateElement i v).ind a.brk = i ∧ (a.arrayCreateElement i v).value a.brk = v := by
  simp only [arrayCreateElement, setNext, setPrev, setInd, setValue, Function.update_self,
    and_self]

end Arr

/-! ## Rings -/

namespace Cycle

variable {a b : Arr V} {head : Nat} {as xs ys : List Nat}

theorem head_ne (h : Cycle a head as) {p : Nat} (hp : p ∈ as) : p ≠ head := by
  rintro rfl
  exact (List.nodup_cons.mp h.nodup).1 hp

/-- The departures and the arrivals along the ring are its nodes, once each. -/
theorem nodup_dropLast (h : Cycle a head as) : (head :: (as ++ [head])).dropLast.Nodup := by
  rw [← List.cons_append, List.dropLast_concat]
  exact h.nodup

theorem nodup_tail (h : Cycle a head as) : (head :: (as ++ [head])).tail.Nodup :=
  (List.perm_append_singleton head as).nodup_iff.mpr h.nodup

/-- Neighbours on the ring. -/
theorem seam {x y : Nat} (h : Cycle a head (xs ++ ys)) (hx : (head :: xs).getLast? = some x)
    (hy : (ys ++ [head]).head? = some y) : a.next x = y ∧ a.prev y = x := by
  obtain ⟨l, hl⟩ : ∃ l, head :: xs = l ++ [x] := ⟨_, (List.dropLast_append_getLast? x hx).symm⟩
  obtain ⟨r, hr⟩ : ∃ r, ys ++ [head] = y :: r := List.head?_eq_some_iff.mp hy
  have hlinked := h.linked
  have hring : head :: (xs ++ ys ++ [head]) = l ++ x :: y :: r := by
    rw [List.append_assoc, hr, ← List.cons_append, hl, List.append_assoc]
    rfl
  rw [hring] at hlinked
  exact ⟨hlinked.next_eq, hlinked.prev_eq⟩

/-- The head and the first element. -/
theorem first {y : Nat} (h : Cycle a head ys) (hy : (ys ++ [head]).head? = some y) :
    a.next head = y ∧ a.prev y = head := @seam V a head [] ys head y h rfl hy

theorem getLast?_eq (h : Cycle a head as) : (head :: as).getLast? = some (a.prev head) := by
  obtain ⟨x, hx⟩ : ∃ x, (head :: as).getLast? = some x := ⟨_, List.getLast?_cons⟩
  have hsplit : Cycle a head (as ++ []) := by
    rwa [List.append_nil]
  rw [(hsplit.seam hx rfl).2, hx]

/-- The links of other nodes do not matter. -/
theorem congr (h : Cycle a head as) (hnext : ∀ p ∈ head :: as, b.next p = a.next p)
    (hprev : ∀ p ∈ head :: as, b.prev p = a.prev p) (hbrk : a.brk ≤ b.brk) :
    Cycle b head as := by
  refine ⟨h.linked.congr (fun p hp => hnext p ?_) fun p hp => hprev p ?_, h.nodup, fun p hp => ?_⟩
  · rwa [← List.cons_append, List.dropLast_concat] at hp
  · exact (List.perm_append_singleton head as).mem_iff.mp hp
  · exact ⟨(h.alloc p hp).1, Nat.lt_of_lt_of_le (h.alloc p hp).2 hbrk⟩

/-- The node `n` is linked in between the elements `xs` and `ys`. -/
theorem add {n x y : Nat} (h : Cycle a head (xs ++ ys)) (hx : (head :: xs).getLast? = some x)
    (hy : (ys ++ [head]).head? = some y) (hn : n ∉ head :: (xs ++ ys)) (halloc : 0 < n ∧ n < a.brk)
    (hnext : ∀ p, b.next p = if p = n then y else if p = x then n else a.next p)
    (hprev : ∀ p, b.prev p = if p = y then n else if p = n then x else a.prev p)
    (hbrk : b.brk = a.brk) : Cycle b head (xs ++ n :: ys) := by
  obtain ⟨l, hl⟩ : ∃ l, head :: xs = l ++ [x] := ⟨_, (List.dropLast_append_getLast? x hx).symm⟩
  obtain ⟨r, hr⟩ : ∃ r, ys ++ [head] = y :: r := List.head?_eq_some_iff.mp hy
  have hring : head :: (xs ++ ys ++ [head]) = l ++ x :: y :: r := by
    rw [List.append_assoc, hr, ← List.cons_append, hl, List.append_assoc]
    rfl
  have hlinked := h.linked
  have hdep := h.nodup_dropLast
  have harr := h.nodup_tail
  have hnew : n ∉ head :: (xs ++ ys ++ [head]) := by
    simp only [List.mem_cons, List.mem_append, not_or] at hn ⊢
    tauto
  rw [hring] at hlinked hdep harr hnew
  have hadded := hlinked.insert hnext hprev hnew hdep harr
  have hring' : l ++ x :: n :: y :: r = head :: (xs ++ n :: ys ++ [head]) := by
    rw [List.append_assoc, List.cons_append, hr, ← List.cons_append, hl, List.append_assoc]
    rfl
  rw [hring'] at hadded
  have hperm : (head :: (xs ++ n :: ys)).Perm (n :: head :: (xs ++ ys)) :=
    (List.Perm.cons head List.perm_middle).trans (List.Perm.swap _ _ _)
  refine ⟨hadded, hperm.nodup_iff.mpr (List.nodup_cons.mpr ⟨hn, h.nodup⟩), fun p hp => ?_⟩
  rw [hbrk]
  rcases List.mem_cons.mp (hperm.mem_iff.mp hp) with rfl | hp
  · exact halloc
  · exact h.alloc p hp

/-- The element `q` is linked out from between `xs` and `ys`. -/
theorem remove {q x y : Nat} (h : Cycle a head (xs ++ q :: ys))
    (hx : (head :: xs).getLast? = some x) (hy : (ys ++ [head]).head? = some y)
    (hnext : ∀ p, b.next p = if p = x then y else a.next p)
    (hprev : ∀ p, b.prev p = if p = y then x else a.prev p)
    (hbrk : b.brk = a.brk) : Cycle b head (xs ++ ys) := by
  obtain ⟨l, hl⟩ : ∃ l, head :: xs = l ++ [x] := ⟨_, (List.dropLast_append_getLast? x hx).symm⟩
  obtain ⟨r, hr⟩ : ∃ r, ys ++ [head] = y :: r := List.head?_eq_some_iff.mp hy
  have hring : head :: (xs ++ q :: ys ++ [head]) = l ++ x :: q :: y :: r := by
    rw [List.append_assoc, List.cons_append, hr, ← List.cons_append, hl, List.append_assoc]
    rfl
  have hlinked := h.linked
  have hdep := h.nodup_dropLast
  have harr := h.nodup_tail
  rw [hring] at hlinked hdep harr
  have hremoved := hlinked.remove hnext hprev hdep harr
  have hring' : l ++ x :: y :: r = head :: (xs ++ ys ++ [head]) := by
    rw [List.append_assoc, hr, ← List.cons_append, hl, List.append_assoc]
    rfl
  rw [hring'] at hremoved
  have hsub : (head :: (xs ++ ys)).Sublist (head :: (xs ++ q :: ys)) :=
    ((List.Sublist.refl xs).append (List.sublist_cons_self q ys)).cons_cons head
  refine ⟨hremoved, hsub.nodup h.nodup, fun p hp => ?_⟩
  rw [hbrk]
  exact h.alloc p (hsub.subset hp)

end Cycle

namespace Links

variable {a b : Arr V} {head : Nat} {as xs ys : List Nat}

theorem nonneg (h : Links a head as) {p : Nat} (hp : p ∈ as) : 0 ≤ a.ind p := by
  have hsorted := h.sorted
  rw [List.map_cons, List.pairwise_cons, h.headInd] at hsorted
  have hlt := hsorted.1 (a.ind p) (List.mem_map_of_mem hp)
  omega

theorem lt_of_mem (h : Links a head (xs ++ ys)) {p q : Nat} (hp : p ∈ xs) (hq : q ∈ ys) :
    a.ind p < a.ind q := by
  have hsorted := h.sorted
  rw [List.map_cons, List.pairwise_cons, List.map_append, List.pairwise_append] at hsorted
  exact hsorted.2.2.2 _ (List.mem_map_of_mem hp) _ (List.mem_map_of_mem hq)

/-- The links and indices of other nodes do not matter. -/
theorem congr (h : Links a head as) (hnext : ∀ p ∈ head :: as, b.next p = a.next p)
    (hprev : ∀ p ∈ head :: as, b.prev p = a.prev p) (hind : ∀ p ∈ head :: as, b.ind p = a.ind p)
    (hbrk : a.brk ≤ b.brk) : Links b head as := by
  refine ⟨h.toCycle.congr hnext hprev hbrk, ?_, ?_⟩
  · rw [hind head (by simp), h.headInd]
  · rw [List.map_congr_left hind]
    exact h.sorted

/-- The node `n` is linked in between the elements `xs` and `ys`. -/
theorem add {n x y : Nat} (h : Links a head (xs ++ ys)) (hx : (head :: xs).getLast? = some x)
    (hy : (ys ++ [head]).head? = some y) (hn : n ∉ head :: (xs ++ ys)) (halloc : 0 < n ∧ n < a.brk)
    (hnonneg : 0 ≤ a.ind n) (hlo : ∀ p ∈ xs, a.ind p < a.ind n)
    (hhi : ∀ p ∈ ys, a.ind n < a.ind p)
    (hnext : ∀ p, b.next p = if p = n then y else if p = x then n else a.next p)
    (hprev : ∀ p, b.prev p = if p = y then n else if p = n then x else a.prev p)
    (hind : b.ind = a.ind) (hbrk : b.brk = a.brk) : Links b head (xs ++ n :: ys) := by
  refine ⟨h.toCycle.add hx hy hn halloc hnext hprev hbrk, ?_, ?_⟩
  · rw [hind, h.headInd]
  · have hsorted := h.sorted
    rw [hind, ← List.cons_append, List.map_append, List.pairwise_append, List.map_cons (l := ys),
      List.pairwise_cons]
    rw [← List.cons_append, List.map_append, List.pairwise_append] at hsorted
    obtain ⟨hleft, hright, hcross⟩ := hsorted
    refine ⟨hleft, ⟨fun j hj => ?_, hright⟩, fun i hi j hj => ?_⟩
    · obtain ⟨p, hp, rfl⟩ := List.mem_map.mp hj
      exact hhi p hp
    · rcases List.mem_cons.mp hj with rfl | hj
      · obtain ⟨p, hp, rfl⟩ := List.mem_map.mp hi
        rcases List.mem_cons.mp hp with rfl | hp
        · rw [h.headInd]
          omega
        · exact hlo p hp
      · exact hcross i hi j hj

/-- The element `q` is linked out from between `xs` and `ys`. -/
theorem remove {q x y : Nat} (h : Links a head (xs ++ q :: ys))
    (hx : (head :: xs).getLast? = some x) (hy : (ys ++ [head]).head? = some y)
    (hnext : ∀ p, b.next p = if p = x then y else a.next p)
    (hprev : ∀ p, b.prev p = if p = y then x else a.prev p)
    (hind : b.ind = a.ind) (hbrk : b.brk = a.brk) : Links b head (xs ++ ys) := by
  refine ⟨h.toCycle.remove hx hy hnext hprev hbrk, ?_, ?_⟩
  · rw [hind, h.headInd]
  · have hsub : (head :: (xs ++ ys)).Sublist (head :: (xs ++ q :: ys)) :=
      ((List.Sublist.refl xs).append (List.sublist_cons_self q ys)).cons_cons head
    rw [hind]
    exact h.sorted.sublist (hsub.map a.ind)

/-- The elements below an index, the one at it, and those above. -/
theorem locate (h : Links a head as) (i : Int) :
    (∃ xs q ys, as = xs ++ q :: ys ∧ a.ind q = i ∧ (∀ p ∈ xs, a.ind p < i) ∧
      ∀ p ∈ ys, i < a.ind p) ∨
    ∃ xs ys, as = xs ++ ys ∧ (∀ p ∈ xs, a.ind p < i) ∧ ∀ p ∈ ys, i < a.ind p := by
  have hsorted := h.sorted
  rw [List.map_cons, List.pairwise_cons] at hsorted
  obtain ⟨-, hsorted⟩ := hsorted
  clear h
  induction as with
  | nil => exact Or.inr ⟨[], [], rfl, by simp, by simp⟩
  | cons q as ih =>
    rw [List.map_cons, List.pairwise_cons] at hsorted
    have habove : ∀ p ∈ as, a.ind q < a.ind p := fun p hp =>
      hsorted.1 _ (List.mem_map_of_mem hp)
    rcases Int.lt_trichotomy (a.ind q) i with hlt | heq | hgt
    · rcases ih hsorted.2 with ⟨xs, r, ys, rfl, hr, hxs, hys⟩ | ⟨xs, ys, rfl, hxs, hys⟩
      · refine Or.inl ⟨q :: xs, r, ys, rfl, hr, ?_, hys⟩
        simpa using ⟨hlt, hxs⟩
      · refine Or.inr ⟨q :: xs, ys, rfl, ?_, hys⟩
        simpa using ⟨hlt, hxs⟩
    · refine Or.inl ⟨[], q, as, rfl, heq, by simp, fun p hp => ?_⟩
      rw [← heq]
      exact habove p hp
    · refine Or.inr ⟨[], q :: as, rfl, by simp, fun p hp => ?_⟩
      rcases List.mem_cons.mp hp with rfl | hp
      · exact hgt
      · exact Int.lt_trans hgt (habove p hp)

section Walk

variable {ρ : Type} {body : Nat → Option ρ} {r : ρ} {p q fuel : Nat}

/-- A walk up to the element `q`. -/
theorem walk_next (h : Links a head (xs ++ q :: ys)) (hp : p ∈ xs ++ [q])
    (hxs : ∀ u ∈ xs, body u = none) (hq : body q = some r)
    (hfuel : (xs ++ q :: ys).length < fuel) :
    Linked.walk (a.step 1) body fuel p = some r := by
  have hstep : a.step 1 = a.next := funext fun p => if_pos rfl
  rw [hstep]
  have hring : Linked a.next a.prev (xs ++ [q]) :=
    h.linked.part (s := [head]) (t := ys ++ [head]) (by simp)
  have hsplit : ∃ s t, xs = s ++ t ∧ (t ++ [q]).head? = some p := by
    rcases List.mem_append.mp hp with hp | hp
    · obtain ⟨s, t, rfl⟩ := List.append_of_mem hp
      exact ⟨s, p :: t, rfl, rfl⟩
    · exact ⟨xs, [], by simp, by simp [List.mem_singleton.mp hp]⟩
  obtain ⟨s, t, rfl, hhead⟩ := hsplit
  refine Linked.walk_forward (hring.part (s := s) (t := []) (by simp)) hhead
    (fun u hu => hxs u (List.mem_append_right _ hu)) hq ?_
  simp only [List.length_append, List.length_cons] at hfuel
  omega

/-- A walk down to the element `q`. -/
theorem walk_prev (h : Links a head (xs ++ q :: ys)) (hp : p ∈ q :: ys)
    (hys : ∀ u ∈ ys, body u = none) (hq : body q = some r)
    (hfuel : (xs ++ q :: ys).length < fuel) :
    Linked.walk (a.step (-1)) body fuel p = some r := by
  have hstep : a.step (-1) = a.prev := funext fun p => if_neg (by decide)
  rw [hstep]
  have hring : Linked a.next a.prev (q :: ys) :=
    h.linked.part (s := head :: xs) (t := [head]) (by simp)
  have hsplit : ∃ s t, ys = s ++ t ∧ (q :: s).getLast? = some p := by
    rcases List.mem_cons.mp hp with rfl | hp
    · exact ⟨[], ys, rfl, rfl⟩
    · obtain ⟨s, t, rfl⟩ := List.append_of_mem hp
      refine ⟨s ++ [p], t, by simp, ?_⟩
      rw [← List.cons_append, List.getLast?_concat]
  obtain ⟨s, t, rfl, hlast⟩ := hsplit
  refine Linked.walk_backward (hring.part (s := []) (t := t) (by simp)) hlast
    (fun u hu => hys u (List.mem_append_left _ hu)) hq ?_
  simp only [List.length_append, List.length_cons] at hfuel
  omega

end Walk

end Links

namespace Ring

variable {a : Arr V} {as : List Nat}

theorem isEmpty_iff (h : Ring a as) : a.isEmpty = true ↔ as = [] := by
  rw [Arr.isEmpty, decide_eq_true_iff, h.count, ← List.length_eq_zero_iff]
  omega

theorem exists_first (h : Ring a as) (hne : as ≠ []) : ∃ p l, as = p :: l ∧
    a.next a.head = p ∧ a.firstIndex = a.ind p := by
  obtain ⟨p, l, rfl⟩ := List.exists_cons_of_ne_nil hne
  have hnext := (h.toCycle.first rfl).1
  exact ⟨p, l, rfl, hnext, congrArg a.ind hnext⟩

theorem exists_last (h : Ring a as) (hne : as ≠ []) : ∃ l p, as = l ++ [p] ∧
    a.prev a.head = p ∧ a.maxIndex = a.ind p := by
  obtain ⟨l, p, rfl⟩ : ∃ l p, as = l ++ [p] :=
    ⟨_, _, (List.dropLast_append_getLast hne).symm⟩
  have hlinks : Links a a.head (l ++ [p] ++ []) := by
    rw [List.append_nil]
    exact h.toLinks
  have hlast : (a.head :: (l ++ [p])).getLast? = some p := by
    rw [← List.cons_append, List.getLast?_concat]
  have hprev := (hlinks.toCycle.seam hlast rfl).2
  exact ⟨l, p, rfl, hprev, h.max.trans (congrArg a.ind hprev)⟩

/-- A search starts at an element, and goes towards the index. -/
theorem start_spec (h : Ring a as) (hne : as ≠ []) {i : Int} (hfirst : a.firstIndex ≤ i) :
    (a.start i).1 ∈ as ∧ ((a.start i).2 = 1 ∧ a.ind (a.start i).1 ≤ i ∨
      (a.start i).2 = -1 ∧ i < a.ind (a.start i).1) := by
  obtain ⟨p, l, has, hnext, hind⟩ := h.exists_first hne
  have hp : p ∈ as := by simp [has]
  have hlast : a.lastRef ∈ as := by
    unfold Arr.lastRef
    split
    · rename_i hlastref
      exact h.lastref.resolve_left hlastref
    · rwa [hnext]
  unfold Arr.start
  simp only
  split
  · refine ⟨by rwa [hnext], Or.inl ⟨rfl, ?_⟩⟩
    rw [hnext, ← hind]
    exact hfirst
  · split
    · rename_i hge
      exact ⟨hlast, Or.inl ⟨rfl, hge⟩⟩
    · rename_i hlt
      exact ⟨hlast, Or.inr ⟨rfl, Int.not_le.mp hlt⟩⟩

end Ring

end Basht.Arrays
