import Basht.Arrays.Elements

/-!
# Copies

`array_copy` makes elements of its own for the copy, above all those there were (`Copying`).
-/

namespace Basht.Arrays

open Chains

variable {V : Type} {a : Arr V} {as : List Nat} {m : Map V}

/-- The elements `xs` of `a` have been copied: `ns` are their copies in `b`. -/
structure Copying (a b : Arr V) (xs ns : List Nat) : Prop extends Links b b.head ns where
  old : ∀ p < a.brk, b.next p = a.next p ∧ b.ind p = a.ind p ∧ b.value p = a.value p
  new : ∀ p ∈ b.head :: ns, a.brk ≤ p
  inds : ns.map b.ind = xs.map a.ind
  values : ns.map b.value = xs.map a.value
  lastref : b.lastref = 0 ∨ b.lastref ∈ ns
  maxIndex : b.maxIndex = a.maxIndex
  numElements : b.numElements = a.numElements

namespace Copying

variable {b : Arr V} {xs ns : List Nat}

/-- The loop starts with a head of its own. -/
theorem nil (a : Arr V) (hbrk : 0 < a.brk) :
    Copying a { a.createIn with maxIndex := a.maxIndex, numElements := a.numElements } [] [] := by
  have hself := a.arrayCreateElement_self (-1) none
  refine ⟨⟨⟨Linked.pair (Function.update_self _ _ _) ?_, List.nodup_singleton _, ?_⟩, hself.1, ?_⟩,
    fun p hp => ?_, ?_, rfl, rfl, Or.inl rfl, rfl, rfl⟩
  · exact Function.update_self _ _ _
  · intro p hp
    rw [List.mem_singleton.mp hp]
    exact ⟨hbrk, Nat.lt_succ_self _⟩
  · exact List.pairwise_singleton _ _
  · obtain ⟨hnext, -, hind, hvalue⟩ := a.arrayCreateElement_ne (-1) none (Nat.ne_of_lt hp)
    exact ⟨(Function.update_of_ne (Nat.ne_of_lt hp) _ _).trans hnext, hind, hvalue⟩
  · intro p hp
    rw [List.mem_singleton.mp hp]
    exact Nat.le_refl _

/-- The copy of one more element is linked in at the end. -/
theorem add {q : Nat} {ys : List Nat} (h : Copying a b xs ns) (ha : Links a a.head (xs ++ q :: ys))
    : Copying a ((b.arrayCreateElement (b.ind q) (b.value q)).addBefore b.head b.brk)
      (xs ++ [q]) (ns ++ [b.brk]) := by
  have hq : q < a.brk := (ha.alloc q (by simp)).2
  obtain ⟨-, hqind, hqvalue⟩ := h.old q hq
  have hnew : b.brk ∉ b.head :: ns := fun hmem => Nat.lt_irrefl _ (h.alloc _ hmem).2
  have hne : ∀ p ∈ b.head :: ns, p ≠ b.brk := by
    rintro p hp rfl
    exact hnew hp
  have hkept : ∀ p, p ≠ b.brk → _ := fun p hp =>
    b.arrayCreateElement_ne (b.ind q) (b.value q) hp
  obtain ⟨hind, hvalue⟩ := b.arrayCreateElement_self (b.ind q) (b.value q)
  have hlinks : Links (b.arrayCreateElement (b.ind q) (b.value q)) b.head ns :=
    h.toLinks.congr (fun p hp => (hkept p (hne p hp)).1) (fun p hp => (hkept p (hne p hp)).2.1)
      (fun p hp => (hkept p (hne p hp)).2.2.1) (Nat.le_succ _)
  have hbrk : a.brk < b.brk :=
    Nat.lt_of_le_of_lt (h.new b.head (by simp)) (h.alloc b.head (by simp)).2
  have hmem : b.prev b.head ∈ b.head :: ns := List.mem_of_getLast? h.toCycle.getLast?_eq
  have hprev := (hkept b.head (hne _ (by simp))).2.1
  have hlast : (b.head :: ns).getLast? =
      some ((b.arrayCreateElement (b.ind q) (b.value q)).prev b.head) :=
    hlinks.toCycle.getLast?_eq
  have hadd : Links ((b.arrayCreateElement (b.ind q) (b.value q)).addBefore b.head b.brk) b.head
      (ns ++ [b.brk]) := by
    have hend : Links (b.arrayCreateElement (b.ind q) (b.value q)) b.head (ns ++ []) := by
      rwa [List.append_nil]
    refine hend.add hlast rfl (by rwa [List.append_nil])
      ⟨Nat.lt_of_le_of_lt (Nat.zero_le _) hbrk, Nat.lt_succ_self _⟩ ?_ (fun p hp => ?_) (by simp)
      (Arr.addBefore_next _ _ _) (Arr.addBefore_prev _ _ _) rfl rfl
    · rw [hind, hqind]
      exact ha.nonneg (by simp)
    · have hpind : b.ind p ∈ xs.map a.ind := by
        rw [← h.inds]
        exact List.mem_map_of_mem hp
      obtain ⟨u, hu, hup⟩ := List.mem_map.mp hpind
      rw [hind, (hkept p (hne p (List.mem_cons_of_mem _ hp))).2.2.1, ← hup, hqind]
      exact ha.lt_of_mem hu (by simp)
  have hcongr : ∀ p ∈ ns, _ := fun p hp => (hkept p (hne p (List.mem_cons_of_mem _ hp))).2.2
  refine ⟨hadd, fun p hp => ?_, ?_, ?_, ?_, ?_, h.maxIndex, h.numElements⟩
  · have hpb : p ≠ b.brk := Nat.ne_of_lt (Nat.lt_trans hp hbrk)
    have hpl : p ≠ b.prev b.head := by
      rintro rfl
      exact Nat.lt_irrefl _ (Nat.lt_of_lt_of_le hp (h.new _ hmem))
    obtain ⟨hnext, -, hpind, hpvalue⟩ := hkept p hpb
    obtain ⟨hold, hindold, hvalueold⟩ := h.old p hp
    refine ⟨?_, hpind.trans hindold, hpvalue.trans hvalueold⟩
    rw [Arr.addBefore_next, if_neg hpb, hprev, if_neg hpl, hnext, hold]
  · intro p hp
    rw [← List.cons_append] at hp
    rcases List.mem_append.mp hp with hp | hp
    · exact h.new p hp
    · rw [List.mem_singleton.mp hp]
      exact Nat.le_of_lt hbrk
  · rw [List.map_append, List.map_append, ← h.inds]
    refine congrArg₂ _ (List.map_congr_left fun p hp => (hcongr p hp).1) ?_
    exact congrArg (fun i => [i]) (hind.trans hqind)
  · rw [List.map_append, List.map_append, ← h.values]
    refine congrArg₂ _ (List.map_congr_left fun p hp => (hcongr p hp).2) ?_
    exact congrArg (fun v => [v]) (hvalue.trans hqvalue)
  · exact h.lastref.imp_right fun hmem => List.mem_append_left _ hmem

theorem setLastref (h : Copying a b xs ns) {p : Nat} (hp : p ∈ ns) :
    Copying a { b with lastref := p } xs ns :=
  ⟨⟨⟨h.linked, h.nodup, h.alloc⟩, h.headInd, h.sorted⟩, h.old, h.new, h.inds, h.values,
    Or.inr hp, h.maxIndex, h.numElements⟩

/-- The loop copies the elements that are left. -/
theorem copyLoop {ys : List Nat} {ae : Nat} (h : Copying a b xs ns)
    (ha : Links a a.head (xs ++ ys)) (hae : (ys ++ [a.head]).head? = some ae) (lastref : Nat)
    {fuel : Nat} (hfuel : ys.length < fuel) :
    ∃ b' ns', Arr.copyLoop a.head lastref fuel b ae = some b' ∧ Copying a b' (xs ++ ys) ns' := by
  induction ys generalizing b xs ns ae fuel with
  | nil =>
    obtain rfl : a.head = ae := Option.some.inj hae
    obtain ⟨f, rfl⟩ := Nat.exists_eq_add_of_lt hfuel
    refine ⟨b, ns, ?_, by rwa [List.append_nil]⟩
    simp [Arr.copyLoop]
  | cons y ys ih =>
    obtain rfl : y = ae := Option.some.inj hae
    obtain ⟨f, rfl⟩ : ∃ f, fuel = f + 1 := ⟨fuel - 1, by simp at hfuel; omega⟩
    have hne : y ≠ a.head := ha.toCycle.head_ne (by simp)
    have hsplit : Links a a.head (xs ++ [y] ++ ys) := by
      rwa [List.append_assoc]
    obtain ⟨z, hz⟩ : ∃ z, (ys ++ [a.head]).head? = some z :=
      ⟨(ys ++ [a.head]).head (by simp), List.head?_eq_some_head _⟩
    have hlast : (a.head :: (xs ++ [y])).getLast? = some y := by
      rw [← List.cons_append, List.getLast?_concat]
    have hnext : a.next y = z := (hsplit.toCycle.seam hlast hz).1
    have hfuel' : ys.length < f := by simpa using hfuel
    have hy : y < a.brk := (ha.alloc y (by simp)).2
    rw [Arr.copyLoop, if_neg hne, List.append_cons]
    have hadded := h.add ha
    have hznext := (hadded.old y hy).1.trans hnext
    simp only
    split
    · refine ih (hadded.setLastref (by simp)) hsplit ?_ hfuel'
      rw [hz]
      exact congrArg some hznext.symm
    · refine ih hadded hsplit ?_ hfuel'
      rw [hz]
      exact congrArg some hznext.symm

end Copying

theorem Holds.arrayCopy (h : Holds a as m) {fuel : Nat} (hfuel : as.length < fuel) :
    ∃ b ns, a.arrayCopy fuel = some b ∧ Holds b ns m ∧ ns.length = as.length := by
  have hbrk : 0 < a.brk :=
    Nat.lt_of_le_of_lt (Nat.zero_le _) (h.alloc a.head (List.mem_cons_self ..)).2
  have hstart := Copying.nil a hbrk
  obtain ⟨y, hy⟩ : ∃ y, (as ++ [a.head]).head? = some y :=
    ⟨(as ++ [a.head]).head (by simp), List.head?_eq_some_head _⟩
  have hnext : a.next a.head = y := (h.toCycle.first hy).1
  have hhead := (hstart.old a.head (h.alloc a.head (List.mem_cons_self ..)).2).1
  have hall : Links a a.head ([] ++ as) := h.toLinks
  obtain ⟨b, ns, hcopy, hcopied⟩ := hstart.copyLoop hall hy a.lastRef hfuel
  rw [List.nil_append] at hcopied
  have hlen : ns.length = as.length := by
    rw [← List.length_map (f := b.ind), hcopied.inds, List.length_map]
  refine ⟨b, ns, ?_, ⟨⟨hcopied.toLinks, ?_, ?_, hcopied.lastref⟩, ?_⟩, hlen⟩
  · rw [← hcopy, ← hnext, ← hhead]
    rfl
  · rw [hcopied.numElements, h.count, hlen]
  · have hinds : (b.head :: ns).map b.ind = (a.head :: as).map a.ind := by
      rw [List.map_cons, List.map_cons, hcopied.inds, hcopied.headInd, h.headInd]
    have hlast := congrArg List.getLast? hinds
    rw [List.getLast?_map, List.getLast?_map, hcopied.toCycle.getLast?_eq,
      h.toCycle.getLast?_eq] at hlast
    rw [hcopied.maxIndex, h.max]
    exact (Option.some.inj hlast).symm
  · exact h.lists.of_map_eq hcopied.inds hcopied.values

end Basht.Arrays
