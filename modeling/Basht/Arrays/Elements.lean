import Basht.Arrays.Ring

/-!
# Single elements

`array_insert`, `array_remove` and `array_reference` in an array that holds a map. The two
fast paths of an insertion and the walks of all three, in either direction and from
wherever the reference to the last element points, come to the place of the index.
-/

namespace Basht.Arrays

open Chains

variable {V : Type}

variable {a : Arr V} {as : List Nat} {m : Map V}

theorem Ring.prev_head_mem (h : Ring a as) : a.prev a.head ∈ a.head :: as := by
  by_cases hne : as = []
  · subst hne
    rw [(h.toCycle.first rfl).2]
    simp
  · obtain ⟨l, p, rfl, hprev, -⟩ := h.exists_last hne
    rw [hprev]
    simp

namespace Holds

/-- Another reference to the last element. -/
theorem setLastref (h : Holds a as m) {p : Nat} (hp : p = 0 ∨ p ∈ as) :
    Holds { a with lastref := p } as m :=
  ⟨⟨⟨⟨h.linked, h.nodup, h.alloc⟩, h.headInd, h.sorted⟩, h.count, h.max, hp⟩, h.lists⟩

theorem brk_notMem (h : Holds a as m) : a.brk ∉ a.head :: as := fun hmem =>
  Nat.lt_irrefl _ (h.alloc _ hmem).2

theorem eq_none (h : Holds a as m) {i : Int} (hi : ∀ p ∈ as, a.ind p ≠ i) : m i = none :=
  h.lists.eq_none_iff.mpr hi

/-! ## Creating and linking an element -/

/-- A new element, not linked in yet. -/
theorem createElement (h : Holds a as m) (i : Int) (v : Option V) :
    Holds (a.arrayCreateElement i v) as m := by
  have hne : ∀ p ∈ a.head :: as, p ≠ a.brk := by
    rintro p hp rfl
    exact h.brk_notMem hp
  have hold : ∀ p ∈ a.head :: as, _ := fun p hp => a.arrayCreateElement_ne i v (hne p hp)
  have hhead : a.head ∈ a.head :: as := by simp
  refine ⟨⟨h.toLinks.congr (fun p hp => (hold p hp).1) (fun p hp => (hold p hp).2.1)
    (fun p hp => (hold p hp).2.2.1) (Nat.le_succ _), h.count, ?_, h.lastref⟩,
    h.lists.congr fun p hp => ?_⟩
  · have hprev : (a.arrayCreateElement i v).prev a.head = a.prev a.head := (hold _ hhead).2.1
    exact h.max.trans (((hold _ h.prev_head_mem).2.2.1).symm.trans (congrArg _ hprev.symm))
  · have hp' := hold p (List.mem_cons_of_mem _ hp)
    exact ⟨hp'.2.2.1, hp'.2.2.2⟩

/-- The element `n` is linked in between `xs` and `ys`. -/
theorem add {b : Arr V} {xs ys : List Nat} {n x y : Nat} (h : Holds a (xs ++ ys) m)
    (hx : (a.head :: xs).getLast? = some x) (hy : (ys ++ [a.head]).head? = some y)
    (hn : n ∉ a.head :: (xs ++ ys)) (halloc : 0 < n ∧ n < a.brk) (hnonneg : 0 ≤ a.ind n)
    (hlo : ∀ p ∈ xs, a.ind p < a.ind n) (hhi : ∀ p ∈ ys, a.ind n < a.ind p)
    (hnext : ∀ p, b.next p = if p = n then y else if p = x then n else a.next p)
    (hprev : ∀ p, b.prev p = if p = y then n else if p = n then x else a.prev p)
    (hsame : b.ind = a.ind ∧ b.value = a.value ∧ b.brk = a.brk ∧ b.head = a.head)
    (hcount : b.numElements = a.numElements + 1) (hlast : b.lastref = n)
    (hmax : b.maxIndex = if ys = [] then a.ind n else a.maxIndex) :
    Holds b (xs ++ n :: ys) (Function.update m (a.ind n) (some (a.value n))) := by
  obtain ⟨hind, hvalue, hbrk, hhead⟩ := hsame
  have hlinks := h.toLinks.add hx hy hn halloc hnonneg hlo hhi hnext hprev hind hbrk
  rw [← hhead] at hlinks
  have hnone : m (a.ind n) = none := by
    refine h.eq_none fun p hp => ?_
    rcases List.mem_append.mp hp with hp | hp
    · exact Int.ne_of_lt (hlo p hp)
    · exact Int.ne_of_gt (hhi p hp)
  refine ⟨⟨hlinks, ?_, ?_, Or.inr (by simp [hlast])⟩, ?_⟩
  · rw [hcount, h.count]
    simp only [List.length_append, List.length_cons]
    omega
  · rw [hmax, hind, hhead, hprev]
    cases ys with
    | nil =>
      cases hy
      simp
    | cons q ys =>
      cases hy
      have hy : y ≠ a.head := h.toCycle.head_ne (by simp)
      have hne : n ≠ a.head := by
        rintro rfl
        simp at hn
      rw [if_neg (by simp), if_neg (Ne.symm hy), if_neg (Ne.symm hne), h.max]
  · rw [hind, hvalue]
    exact (h.lists.cons hnone).perm List.perm_middle

/-- The value of the element `q` is replaced by that of the new element. -/
theorem setValue {xs ys : List Nat} {q n : Nat} (h : Holds a (xs ++ q :: ys) m)
    (hn : n ∉ a.head :: (xs ++ q :: ys)) :
    Holds { (a.setValue q (a.value n)).setValue n none with lastref := q } (xs ++ q :: ys)
      (Function.update m (a.ind q) (some (a.value n))) := by
  refine ⟨⟨⟨⟨h.linked, h.nodup, h.alloc⟩, h.headInd, h.sorted⟩, h.count, h.max,
    Or.inr (by simp)⟩, ?_⟩
  have hperm : (xs ++ q :: ys).Perm (q :: (xs ++ ys)) := List.perm_middle
  have hrest := (h.lists.perm hperm.symm).uncons
  have hnodup := hperm.nodup_iff.mp (List.nodup_cons.mp h.nodup).2
  have hvalue : ∀ p ∈ xs ++ q :: ys, ((a.setValue q (a.value n)).setValue n none).value p =
      if p = q then a.value n else a.value p := by
    intro p hp
    have hne : p ≠ n := by
      rintro rfl
      exact hn (List.mem_cons_of_mem _ hp)
    simp only [Arr.setValue, Function.update_of_ne hne, Function.update_apply]
  have hnew : Function.update m (a.ind q) none (a.ind q) = none := Function.update_self _ _ _
  have hkept : Tabulates a.ind ((a.setValue q (a.value n)).setValue n none).value (xs ++ ys)
      (Function.update m (a.ind q) none) := by
    refine hrest.congr fun p hp => ⟨rfl, ?_⟩
    rw [hvalue p (hperm.mem_iff.mpr (List.mem_cons_of_mem _ hp)), if_neg]
    rintro rfl
    exact (List.nodup_cons.mp hnodup).1 hp
  have hcons := hkept.cons hnew
  rw [hvalue q (by simp), if_pos rfl, Function.update_idem] at hcons
  exact hcons.perm hperm

end Holds

/-! ## Insertion -/

namespace Ring

theorem le_maxIndex (h : Ring a as) {p : Nat} (hp : p ∈ as) : a.ind p ≤ a.maxIndex := by
  obtain ⟨l, q, rfl, -, hmax⟩ := h.exists_last (List.ne_nil_of_mem hp)
  rw [hmax]
  rcases List.mem_append.mp hp with hp | hp
  · exact Int.le_of_lt (h.toLinks.lt_of_mem hp (by simp))
  · exact Int.le_of_eq (congrArg a.ind (List.mem_singleton.mp hp))

theorem firstIndex_le (h : Ring a as) {p : Nat} (hp : p ∈ as) : a.firstIndex ≤ a.ind p := by
  obtain ⟨q, l, rfl, -, hfirst⟩ := h.exists_first (List.ne_nil_of_mem hp)
  rw [hfirst]
  rcases List.mem_cons.mp hp with rfl | hp
  · exact Int.le_refl _
  · exact Int.le_of_lt (@Links.lt_of_mem V a a.head [q] l h.toLinks q _ (by simp) hp)

theorem maxIndex_nil (h : Ring a []) : a.maxIndex = -1 := by
  have hprev : a.prev a.head = a.head := (h.toCycle.first rfl).2
  rw [h.max, hprev, h.headInd]

end Ring

/-- `array_insert` in the array in which the new element has been created. -/
theorem Holds.insertBody {n : Nat} {fuel : Nat} (h : Holds a as m) (hn : n ∉ a.head :: as)
    (halloc : 0 < n ∧ n < a.brk) (hnonneg : 0 ≤ a.ind n) (hfirst : a.firstIndex ≤ a.ind n)
    (hmax : a.ind n ≤ a.maxIndex) (hfuel : as.length < fuel) :
    ∃ a' as', Linked.walk (a.step (a.start (a.ind n)).2)
        (a.insertBody (a.ind n) n (a.start (a.ind n)).2) fuel (a.start (a.ind n)).1 =
          some (a', 0) ∧
      Holds a' as' (Function.update m (a.ind n) (some (a.value n))) ∧
      as'.length ≤ as.length + 1 := by
  have hne : as ≠ [] := by
    rintro rfl
    rw [h.toRing.maxIndex_nil] at hmax
    omega
  obtain ⟨hp, hdir⟩ := h.toRing.start_spec hne hfirst
  generalize (a.start (a.ind n)).2 = direction at hdir ⊢
  generalize (a.start (a.ind n)).1 = p at hp hdir ⊢
  have hbelow : ∀ u ∈ as, a.ind u < a.ind n → direction = 1 →
      a.insertBody (a.ind n) n direction u = none := by
    rintro u hu hlt rfl
    rw [Arr.insertBody, if_neg (h.toCycle.head_ne hu), if_neg (Int.ne_of_lt hlt),
      if_neg (by omega), if_neg (by omega)]
  have habove : ∀ u ∈ as, a.ind n < a.ind u → direction = -1 →
      a.insertBody (a.ind n) n direction u = none := by
    rintro u hu hlt rfl
    rw [Arr.insertBody, if_neg (h.toCycle.head_ne hu), if_neg (Int.ne_of_gt hlt),
      if_neg (by omega), if_neg (by omega)]
  rcases h.toLinks.locate (a.ind n) with ⟨xs, q, ys, rfl, hq, hxs, hys⟩ | ⟨xs, ys, rfl, hxs, hys⟩
  · have hbody : a.insertBody (a.ind n) n direction q =
        some ({ (a.setValue q (a.value n)).setValue n none with lastref := q }, 0) := by
      rw [Arr.insertBody, if_neg (h.toCycle.head_ne (by simp)), if_pos hq]
    have hset := h.setValue hn
    rw [hq] at hset
    refine ⟨_, _, ?_, hset, Nat.le_succ _⟩
    rcases hdir with ⟨rfl, hle⟩ | ⟨rfl, hlt⟩
    · refine h.toLinks.walk_next ?_ (fun u hu => hbelow u (by simp [hu]) (hxs u hu) rfl) hbody hfuel
      rcases List.mem_append.mp hp with hp | hp
      · exact List.mem_append_left _ hp
      · rcases List.mem_cons.mp hp with rfl | hp
        · simp
        · exact absurd (hys p hp) (by omega)
    · refine h.toLinks.walk_prev ?_ (fun u hu => habove u (by simp [hu]) (hys u hu) rfl) hbody hfuel
      rcases List.mem_append.mp hp with hp | hp
      · exact absurd (hxs p hp) (by omega)
      · exact hp
  · have hysne : ys ≠ [] := by
      rintro rfl
      obtain ⟨l, q, heq, -, hlast⟩ := h.toRing.exists_last hne
      rw [List.append_nil] at heq
      have hq := hxs q (by simp [heq])
      omega
    have hxsne : xs ≠ [] := by
      rintro rfl
      obtain ⟨q, l, heq, -, hind⟩ := h.toRing.exists_first hne
      rw [List.nil_append] at heq
      have hq := hys q (by simp [heq])
      omega
    obtain ⟨y, ys', rfl⟩ := List.exists_cons_of_ne_nil hysne
    obtain ⟨xs', x, rfl⟩ : ∃ xs' x, xs = xs' ++ [x] :=
      ⟨_, _, (List.dropLast_append_getLast hxsne).symm⟩
    have hx : (a.head :: (xs' ++ [x])).getLast? = some x := by
      rw [← List.cons_append, List.getLast?_concat]
    have hy : (y :: ys' ++ [a.head]).head? = some y := rfl
    obtain ⟨hnext, hprev⟩ := h.toCycle.seam hx hy
    have hxn : x ≠ n := by
      rintro rfl
      simp at hn
    have hyn : n ≠ y := by
      rintro rfl
      simp at hn
    have hlen : (xs' ++ [x] ++ n :: y :: ys').length ≤ (xs' ++ [x] ++ y :: ys').length + 1 := by
      simp only [List.length_append, List.length_cons]
      omega
    rcases hdir with ⟨rfl, hle⟩ | ⟨rfl, hlt⟩
    · -- the walk forwards stops behind the place
      have hyind := hys y (by simp)
      have hbody : a.insertBody (a.ind n) n 1 y = some ({ a.addBefore y n with
          numElements := (a.addBefore y n).numElements + 1, lastref := n }, 0) := by
        rw [Arr.insertBody, if_neg (h.toCycle.head_ne (by simp)), if_neg (Int.ne_of_gt hyind),
          if_pos ⟨rfl, hyind⟩]
      have hadd := h.add (b := { a.addBefore y n with
        numElements := (a.addBefore y n).numElements + 1, lastref := n }) hx hy hn halloc hnonneg
        hxs hys (fun p => ?_) (fun p => ?_) ⟨rfl, rfl, rfl, rfl⟩ rfl rfl rfl
      · refine ⟨_, _, ?_, hadd, hlen⟩
        refine h.toLinks.walk_next ?_ (fun u hu => hbelow u (List.mem_append_left _ hu)
          (hxs u hu) rfl) hbody hfuel
        rcases List.mem_append.mp hp with hp | hp
        · exact List.mem_append_left _ hp
        · exact absurd (hys p hp) (by omega)
      · rw [← hprev]
        exact a.addBefore_next y n p
      · rw [← hprev]
        exact a.addBefore_prev y n p
    · -- the walk backwards stops before it
      have hxind := hxs x (by simp)
      have hbody : a.insertBody (a.ind n) n (-1) x = some ({ a.addAfter x n with
          numElements := (a.addAfter x n).numElements + 1, lastref := n }, 0) := by
        rw [Arr.insertBody, if_neg (h.toCycle.head_ne (by simp)), if_neg (Int.ne_of_lt hxind),
          if_neg (by omega), if_pos ⟨rfl, hxind⟩]
      have hadd := h.add (b := { a.addAfter x n with
        numElements := (a.addAfter x n).numElements + 1, lastref := n }) hx hy hn halloc hnonneg
        hxs hys (fun p => ?_) (fun p => ?_) ⟨rfl, rfl, rfl, rfl⟩ rfl rfl rfl
      · refine ⟨_, _, ?_, hadd, hlen⟩
        have hlinks : Links a a.head (xs' ++ x :: y :: ys') := by
          rw [List.append_cons]
          exact h.toLinks
        refine hlinks.walk_prev ?_ (fun u hu => habove u (List.mem_append_right _ hu)
          (hys u hu) rfl) hbody (by rwa [List.append_cons])
        rcases List.mem_append.mp hp with hp | hp
        · exact absurd (hxs p hp) (by omega)
        · exact List.mem_cons_of_mem _ hp
      · rw [← hnext]
        exact a.addAfter_next hxn p
      · rw [← hnext]
        exact a.addAfter_prev (by rwa [hnext]) p

theorem Holds.arrayInsert (h : Holds a as m) {i : Int} (hi : 0 ≤ i) (v : Option V) {fuel : Nat}
    (hfuel : as.length < fuel) : ∃ a' as', a.arrayInsert fuel i v = some (a', 0) ∧
      Holds a' as' (Function.update m i (some v)) ∧ as'.length ≤ as.length + 1 := by
  have hb := h.createElement i v
  have hn := h.brk_notMem
  have halloc : 0 < a.brk ∧ a.brk < (a.arrayCreateElement i v).brk :=
    ⟨Nat.lt_of_le_of_lt (Nat.zero_le _) (h.alloc a.head (by simp)).2, Nat.lt_succ_self _⟩
  obtain ⟨hind, hvalue⟩ := a.arrayCreateElement_self i v
  have hhead : (a.arrayCreateElement i v).head = a.head := rfl
  unfold Arr.arrayInsert
  simp only
  generalize a.brk = n at hn halloc hind hvalue ⊢
  generalize a.arrayCreateElement i v = b at hb halloc hind hvalue hhead ⊢
  rw [← hhead] at hn
  have hnhead : n ≠ b.head := by
    rintro rfl
    simp at hn
  subst hind hvalue
  split
  · rename_i hgt
    -- behind the last element
    have hnil : Holds b (as ++ []) m := by
      rw [List.append_nil]
      exact hb
    have hadd := hnil.add (b := { b.addBefore b.head n with
        maxIndex := b.ind n, numElements := (b.addBefore b.head n).numElements + 1, lastref := n })
      hb.toCycle.getLast?_eq rfl (by rwa [List.append_nil]) halloc hi
      (fun p hp => Int.lt_of_le_of_lt (hb.toRing.le_maxIndex hp) hgt) (by simp)
      (b.addBefore_next b.head n) (b.addBefore_prev b.head n) ⟨rfl, rfl, rfl, rfl⟩ rfl rfl rfl
    exact ⟨_, _, rfl, hadd, by simp⟩
  · rename_i hle
    split
    · rename_i hlt
      -- before the first element
      have hne : as ≠ [] := by
        rintro rfl
        have hmax := hb.toRing.maxIndex_nil
        omega
      obtain ⟨q, l, has, hnext, hfirst⟩ := hb.toRing.exists_first hne
      subst has
      have hfront : Holds b ([] ++ q :: l) m := hb
      have hadd := hfront.add (b := { b.addAfter b.head n with
          numElements := (b.addAfter b.head n).numElements + 1, lastref := n })
        (y := q) rfl rfl hn halloc hi (by simp)
        (fun p hp => Int.lt_of_lt_of_le hlt (hb.toRing.firstIndex_le hp))
        (fun p => by rw [← hnext]; exact b.addAfter_next (Ne.symm hnhead) p)
        (fun p => ?_) ⟨rfl, rfl, rfl, rfl⟩ rfl rfl rfl
      · exact ⟨_, _, rfl, hadd, Nat.le_refl _⟩
      · rw [← hnext]
        refine b.addAfter_prev ?_ p
        rw [hnext]
        rintro rfl
        simp at hn
    · rename_i hge
      exact hb.insertBody hn halloc hi (Int.not_lt.mp hge) (Int.not_lt.mp hle) hfuel

/-! ## Removal -/

/-- What linking the element `q` out from between `x` and `y` leaves. -/
theorem Arr.unlink_spec (a : Arr V) {q x y : Nat} (hnext : a.next q = y) (hprev : a.prev q = x)
    (hy : q ≠ y) (hx : q ≠ x) (i : Int) :
    (a.unlink i q).next = Function.update a.next x y ∧
      (a.unlink i q).prev = Function.update a.prev y x ∧
      ((a.unlink i q).ind = a.ind ∧ (a.unlink i q).value = a.value ∧
        (a.unlink i q).brk = a.brk ∧ (a.unlink i q).head = a.head) ∧
      (a.unlink i q).numElements = a.numElements - 1 ∧
      (a.unlink i q).maxIndex = (if i = a.maxIndex then a.ind x else a.maxIndex) ∧
      (a.unlink i q).lastref = if y ≠ a.head then y else if x ≠ a.head then x else 0 := by
  have hq : Function.update a.prev y x q = x := by
    rw [Function.update_of_ne hy, hprev]
  have hq' : Function.update a.next x y q = y := by
    rw [Function.update_of_ne hx, hnext]
  simp only [Arr.unlink, Arr.setNext, Arr.setPrev, hnext, hprev, hq]
  split_ifs <;> simp_all

theorem Holds.unlink {xs ys : List Nat} {q : Nat} (h : Holds a (xs ++ q :: ys) m) :
    Holds (a.unlink (a.ind q) q) (xs ++ ys) (Function.update m (a.ind q) none) := by
  obtain ⟨x, hx⟩ : ∃ x, (a.head :: xs).getLast? = some x := ⟨_, List.getLast?_cons⟩
  obtain ⟨y, hy⟩ : ∃ y, (ys ++ [a.head]).head? = some y :=
    ⟨(ys ++ [a.head]).head (by simp), List.head?_eq_some_head _⟩
  have hprev : a.prev q = x := (h.toCycle.seam hx rfl).2
  have hsplit : Links a a.head (xs ++ [q] ++ ys) := by
    rw [← List.append_cons]
    exact h.toLinks
  have hnext : a.next q = y :=
    (hsplit.toCycle.seam (by rw [← List.cons_append, List.getLast?_concat]) hy).1
  have hxmem : x ∈ a.head :: xs := List.mem_of_getLast? hx
  have hymem : y ∈ ys ++ [a.head] := List.mem_of_head? hy
  have hqhead : q ≠ a.head := h.toCycle.head_ne (by simp)
  have hnodup := (List.nodup_cons.mp h.nodup).2
  have hqx : q ≠ x := by
    rintro rfl
    rcases List.mem_cons.mp hxmem with heq | hmem
    · exact hqhead heq
    · exact List.disjoint_of_nodup_append hnodup hmem (by simp)
  have hqy : q ≠ y := by
    rintro rfl
    rcases List.mem_append.mp hymem with hmem | heq
    · exact (List.nodup_cons.mp hnodup.of_append_right).1 hmem
    · exact hqhead (List.mem_singleton.mp heq)
  obtain ⟨hnext', hprev', ⟨hind, hvalue, hbrk, hhead⟩, hcount, hmax, hlast⟩ :=
    a.unlink_spec hnext hprev hqy hqx (a.ind q)
  have hlinks := h.toLinks.remove hx hy (b := a.unlink (a.ind q) q)
    (fun p => by rw [hnext', Function.update_apply])
    (fun p => by rw [hprev', Function.update_apply]) hind hbrk
  have hperm : (xs ++ q :: ys).Perm (q :: (xs ++ ys)) := List.perm_middle
  refine ⟨⟨?_, ?_, ?_, ?_⟩, ?_⟩
  · rw [hhead]
    exact hlinks
  · rw [hcount, h.count, hperm.length_eq, List.length_cons]
    omega
  · rw [hmax, hind, hhead, hprev', Function.update_apply]
    cases ys with
    | nil =>
      cases hy
      obtain ⟨l, p, heq, -, hlastind⟩ := h.toRing.exists_last (by simp)
      obtain ⟨-, hpq⟩ := List.append_inj' heq rfl
      cases hpq
      rw [if_pos hlastind.symm, if_pos rfl]
    | cons z ys =>
      cases hy
      have hyhead : y ≠ a.head := h.toCycle.head_ne (by simp)
      have hlt : a.ind q < a.ind y :=
        hsplit.lt_of_mem (by simp) (by simp)
      have hle := h.toRing.le_maxIndex (p := y) (by simp)
      rw [if_neg (by omega), if_neg (Ne.symm hyhead), h.max]
  · rw [hlast]
    split_ifs with h₁ h₂
    · rcases List.mem_append.mp hymem with hmem | heq
      · exact Or.inr (List.mem_append_right _ hmem)
      · exact absurd (List.mem_singleton.mp heq) h₁
    · rcases List.mem_cons.mp hxmem with heq | hmem
      · exact absurd heq h₂
      · exact Or.inr (List.mem_append_left _ hmem)
    · exact Or.inl rfl
  · rw [hind, hvalue]
    exact (h.lists.perm hperm.symm).uncons

/-! ## Searches for an index -/

theorem Links.next_mem {xs ys : List Nat} {q u : Nat} (h : Links a a.head (xs ++ q :: ys))
    (hu : u ∈ xs) : a.next u ∈ xs ++ [q] := by
  obtain ⟨s, t, rfl⟩ := List.append_of_mem hu
  have hsplit : Links a a.head (s ++ [u] ++ (t ++ q :: ys)) := by
    simpa using h
  have hlast : (a.head :: (s ++ [u])).getLast? = some u := by
    rw [← List.cons_append, List.getLast?_concat]
  cases t with
  | nil =>
    rw [(hsplit.toCycle.seam hlast rfl).1]
    simp
  | cons w t =>
    rw [(hsplit.toCycle.seam hlast rfl).1]
    simp

theorem Links.prev_mem {xs ys : List Nat} {q u : Nat} (h : Links a a.head (xs ++ q :: ys))
    (hu : u ∈ ys) : a.prev u ∈ q :: ys := by
  obtain ⟨s, t, rfl⟩ := List.append_of_mem hu
  have hsplit : Links a a.head (xs ++ q :: s ++ u :: t) := by
    simpa using h
  obtain ⟨w, hw⟩ : ∃ w, (q :: s).getLast? = some w := ⟨_, List.getLast?_cons⟩
  have hlast : (a.head :: (xs ++ q :: s)).getLast? = some w := by
    rw [← List.cons_append, List.getLast?_append, hw]
    rfl
  rw [(hsplit.toCycle.seam hlast rfl).2]
  have hmem := List.mem_of_getLast? hw
  simp only [List.mem_cons, List.mem_append] at hmem ⊢
  tauto

/-- A search of `array_remove` or `array_reference` finds the element with the index, or
stops at a neighbour of the place where it would be; `found` and `passed` are what its body
does there. -/
theorem Ring.search {ρ : Type} (h : Ring a as) {i : Int} (hfirst : a.firstIndex ≤ i)
    (hmax : i ≤ a.maxIndex) (hne : as ≠ []) {b : Int → Nat → Option ρ} {f g : Nat → ρ}
    (hfound : ∀ d, ∀ q ∈ as, a.ind q = i → b d q = some (f q))
    (hpassed : ∀ d, ∀ q ∈ as, a.ind q ≠ i → a.passed i d (a.step d q) = true →
      b d q = some (g (a.step d q)))
    (hgo : ∀ d, ∀ q ∈ as, a.ind q ≠ i → a.passed i d (a.step d q) = false → b d q = none)
    {fuel : Nat} (hfuel : as.length < fuel) :
    (∃ q ∈ as, a.ind q = i ∧
      Linked.walk (a.step (a.start i).2) (b (a.start i).2) fuel (a.start i).1 =
        some (f q)) ∨
    (∀ q ∈ as, a.ind q ≠ i) ∧ ∃ q ∈ as,
      Linked.walk (a.step (a.start i).2) (b (a.start i).2) fuel (a.start i).1 =
        some (g q) := by
  obtain ⟨hp, hdir⟩ := h.start_spec hne hfirst
  generalize (a.start i).2 = direction at hdir ⊢
  generalize (a.start i).1 = p at hp hdir ⊢
  have hnext : ∀ q, a.step 1 q = a.next q := fun q => if_pos rfl
  have hprev : ∀ q, a.step (-1) q = a.prev q := fun q => if_neg (by decide)
  have hup : ∀ u ∈ as, a.ind u < i → a.ind (a.next u) ≤ i → b 1 u = none := by
    intro u hu hlt hle
    refine hgo 1 u hu (Int.ne_of_lt hlt) (decide_eq_false ?_)
    rw [hnext]
    omega
  have hdown : ∀ u ∈ as, i < a.ind u → i ≤ a.ind (a.prev u) → b (-1) u = none := by
    intro u hu hlt hle
    refine hgo (-1) u hu (Int.ne_of_gt hlt) (decide_eq_false ?_)
    rw [hprev]
    omega
  rcases h.toLinks.locate i with ⟨xs, q, ys, rfl, hq, hxs, hys⟩ | ⟨xs, ys, rfl, hxs, hys⟩
  · refine Or.inl ⟨q, by simp, hq, ?_⟩
    rcases hdir with ⟨rfl, hle⟩ | ⟨rfl, hlt⟩
    · refine h.toLinks.walk_next ?_ (fun u hu => hup u (by simp [hu]) (hxs u hu) ?_)
        (hfound 1 q (by simp) hq) hfuel
      · rcases List.mem_append.mp hp with hp | hp
        · exact List.mem_append_left _ hp
        · rcases List.mem_cons.mp hp with rfl | hp
          · simp
          · exact absurd (hys p hp) (by omega)
      · rcases List.mem_append.mp (h.toLinks.next_mem hu) with hmem | hmem
        · exact Int.le_of_lt (hxs _ hmem)
        · exact Int.le_of_eq ((congrArg a.ind (List.mem_singleton.mp hmem)).trans hq)
    · refine h.toLinks.walk_prev ?_ (fun u hu => hdown u (by simp [hu]) (hys u hu) ?_)
        (hfound (-1) q (by simp) hq) hfuel
      · rcases List.mem_append.mp hp with hp | hp
        · exact absurd (hxs p hp) (by omega)
        · exact hp
      · rcases List.mem_cons.mp (h.toLinks.prev_mem hu) with heq | hmem
        · exact Int.le_of_eq (hq.symm.trans (congrArg a.ind heq.symm))
        · exact Int.le_of_lt (hys _ hmem)
  · have hysne : ys ≠ [] := by
      rintro rfl
      obtain ⟨l, q, heq, -, hlast⟩ := h.exists_last hne
      rw [List.append_nil] at heq
      have hq := hxs q (by simp [heq])
      omega
    have hxsne : xs ≠ [] := by
      rintro rfl
      obtain ⟨q, l, heq, -, hind⟩ := h.exists_first hne
      rw [List.nil_append] at heq
      have hq := hys q (by simp [heq])
      omega
    obtain ⟨y, ys', rfl⟩ := List.exists_cons_of_ne_nil hysne
    obtain ⟨xs', x, rfl⟩ : ∃ xs' x, xs = xs' ++ [x] :=
      ⟨_, _, (List.dropLast_append_getLast hxsne).symm⟩
    have hlast : (a.head :: (xs' ++ [x])).getLast? = some x := by
      rw [← List.cons_append, List.getLast?_concat]
    obtain ⟨hxy, hyx⟩ := h.toCycle.seam hlast rfl
    have hxind := hxs x (by simp)
    have hyind := hys y (by simp)
    refine Or.inr ⟨fun q hq => ?_, ?_⟩
    · rcases List.mem_append.mp hq with hq | hq
      · exact Int.ne_of_lt (hxs q hq)
      · exact Int.ne_of_gt (hys q hq)
    rcases hdir with ⟨rfl, hle⟩ | ⟨rfl, hlt⟩
    · have hlinks : Links a a.head (xs' ++ x :: y :: ys') := by
        rw [List.append_cons]
        exact h.toLinks
      have hbody := hpassed 1 x (by simp) (Int.ne_of_lt hxind)
        (decide_eq_true (Or.inl ⟨rfl, by rw [hnext, hxy]; exact hyind⟩))
      rw [hnext, hxy] at hbody
      refine ⟨y, by simp, hlinks.walk_next ?_ (fun u hu => hup u (by simp [hu])
        (hxs u (by simp [hu])) ?_) hbody (by rwa [List.append_cons])⟩
      · rcases List.mem_append.mp hp with hp | hp
        · exact hp
        · exact absurd (hys p hp) (by omega)
      · exact Int.le_of_lt (hxs _ (hlinks.next_mem hu))
    · have hbody := hpassed (-1) y (by simp) (Int.ne_of_gt hyind)
        (decide_eq_true (Or.inr ⟨rfl, by rw [hprev, hyx]; exact hxind⟩))
      rw [hprev, hyx] at hbody
      refine ⟨x, by simp, h.toLinks.walk_prev ?_ (fun u hu => hdown u (by simp [hu])
        (hys u (by simp [hu])) ?_) hbody hfuel⟩
      · rcases List.mem_append.mp hp with hp | hp
        · exact absurd (hxs p hp) (by omega)
        · exact hp
      · exact Int.le_of_lt (hys _ (h.toLinks.prev_mem hu))

theorem Arr.unlink_elements (a : Arr V) (i : Int) (ae : Nat) :
    (a.unlink i ae).ind = a.ind ∧ (a.unlink i ae).value = a.value := by
  unfold Arr.unlink
  simp only
  split
  · split
    · exact ⟨rfl, rfl⟩
    · split
      · exact ⟨rfl, rfl⟩
      · exact ⟨rfl, rfl⟩
  · split
    · exact ⟨rfl, rfl⟩
    · split
      · exact ⟨rfl, rfl⟩
      · exact ⟨rfl, rfl⟩

/-- `array_remove` returns the element. -/
theorem Holds.arrayRemove_returns (h : Holds a as m) (i : Int) {fuel : Nat}
    (hfuel : as.length < fuel) :
    ∃ a' as' ae, a.arrayRemove fuel i = some (a', ae) ∧
      Holds a' as' (Function.update m i none) ∧ as'.length ≤ as.length ∧
      (ae = 0 → m i = none) ∧ (ae ≠ 0 → a'.ind ae = i ∧ m i = some (a'.value ae)) := by
  have habsent : (∀ q ∈ as, a.ind q ≠ i) → Function.update m i none = m := by
    intro hi
    rw [← h.eq_none hi, Function.update_eq_self]
  unfold Arr.arrayRemove
  split
  · rename_i hempty
    have has := h.toRing.isEmpty_iff.mp hempty
    have hi : ∀ q ∈ as, a.ind q ≠ i := by simp [has]
    rw [habsent hi]
    exact ⟨a, as, 0, rfl, h, Nat.le_refl _, fun _ => h.eq_none hi, fun hne => absurd rfl hne⟩
  · rename_i hempty
    split
    · rename_i hout
      have hi : ∀ q ∈ as, a.ind q ≠ i := by
        intro q hq
        have hle := h.toRing.le_maxIndex hq
        have hge := h.toRing.firstIndex_le hq
        omega
      rw [habsent hi]
      exact ⟨a, as, 0, rfl, h, Nat.le_refl _, fun _ => h.eq_none hi, fun hne => absurd rfl hne⟩
    · rename_i hin
      have hne : as ≠ [] := fun has => hempty (h.toRing.isEmpty_iff.mpr has)
      have hsearch := h.toRing.search (i := i) (by omega) (by omega) hne (b := a.removeBody i)
        (f := fun q => (a.unlink i q, q)) (g := fun _ => (a, 0))
        (fun d q hq hi => by rw [Arr.removeBody, if_neg (h.toCycle.head_ne hq), if_pos hi])
        (fun d q hq hi hpass => by
          rw [Arr.removeBody, if_neg (h.toCycle.head_ne hq), if_neg hi, if_pos hpass])
        (fun d q hq hi hpass => by
          rw [Arr.removeBody, if_neg (h.toCycle.head_ne hq), if_neg hi, hpass]
          exact if_neg Bool.false_ne_true) hfuel
      rcases hsearch with ⟨q, hq, hi, hwalk⟩ | ⟨hi, q, hq, hwalk⟩
      · obtain ⟨xs, ys, rfl⟩ := List.append_of_mem hq
        subst hi
        obtain ⟨hind, hvalue⟩ := a.unlink_elements (a.ind q) q
        refine ⟨_, _, _, hwalk, h.unlink, ?_, fun hzero => ?_, fun _ => ?_⟩
        · simp only [List.length_append, List.length_cons]
          omega
        · exact absurd hzero (Nat.ne_of_gt (h.alloc q (by simp)).1)
        · rw [hind, hvalue]
          exact ⟨rfl, h.lists.eq_some (by simp)⟩
      · rw [habsent hi]
        exact ⟨_, _, _, hwalk, h, Nat.le_refl _, fun _ => h.eq_none hi, fun hne => absurd rfl hne⟩

theorem Holds.arrayRemove (h : Holds a as m) (i : Int) {fuel : Nat} (hfuel : as.length < fuel) :
    ∃ a' as' ae, a.arrayRemove fuel i = some (a', ae) ∧
      Holds a' as' (Function.update m i none) ∧ as'.length ≤ as.length := by
  obtain ⟨a', as', ae, hrun, hholds, hlen, -⟩ := h.arrayRemove_returns i hfuel
  exact ⟨a', as', ae, hrun, hholds, hlen⟩

/-- **Lookups.** A lookup returns what the map holds, and moves only the reference to the
last element. -/
theorem Holds.arrayReference (h : Holds a as m) (i : Int) {fuel : Nat}
    (hfuel : as.length < fuel) :
    ∃ a', a.arrayReference fuel i = some (a', (m i).join) ∧ Holds a' as m := by
  have habsent : (∀ q ∈ as, a.ind q ≠ i) → (m i).join = none := by
    intro hi
    rw [h.eq_none hi]
    rfl
  unfold Arr.arrayReference
  split
  · rename_i hempty
    have has := h.toRing.isEmpty_iff.mp hempty
    rw [habsent (by simp [has])]
    exact ⟨a, rfl, h⟩
  · rename_i hempty
    split
    · rename_i hout
      rw [habsent fun q hq => ?_]
      · exact ⟨a, rfl, h⟩
      · have hle := h.toRing.le_maxIndex hq
        have hge := h.toRing.firstIndex_le hq
        omega
    · rename_i hin
      have hne : as ≠ [] := fun has => hempty (h.toRing.isEmpty_iff.mpr has)
      have hsearch := h.toRing.search (i := i) (by omega) (by omega) hne
        (b := a.referenceBody i (a.start i).1)
        (f := fun q => ({ a with lastref := q }, a.value q))
        (g := fun q => ({ a with lastref := q }, none))
        (fun d q hq hi => by rw [Arr.referenceBody, if_neg (h.toCycle.head_ne hq), if_pos hi])
        (fun d q hq hi hpass => by
          rw [Arr.referenceBody, if_neg (h.toCycle.head_ne hq), if_neg hi, if_pos hpass])
        (fun d q hq hi hpass => by
          rw [Arr.referenceBody, if_neg (h.toCycle.head_ne hq), if_neg hi, hpass]
          exact if_neg Bool.false_ne_true) hfuel
      rcases hsearch with ⟨q, hq, hi, hwalk⟩ | ⟨hi, q, hq, hwalk⟩
      · have hm := h.lists.eq_some hq
        rw [hi] at hm
        rw [hm]
        exact ⟨_, hwalk, h.setLastref (Or.inr hq)⟩
      · rw [habsent hi]
        exact ⟨_, hwalk, h.setLastref (Or.inr hq)⟩

end Basht.Arrays
