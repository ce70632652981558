import Mathlib.Data.List.Chain
import Mathlib.Data.List.Nodup
import Mathlib.Logic.Function.Basic

/-!
# Doubly linked lists

Nodes with two link fields each. The nodes of `l` are `Linked` if consecutive ones point
to each other; a ring is a list that ends with the node it begins with.

* `Linked.next_eq`, `Linked.prev_eq`: a step along the list.
* `Linked.congr`: the links of other nodes do not matter.
* `Linked.insert`, `Linked.remove`: one node is linked in or out.
* `walk`: the walk from node to node up to the first one at which there is a result
  (`Linked.walk_forward`, `Linked.walk_backward`).
* `Threaded`: a list that starts at a pointer kept elsewhere and ends with null, as a ring
  through null (`Threaded.push`, `Threaded.unlink`, `Threaded.walk`).
-/

namespace Basht

variable {α : Type}

/-- Consecutive nodes of `l` point to each other. -/
def Linked (next prev : α → α) (l : List α) : Prop :=
  l.IsChain fun x y => next x = y ∧ prev y = x

namespace Linked

variable {next prev next' prev' : α → α} {l xs ys : List α} {x y n : α}

theorem next_eq (h : Linked next prev (xs ++ x :: y :: ys)) : next x = y :=
  (List.isChain_append_cons_cons.mp h).2.1.1

theorem prev_eq (h : Linked next prev (xs ++ x :: y :: ys)) : prev y = x :=
  (List.isChain_append_cons_cons.mp h).2.1.2

theorem next_head (h : Linked next prev (x :: y :: ys)) : next x = y :=
  (List.isChain_cons_cons.mp h).1.1

theorem left (h : Linked next prev (xs ++ x :: ys)) : Linked next prev (xs ++ [x]) :=
  (List.isChain_split.mp h).1

theorem right (h : Linked next prev (xs ++ x :: ys)) : Linked next prev (x :: ys) :=
  (List.isChain_split.mp h).2

theorem of_cons (h : Linked next prev (x :: l)) : Linked next prev l := List.IsChain.tail h

/-- A part of a list. -/
theorem part {s t : List α} (h : Linked next prev l) (hl : s ++ xs ++ t = l) :
    Linked next prev xs := List.IsChain.infix h ⟨s, t, hl⟩

/-- Two lists that meet in a node. -/
theorem join (hl : Linked next prev (xs ++ [x])) (hr : Linked next prev (x :: ys)) :
    Linked next prev (xs ++ x :: ys) := List.isChain_split.mpr ⟨hl, hr⟩

theorem pair (hnext : next x = y) (hprev : prev y = x) : Linked next prev [x, y] :=
  List.isChain_pair.mpr ⟨hnext, hprev⟩

theorem singleton (x : α) : Linked next prev [x] := List.isChain_singleton x

theorem cons (hnext : next x = y) (hprev : prev y = x) (h : Linked next prev (y :: ys)) :
    Linked next prev (x :: y :: ys) := List.isChain_cons_cons.mpr ⟨⟨hnext, hprev⟩, h⟩

/-- The links along a list are its own: the forward ones of all nodes but the last, the
backward ones of all but the first. -/
theorem congr (h : Linked next prev l) (hnext : ∀ p ∈ l.dropLast, next' p = next p)
    (hprev : ∀ p ∈ l.tail, prev' p = prev p) : Linked next' prev' l := by
  refine List.isChain_iff_forall_rel_of_append_cons_cons.mpr fun a b l₁ l₂ hl => ?_
  subst hl
  refine ⟨?_, ?_⟩
  · rw [hnext a (by simp), h.next_eq]
  · rw [hprev b (by cases l₁ <;> simp), h.prev_eq]

section Splice

variable [DecidableEq α]

/-- The node `n` is linked in between `x` and `y`. -/
theorem insert (h : Linked next prev (xs ++ x :: y :: ys))
    (hnext : ∀ p, next' p = if p = n then y else if p = x then n else next p)
    (hprev : ∀ p, prev' p = if p = y then n else if p = n then x else prev p)
    (hn : n ∉ xs ++ x :: y :: ys) (hdep : (xs ++ x :: y :: ys).dropLast.Nodup)
    (harr : (xs ++ x :: y :: ys).tail.Nodup) : Linked next' prev' (xs ++ x :: n :: y :: ys) := by
  simp only [List.mem_append, List.mem_cons, not_or] at hn
  obtain ⟨hnxs, hnx, hny, hnys⟩ := hn
  have hdep' : (xs ++ x :: (y :: ys).dropLast).Nodup := by
    rwa [List.dropLast_append_cons, List.dropLast_cons_of_ne_nil (by simp)] at hdep
  have hxs : ∀ p ∈ xs, p ≠ x := fun p hp heq =>
    List.disjoint_of_nodup_append hdep' hp (by rw [heq]; simp)
  have hys : ∀ p ∈ (y :: ys).dropLast, p ≠ x := by
    rintro p hp rfl
    exact (List.nodup_cons.mp hdep'.of_append_right).1 hp
  have harr' : ((xs ++ [x]).tail ++ y :: ys).Nodup := by
    cases xs with
    | nil => simpa using harr
    | cons z xs => simpa using harr
  have hyx : ∀ p ∈ (xs ++ [x]).tail, p ≠ y := fun p hp heq =>
    List.disjoint_of_nodup_append harr' hp (by rw [heq]; simp)
  have hyy : ∀ p ∈ ys, p ≠ y := by
    rintro p hp rfl
    exact (List.nodup_cons.mp harr'.of_append_right).1 hp
  refine join (h.left.congr (fun p hp => ?_) fun p hp => ?_) (cons ?_ ?_ (cons ?_ ?_
    (h.right.of_cons.congr (fun p hp => ?_) fun p hp => ?_)))
  · rw [List.dropLast_concat] at hp
    have hne : p ≠ n := by
      rintro rfl
      exact hnxs hp
    rw [hnext, if_neg hne, if_neg (hxs p hp)]
  · have hne : p ≠ n := by
      rintro rfl
      rcases List.mem_append.mp (List.mem_of_mem_tail hp) with hp | hp
      · exact hnxs hp
      · exact hnx (List.mem_singleton.mp hp)
    rw [hprev, if_neg (hyx p hp), if_neg hne]
  · rw [hnext, if_neg (Ne.symm hnx), if_pos rfl]
  · rw [hprev, if_neg hny, if_pos rfl]
  · rw [hnext, if_pos rfl]
  · rw [hprev, if_pos rfl]
  · have hmem := List.dropLast_subset _ hp
    have hne : p ≠ n := by
      rintro rfl
      rcases List.mem_cons.mp hmem with hp | hp
      · exact hny hp
      · exact hnys hp
    rw [hnext, if_neg hne, if_neg (hys p hp)]
  · have hne : p ≠ n := by
      rintro rfl
      exact hnys hp
    rw [hprev, if_neg (hyy p hp), if_neg hne]

/-- The node `n` is linked out from between `x` and `y`. -/
theorem remove (h : Linked next prev (xs ++ x :: n :: y :: ys))
    (hnext : ∀ p, next' p = if p = x then y else next p)
    (hprev : ∀ p, prev' p = if p = y then x else prev p)
    (hdep : (xs ++ x :: n :: y :: ys).dropLast.Nodup)
    (harr : (xs ++ x :: n :: y :: ys).tail.Nodup) : Linked next' prev' (xs ++ x :: y :: ys) := by
  have hdep' : (xs ++ x :: n :: (y :: ys).dropLast).Nodup := by
    rwa [List.dropLast_append_cons, List.dropLast_cons_of_ne_nil (by simp),
      List.dropLast_cons_of_ne_nil (by simp)] at hdep
  have hxs : ∀ p ∈ xs, p ≠ x := fun p hp heq =>
    List.disjoint_of_nodup_append hdep' hp (by rw [heq]; simp)
  have hys : ∀ p ∈ (y :: ys).dropLast, p ≠ x := by
    rintro p hp rfl
    exact (List.nodup_cons.mp hdep'.of_append_right).1 (List.mem_cons_of_mem _ hp)
  have harr' : ((xs ++ [x]).tail ++ n :: y :: ys).Nodup := by
    cases xs with
    | nil => simpa using harr
    | cons z xs => simpa using harr
  have hyx : ∀ p ∈ (xs ++ [x]).tail, p ≠ y := fun p hp heq =>
    List.disjoint_of_nodup_append harr' hp (by rw [heq]; simp)
  have hyy : ∀ p ∈ ys, p ≠ y := by
    rintro p hp rfl
    exact (List.nodup_cons.mp (List.nodup_cons.mp harr'.of_append_right).2).1 hp
  refine join (h.left.congr (fun p hp => ?_) fun p hp => ?_) (cons ?_ ?_
    (h.right.of_cons.of_cons.congr (fun p hp => ?_) fun p hp => ?_))
  · rw [List.dropLast_concat] at hp
    rw [hnext, if_neg (hxs p hp)]
  · rw [hprev, if_neg (hyx p hp)]
  · rw [hnext, if_pos rfl]
  · rw [hprev, if_pos rfl]
  · rw [hnext, if_neg (hys p hp)]
  · rw [hprev, if_neg (hyy p hp)]

end Splice

/-! ## Walks -/

/-- The result at the first node that has one, of the nodes reached from `p` by `step`. -/
def walk {ρ : Type} (step : α → α) (result : α → Option ρ) : Nat → α → Option ρ
  | 0, _ => none
  | fuel + 1, p =>
    match result p with
    | some r => some r
    | none => walk step result fuel (step p)

section Walk

variable {ρ : Type} {result : α → Option ρ} {r : ρ} {us : List α} {p q : α}

/-- A walk along `us` to `q`. -/
theorem walk_forward (h : Linked next prev (us ++ [q])) (hp : (us ++ [q]).head? = some p)
    (hus : ∀ u ∈ us, result u = none) (hq : result q = some r) {fuel : Nat}
    (hfuel : us.length < fuel) : walk next result fuel p = some r := by
  induction us generalizing p fuel with
  | nil =>
    cases hp
    obtain ⟨n, rfl⟩ := Nat.exists_eq_add_of_lt hfuel
    simp only [walk, hq]
  | cons u us ih =>
    cases hp
    obtain ⟨f, rfl⟩ : ∃ f, fuel = f + 1 := ⟨fuel - 1, by simp at hfuel; omega⟩
    simp only [walk, hus u (by simp)]
    have hnext : (us ++ [q]).head? = some (next u) := by
      cases us with
      | nil => exact congrArg some h.next_head.symm
      | cons w us => exact congrArg some h.next_head.symm
    exact ih h.of_cons hnext (fun w hw => hus w (by simp [hw])) (by simpa using hfuel)

/-- A walk along `us` back to `q`. -/
theorem walk_backward (h : Linked next prev (q :: us)) (hp : (q :: us).getLast? = some p)
    (hus : ∀ u ∈ us, result u = none) (hq : result q = some r) {fuel : Nat}
    (hfuel : us.length < fuel) : walk prev result fuel p = some r := by
  have hback : Linked prev next (us.reverse ++ [q]) := by
    rw [← List.reverse_cons]
    exact (List.isChain_reverse.mpr h).imp fun x y hxy => ⟨hxy.2, hxy.1⟩
  refine hback.walk_forward ?_ (fun u hu => hus u (List.mem_reverse.mp hu)) hq
    (by rwa [List.length_reverse])
  rw [← List.reverse_cons, List.head?_reverse]
  exact hp

end Walk

end Linked

/-! ## Lists that end with null -/

section Threaded

variable [DecidableEq α]

/-- The list `l` starts at `first` and ends with `null`: a ring through `null`, whose own
links are `first` and some `last`. -/
structure Threaded (next prev : α → α) (null first : α) (l : List α) : Prop where
  null_notMem : null ∉ l
  nodup : l.Nodup
  linked : ∃ last, Linked (Function.update next null first) (Function.update prev null last)
    (null :: (l ++ [null]))

namespace Threaded

variable {next prev next' prev' : α → α} {null first first' n : α} {l xs ys : List α}

theorem nil : Threaded next prev null null [] :=
  ⟨List.not_mem_nil, List.nodup_nil, null,
    Linked.pair (Function.update_self ..) (Function.update_self ..)⟩

theorem head?_eq (h : Threaded next prev null first l) : (l ++ [null]).head? = some first := by
  obtain ⟨last, hlinked⟩ := h.linked
  cases l with
  | nil => exact congrArg some (hlinked.next_head.symm.trans (Function.update_self ..))
  | cons y l =>
    exact congrArg some (hlinked.next_head.symm.trans (Function.update_self ..))

/-- The links of other nodes do not matter. -/
theorem congr (h : Threaded next prev null first l)
    (heq : ∀ p ∈ l, next' p = next p ∧ prev' p = prev p) :
    Threaded next' prev' null first l := by
  obtain ⟨last, hlinked⟩ := h.linked
  refine ⟨h.null_notMem, h.nodup, last, hlinked.congr (fun p hp => ?_) fun p hp => ?_⟩
  · rw [← List.cons_append, List.dropLast_concat] at hp
    rcases List.mem_cons.mp hp with rfl | hp
    · rw [Function.update_self, Function.update_self]
    · have hne := ne_of_mem_of_not_mem hp h.null_notMem
      rw [Function.update_of_ne hne, Function.update_of_ne hne, (heq p hp).1]
  · rcases List.mem_append.mp hp with hp | hp
    · have hne := ne_of_mem_of_not_mem hp h.null_notMem
      rw [Function.update_of_ne hne, Function.update_of_ne hne, (heq p hp).2]
    · rw [List.mem_singleton.mp hp, Function.update_self, Function.update_self]

/-- The node `n` is linked in at the front. -/
theorem push (h : Threaded next prev null first l) (hn : n ∉ l) (hnull : n ≠ null)
    (hself : next' n = first ∧ prev' n = null) (hnext : ∀ p ∈ l, next' p = next p)
    (hprev : ∀ p ∈ l, prev' p = if p = first then n else prev p) :
    Threaded next' prev' null n (n :: l) := by
  obtain ⟨last, hlinked⟩ := h.linked
  obtain ⟨r, hr⟩ : ∃ r, l ++ [null] = first :: r := List.head?_eq_some_iff.mp h.head?_eq
  have hnew : n ∉ null :: (l ++ [null]) := by
    simp [hnull, hn]
  have hdep : (null :: (l ++ [null])).dropLast.Nodup := by
    rw [← List.cons_append, List.dropLast_concat]
    exact List.nodup_cons.mpr ⟨h.null_notMem, h.nodup⟩
  have harr : (null :: (l ++ [null])).tail.Nodup :=
    (List.perm_append_singleton null l).nodup_iff.mpr
      (List.nodup_cons.mpr ⟨h.null_notMem, h.nodup⟩)
  rw [hr] at hlinked hnew hdep harr
  have hadded : Linked _ _ ([] ++ null :: n :: first :: r) :=
    Linked.insert hlinked (fun p => rfl) (fun p => rfl) hnew hdep harr
  rw [List.nil_append, ← hr] at hadded
  refine ⟨?_, List.nodup_cons.mpr ⟨hn, h.nodup⟩,
    if null = first then n else last, hadded.congr (fun p hp => ?_) fun p hp => ?_⟩
  · rw [List.mem_cons, not_or]
    exact ⟨Ne.symm hnull, h.null_notMem⟩
  · have hp' : p ∈ null :: n :: l := by
      rwa [← List.cons_append, ← List.cons_append, List.dropLast_concat] at hp
    rcases List.mem_cons.mp hp' with rfl | hp'
    · rw [Function.update_self, if_neg (Ne.symm hnull), if_pos rfl]
    · rcases List.mem_cons.mp hp' with rfl | hp'
      · rw [Function.update_of_ne hnull, if_pos rfl, hself.1]
      · have hne := ne_of_mem_of_not_mem hp' h.null_notMem
        rw [Function.update_of_ne hne, if_neg (ne_of_mem_of_not_mem hp' hn), if_neg hne,
          Function.update_of_ne hne, hnext p hp']
  · rcases List.mem_cons.mp hp with rfl | hp
    · rw [Function.update_of_ne hnull, if_neg (fun heq => hnew (by simp [← heq])), if_pos rfl,
        hself.2]
    · rcases List.mem_append.mp hp with hp | hp
      · have hne := ne_of_mem_of_not_mem hp h.null_notMem
        rw [Function.update_of_ne hne, if_neg (ne_of_mem_of_not_mem hp hn),
          Function.update_of_ne hne, hprev p hp]
      · rw [List.mem_singleton.mp hp, Function.update_self, if_neg (Ne.symm hnull),
          Function.update_self]

/-- The node `n` is linked out. -/
theorem unlink (h : Threaded next prev null first (xs ++ n :: ys))
    (hnext : ∀ p ∈ xs ++ ys, next' p = if p = prev n then next n else next p)
    (hprev : ∀ p ∈ xs ++ ys, prev' p = if p = next n then prev n else prev p)
    (hfirst : first' = if prev n = null then next n else first) :
    Threaded next' prev' null first' (xs ++ ys) := by
  obtain ⟨last, hlinked⟩ := h.linked
  obtain ⟨x, hx⟩ : ∃ x, (null :: xs).getLast? = some x := ⟨_, List.getLast?_cons⟩
  obtain ⟨y, hy⟩ : ∃ y, (ys ++ [null]).head? = some y :=
    ⟨(ys ++ [null]).head (by simp), List.head?_eq_some_head _⟩
  obtain ⟨a, ha⟩ : ∃ a, null :: xs = a ++ [x] := ⟨_, (List.dropLast_append_getLast? x hx).symm⟩
  obtain ⟨r, hr⟩ : ∃ r, ys ++ [null] = y :: r := List.head?_eq_some_iff.mp hy
  have hring : null :: (xs ++ n :: ys ++ [null]) = a ++ x :: n :: y :: r := by
    rw [List.append_assoc, List.cons_append, hr, ← List.cons_append, ha, List.append_assoc]
    rfl
  have hring' : a ++ x :: y :: r = null :: (xs ++ ys ++ [null]) := by
    rw [List.append_assoc, hr, ← List.cons_append, ha, List.append_assoc]
    rfl
  have hcons : (null :: (xs ++ n :: ys)).Nodup := List.nodup_cons.mpr ⟨h.null_notMem, h.nodup⟩
  have hdep : (null :: (xs ++ n :: ys ++ [null])).dropLast.Nodup := by
    rwa [← List.cons_append, List.dropLast_concat]
  have harr : (null :: (xs ++ n :: ys ++ [null])).tail.Nodup :=
    (List.perm_append_singleton null _).nodup_iff.mpr hcons
  have hn : n ≠ null := ne_of_mem_of_not_mem (by simp) h.null_notMem
  rw [hring] at hlinked hdep harr
  have hnexteq : next n = y := by
    have hstep := hlinked
    rw [List.append_cons] at hstep
    have heq := hstep.next_eq
    rwa [Function.update_of_ne hn] at heq
  have hpreveq : prev n = x := by
    have heq := hlinked.prev_eq
    rwa [Function.update_of_ne hn] at heq
  rw [hnexteq, hpreveq] at hnext hprev hfirst
  have hremoved := hlinked.remove (fun p => rfl) (fun p => rfl) hdep harr
  rw [hring'] at hremoved
  have hsub : (xs ++ ys).Sublist (xs ++ n :: ys) :=
    (List.Sublist.refl xs).append (List.sublist_cons_self n ys)
  have hnull : null ∉ xs ++ ys := fun hmem => h.null_notMem (hsub.subset hmem)
  refine ⟨hnull, hsub.nodup h.nodup, if null = y then x else last,
    hremoved.congr (fun p hp => ?_) fun p hp => ?_⟩
  · rw [← List.cons_append, List.dropLast_concat] at hp
    rcases List.mem_cons.mp hp with rfl | hp
    · rw [Function.update_self, Function.update_self, hfirst]
      exact if_congr eq_comm rfl rfl
    · have hne := ne_of_mem_of_not_mem hp hnull
      rw [Function.update_of_ne hne, Function.update_of_ne hne, hnext p hp]
  · rcases List.mem_append.mp hp with hp | hp
    · have hne := ne_of_mem_of_not_mem hp hnull
      rw [Function.update_of_ne hne, Function.update_of_ne hne, hprev p hp]
    · rw [List.mem_singleton.mp hp, Function.update_self, Function.update_self]

/-- The neighbours of a node are nodes or `null`. -/
theorem neighbours (h : Threaded next prev null first l) (hn : n ∈ l) :
    (next n = null ∨ next n ∈ l) ∧ (prev n = null ∨ prev n ∈ l) := by
  obtain ⟨last, hlinked⟩ := h.linked
  have hnull := ne_of_mem_of_not_mem hn h.null_notMem
  obtain ⟨xs, ys, rfl⟩ := List.append_of_mem hn
  constructor
  · obtain ⟨y, r, hr⟩ : ∃ y r, ys ++ [null] = y :: r := List.exists_cons_of_ne_nil (by simp)
    have hsplit : null :: (xs ++ n :: ys ++ [null]) = null :: xs ++ n :: y :: r := by
      rw [List.append_assoc, List.cons_append, hr, List.cons_append]
    rw [hsplit] at hlinked
    have hnext := hlinked.next_eq
    rw [Function.update_of_ne hnull] at hnext
    have hy : y ∈ ys ++ [null] := by simp [hr]
    rw [hnext]
    rcases List.mem_append.mp hy with hy | hy
    · exact Or.inr (List.mem_append_right _ (List.mem_cons_of_mem _ hy))
    · exact Or.inl (List.mem_singleton.mp hy)
  · obtain ⟨a, x, ha⟩ : ∃ a x, null :: xs = a ++ [x] :=
      ⟨_, _, (List.dropLast_append_getLast (List.cons_ne_nil null xs)).symm⟩
    have hsplit : null :: (xs ++ n :: ys ++ [null]) = a ++ x :: n :: (ys ++ [null]) := by
      rw [List.append_assoc, ← List.cons_append, ha, List.append_assoc]
      rfl
    rw [hsplit] at hlinked
    have hprev := hlinked.prev_eq
    rw [Function.update_of_ne hnull] at hprev
    have hx : x ∈ null :: xs := by simp [ha]
    rw [hprev]
    exact (List.mem_cons.mp hx).imp_right fun hx => List.mem_append_left _ hx

/-- No link leads back to the start. -/
theorem next_ne_first (h : Threaded next prev null first l) (hn : n ∈ l) : next n ≠ first := by
  obtain ⟨last, hlinked⟩ := h.linked
  have hnull := ne_of_mem_of_not_mem hn h.null_notMem
  have hfirst := h.head?_eq
  have hnodup : (l ++ [null]).Nodup :=
    (List.perm_append_singleton null l).nodup_iff.mpr
      (List.nodup_cons.mpr ⟨h.null_notMem, h.nodup⟩)
  obtain ⟨xs, ys, rfl⟩ := List.append_of_mem hn
  obtain ⟨y, r, hr⟩ : ∃ y r, ys ++ [null] = y :: r := List.exists_cons_of_ne_nil (by simp)
  have hsplit : xs ++ n :: ys ++ [null] = xs ++ n :: y :: r := by
    rw [List.append_assoc, List.cons_append, hr]
  rw [hsplit] at hfirst hnodup hlinked
  rw [← List.cons_append] at hlinked
  have hnext := hlinked.next_eq
  rw [Function.update_of_ne hnull] at hnext
  rw [hnext]
  rintro rfl
  cases xs with
  | nil =>
    obtain rfl : n = y := Option.some.inj hfirst
    simp at hnodup
  | cons x xs =>
    obtain rfl : x = y := Option.some.inj hfirst
    simp at hnodup

/-- A walk from the start up to a node of the list, or to `null`. -/
theorem walk {ρ : Type} {result : α → Option ρ} {r : ρ} {q : α}
    (h : Threaded next prev null first l) (hl : l ++ [null] = xs ++ q :: ys)
    (hxs : ∀ u ∈ xs, result u = none) (hq : result q = some r) {fuel : Nat}
    (hfuel : xs.length < fuel) : Linked.walk next result fuel first = some r := by
  obtain ⟨last, hlinked⟩ := h.linked
  have hsub : ∀ u ∈ xs, u ≠ null := by
    intro u hu
    obtain ⟨a, b, rfl⟩ := List.append_of_mem hu
    have hmem : u ∈ (l ++ [null]).dropLast := by
      rw [hl, List.dropLast_append_cons]
      exact List.mem_append_left _ hu
    rw [List.dropLast_concat] at hmem
    exact ne_of_mem_of_not_mem hmem h.null_notMem
  have hring : Linked (Function.update next null first) (Function.update prev null last)
      (xs ++ [q]) := by
    refine hlinked.of_cons.part (s := []) (t := ys) ?_
    rw [hl]
    simp
  have hpath : Linked next (Function.update prev null last) (xs ++ [q]) := by
    refine hring.congr (fun p hp => ?_) fun p hp => rfl
    rw [List.dropLast_concat] at hp
    exact (Function.update_of_ne (hsub p hp) _ _).symm
  have hhead : (xs ++ [q]).head? = some first := by
    have heq := h.head?_eq
    rw [hl] at heq
    cases xs with
    | nil => exact heq
    | cons x xs => exact heq
  exact hpath.walk_forward hhead hxs hq hfuel

end Threaded

end Threaded

end Basht
