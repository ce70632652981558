import Basht.Arrays.Copy
import Basht.Arrays.Shifts

/-!
# Arrays are finite maps

What the operations do to the map an array holds (`Op.update`), one operation at a time
(`Holds.run`) and over a run. Where a search starts and in which direction it goes does not
show in what it finds.
-/

namespace Basht.Arrays

variable {V : Type} {a : Arr V} {as : List Nat} {m : Map V}

/-- What an operation does to the map. -/
noncomputable def Op.update (m : Map V) : Op V → Map V
  | .insert i v => Function.update m i (some v)
  | .remove i => Function.update m i none
  | .reference _ => m
  | .shift n _ => m.shift n.toNat
  | .rshift n s => m.rshift n s
  | .flush => fun _ => none
  | .copy => m

/-- The callers insert at indices from 0 on. -/
def Op.Allowed : Op V → Prop
  | .insert i _ => 0 ≤ i
  | _ => True

theorem holds_arrayCreate : Holds (Arr.arrayCreate : Arr V) [] fun _ => none :=
  holds_nil rfl rfl ⟨Nat.one_pos, Nat.lt_succ_self 1⟩ rfl rfl rfl rfl

/-- One operation. -/
theorem Holds.run (h : Holds a as m) {o : Op V} (ho : o.Allowed) {fuel : Nat}
    (hfuel : as.length < fuel) :
    ∃ a' as', o.run fuel a = some a' ∧ Holds a' as' (o.update m) ∧
      as'.length ≤ as.length + 1 := by
  cases o with
  | insert i v =>
    obtain ⟨a', as', hrun, hholds, hlen⟩ := h.arrayInsert ho v hfuel
    exact ⟨a', as', congrArg (Option.map Prod.fst) hrun, hholds, hlen⟩
  | remove i =>
    obtain ⟨a', as', ae, hrun, hholds, hlen⟩ := h.arrayRemove i hfuel
    exact ⟨a', as', congrArg (Option.map Prod.fst) hrun, hholds, Nat.le_succ_of_le hlen⟩
  | reference i =>
    obtain ⟨a', hrun, hholds⟩ := h.arrayReference i hfuel
    exact ⟨a', as, congrArg (Option.map Prod.fst) hrun, hholds, Nat.le_succ _⟩
  | shift n dispose =>
    obtain ⟨a', as', ret, hrun, hholds, hlen⟩ := h.arrayShift n dispose hfuel
    exact ⟨a', as', congrArg (Option.map Prod.fst) hrun, hholds, Nat.le_succ_of_le hlen⟩
  | rshift n s =>
    obtain ⟨a', as', num, hrun, hholds, hlen⟩ := h.arrayRshift n s hfuel
    exact ⟨a', as', congrArg (Option.map Prod.fst) hrun, hholds, hlen⟩
  | flush => exact ⟨_, [], rfl, h.arrayFlush, Nat.zero_le _⟩
  | copy =>
    obtain ⟨b, ns, hrun, hholds, hlen⟩ := h.arrayCopy hfuel
    exact ⟨b, ns, hrun, hholds, Nat.le_succ_of_le (Nat.le_of_eq hlen)⟩

/-- A run. -/
theorem Holds.foldlM_run (h : Holds a as m) {ops : List (Op V)} (hops : ∀ o ∈ ops, o.Allowed)
    {fuel : Nat} (hfuel : as.length + ops.length < fuel) :
    ∃ a' as', ops.foldlM (Op.run fuel) a = some a' ∧ Holds a' as' (ops.foldl Op.update m) ∧
      as'.length < fuel := by
  induction ops generalizing a as m with
  | nil => exact ⟨a, as, rfl, h, hfuel⟩
  | cons o ops ih =>
    obtain ⟨ho, hops⟩ := List.forall_mem_cons.mp hops
    rw [List.length_cons] at hfuel
    have hfuel' : as.length < fuel := by omega
    obtain ⟨a', as', hrun, hholds, hlen⟩ := h.run ho hfuel'
    obtain ⟨a'', as'', hruns, hfinal⟩ := ih hholds hops (by omega)
    refine ⟨a'', as'', ?_, hfinal⟩
    rw [List.foldlM_cons, hrun]
    exact hruns

theorem Ring.maxIndex_eq (h : Ring a as) : a.maxIndex = (as.map a.ind).getLast?.getD (-1) := by
  by_cases hne : as = []
  · subst hne
    exact h.maxIndex_nil
  · obtain ⟨l, p, rfl, -, hmax⟩ := h.exists_last hne
    rw [hmax, List.map_append, List.map_singleton, List.getLast?_concat]
    rfl

/-- From a new array, operations leave a ring of elements with increasing indices, whose
number, last index and reference the array keeps, and that hold the map the operations make;
each `array_reference` returns what the map holds. -/
theorem array_finiteMap (ops : List (Op V)) (hops : ∀ o ∈ ops, o.Allowed) (fuel : Nat)
    (hfuel : ops.length < fuel) : ∃ a as, ops.foldlM (Op.run fuel) Arr.arrayCreate = some a ∧
      Linked a.next a.prev (a.head :: (as ++ [a.head])) ∧ (a.head :: as).Nodup ∧
      (as.map a.ind).Pairwise (· < ·) ∧ a.numElements = as.length ∧
      a.maxIndex = (as.map a.ind).getLast?.getD (-1) ∧ (a.lastref = 0 ∨ a.lastref ∈ as) ∧
      (∀ i v, ops.foldl Op.update (fun _ => none) i = some v ↔
        ∃ ae ∈ as, a.ind ae = i ∧ a.value ae = v) ∧
      ∀ i, (a.arrayReference fuel i).map Prod.snd =
        some (ops.foldl Op.update (fun _ => none) i).join := by
  have hfuel' : ([] : List Nat).length + ops.length < fuel := by simpa using hfuel
  obtain ⟨a, as, hruns, hholds, hlen⟩ := holds_arrayCreate.foldlM_run hops hfuel'
  refine ⟨a, as, hruns, hholds.linked, hholds.nodup, hholds.sorted_elements, hholds.count,
    hholds.maxIndex_eq, hholds.lastref, hholds.lists.mem_iff, fun i => ?_⟩
  obtain ⟨a', href, -⟩ := hholds.arrayReference i hlen
  rw [href]
  rfl

/-- Two insertions and a shift. -/
theorem array_finiteMap_three : ∃ a as,
    [Op.insert 5 (some 'a'), .insert 2 (some 'b'), .shift 1 false].foldlM (Op.run 4)
      Arr.arrayCreate = some a ∧
    Linked a.next a.prev (a.head :: (as ++ [a.head])) ∧ (a.head :: as).Nodup ∧
    (as.map a.ind).Pairwise (· < ·) ∧ a.numElements = as.length ∧
    a.maxIndex = (as.map a.ind).getLast?.getD (-1) ∧ (a.lastref = 0 ∨ a.lastref ∈ as) ∧
    (∀ i v, [Op.insert 5 (some 'a'), .insert 2 (some 'b'), .shift 1 false].foldl Op.update
      (fun _ => none) i = some v ↔ ∃ ae ∈ as, a.ind ae = i ∧ a.value ae = v) ∧
    ∀ i, (a.arrayReference 4 i).map Prod.snd =
      some ([Op.insert 5 (some 'a'), .insert 2 (some 'b'), .shift 1 false].foldl Op.update
        (fun _ => none) i).join :=
  array_finiteMap _ (by simp [Op.Allowed]) 4 (by decide)

end Basht.Arrays
