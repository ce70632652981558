import Basht.History.Runs

/-!
# The numbers of the entries

`history_get` finds entries by number. As long as lines are only added, each entry keeps the number
it got, until it is forgotten. When the list is stifled, all numbers change: `history_base` is set
to the number of entries that are dropped, where it would have to be raised by it.
-/

namespace Basht.History

variable {h : Hist} {q : Recall}

/-- `history_get`, and the entry it finds. -/
def Hist.lookup (h : Hist) (n : Int) : Except Fault (Option Entry) := h.get n >>= h.contents

theorem Holds.length_eq (hh : Holds h q) : h.length = q.entries.length :=
  let ⟨_, hs⟩ := hh
  hs.length_eq.trans hs.entries_length.symm

namespace Recall

theorem get_eq (q : Recall) (n : Int) :
    q.get n = if n < q.base then none else q.entries[(n - q.base).toNat]? := by
  unfold get find
  by_cases hn : n < q.base
  · rw [if_pos hn, if_pos (by omega)]
    rfl
  · rw [if_neg hn, if_neg (by omega)]
    cases q.entries[(n - q.base).toNat]? <;> rfl

theorem get_add {n : Int} {e e' : Entry} (hn : q.get n = some e') :
    (q.add e).get n = some e' ∨ n < (q.add e).base := by
  rw [get_eq] at hn
  obtain ⟨hbase, hn⟩ := Option.ite_none_left_eq_some.1 hn
  have hlt := (List.getElem?_eq_some_iff.1 hn).1
  unfold add
  by_cases hfull : q.Full
  · rw [if_pos hfull]
    by_cases hnil : q.entries = []
    · rw [hnil] at hlt
      exact absurd hlt (Nat.not_lt_zero _)
    · rw [if_neg hnil]
      by_cases hfirst : n = q.base
      · right
        dsimp only
        omega
      · left
        rw [get_eq, if_neg (by dsimp only; omega), List.getElem?_append_left (by
          rw [List.length_tail]
          dsimp only
          omega), List.getElem?_tail]
        dsimp only
        rw [← hn]
        congr 1
        omega
  · rw [if_neg hfull]
    left
    rw [get_eq, if_neg hbase, List.getElem?_append_left hlt]
    exact hn

theorem base_le_add (q : Recall) (e : Entry) : q.base ≤ (q.add e).base := by
  unfold add
  split
  · split
    · exact Nat.le_refl _
    · exact Nat.le_succ _
  · exact Nat.le_refl _

end Recall

/-! ## Adding lines -/

/-- The calls that do not edit the list. -/
def Op.KeepsNumbers : Op → Prop
  | .add _ _ | .unstifle | .using_ | .setPos _ | .current | .previous | .next | .get _ => True
  | _ => False

/-- An entry stays, or its number is below the base. -/
def Recall.Keeps (q q' : Recall) : Prop :=
  q.base ≤ q'.base ∧ ∀ n e, q.get n = some e → q'.get n = some e ∨ n < q'.base

theorem Recall.Keeps.refl (q : Recall) : q.Keeps q := ⟨Nat.le_refl _, fun _ _ => Or.inl⟩

theorem Recall.Keeps.trans {q' q'' : Recall} (h : q.Keeps q') (h' : q'.Keeps q'') :
    q.Keeps q'' := by
  refine ⟨Nat.le_trans h.1 h'.1, fun n e hn => ?_⟩
  rcases h.2 n e hn with hn' | hlt
  · exact h'.2 n e hn'
  · have := h'.1
    right
    omega

theorem Recall.Keeps.step (q : Recall) {op : Op} (hop : op.KeepsNumbers) :
    q.Keeps (onList.step q op).1 := by
  have hpointer : ∀ m, q.Keeps { q with offset := m } := fun m =>
    ⟨Nat.le_refl _, fun n e hn => Or.inl hn⟩
  cases op with
  | add string timestamp => exact ⟨q.base_le_add _, fun n e hn => Recall.get_add hn⟩
  | unstifle =>
    change q.Keeps q.unstifle.1
    unfold Recall.unstifle
    split
    · exact ⟨Nat.le_refl _, fun n e hn => Or.inl hn⟩
    · exact .refl q
  | using_ => exact hpointer _
  | setPos pos =>
    change q.Keeps (q.setPos pos).1
    unfold Recall.setPos
    split
    · exact .refl q
    · exact hpointer _
  | previous =>
    change q.Keeps q.previous.1
    unfold Recall.previous
    split
    · exact .refl q
    · exact hpointer _
  | next =>
    change q.Keeps q.next.1
    unfold Recall.next
    split
    · exact .refl q
    · exact hpointer _
  | current | get n => exact .refl q
  | addTime | replace | remove | removeRange | stifle | clear => exact absurd hop id

theorem Recall.Keeps.final {ops : List Op} (hops : ∀ op ∈ ops, op.KeepsNumbers) :
    q.Keeps (onList.final q ops) := by
  induction ops generalizing q with
  | nil => exact .refl q
  | cons op ops ih =>
    exact (Recall.Keeps.step q (hops op List.mem_cons_self)).trans
      (ih fun op hop => hops op (List.mem_cons_of_mem _ hop))

end Basht.History
