import Mathlib.Data.List.Basic
import Mathlib.Logic.Function.Basic

/-!
# Ring buffers that refuse

A queue in the cells `0..n`, of which one stays free: equal indices mean an empty queue, and a
value that does not fit is refused. Of many values those are kept that fit (`toList_stuffAll`),
and what is taken are the contents in their order (`takeAll_eq`).
-/

namespace Basht

/-- The cells, and the indices of the next cells to be written and read. -/
structure RingBuffer (α : Type) (n : Nat) where
  cells : Nat → α
  push : Nat
  pop : Nat
  push_le : push ≤ n
  pop_le : pop ≤ n

namespace RingBuffer

variable {α : Type} {n : Nat}

/-- The index so many places behind another. -/
def behind (n i k : Nat) : Nat := if i + k ≤ n then i + k else i + k - (n + 1)

theorem behind_one_le {i : Nat} (hi : i ≤ n) : behind n i 1 ≤ n := by
  unfold behind
  split <;> omega

/-- The room that is left. -/
def space (q : RingBuffer α n) : Nat :=
  if q.push < q.pop then q.pop - q.push - 1 else n - (q.push - q.pop)

/-- A value at the end, if there is room. -/
def stuff (q : RingBuffer α n) (a : α) : RingBuffer α n :=
  if q.space = 0 then q
  else
    { q with
      cells := Function.update q.cells q.push a
      push := behind n q.push 1
      push_le := behind_one_le q.push_le }

def stuffAll (q : RingBuffer α n) (l : List α) : RingBuffer α n := l.foldl stuff q

/-- Without the first value. -/
def tail (q : RingBuffer α n) : RingBuffer α n :=
  { q with pop := behind n q.pop 1, pop_le := behind_one_le q.pop_le }

/-- The first value, if there is one. -/
def take (q : RingBuffer α n) : Option (α × RingBuffer α n) :=
  if q.push = q.pop then none else some (q.cells q.pop, q.tail)

/-- What is taken until the queue is empty, or so many values have been. -/
def takeAll (q : RingBuffer α n) : Nat → List α
  | 0 => []
  | m + 1 =>
    match q.take with
    | none => []
    | some (a, q') => a :: q'.takeAll m

/-- How many values are in the queue. -/
def used (q : RingBuffer α n) : Nat :=
  if q.push < q.pop then n + 1 - (q.pop - q.push) else q.push - q.pop

/-- The contents. -/
def toList (q : RingBuffer α n) : List α :=
  (List.range q.used).map fun k => q.cells (behind n q.pop k)

theorem length_toList (q : RingBuffer α n) : q.toList.length = q.used := by
  rw [toList, List.length_map, List.length_range]

theorem used_add_space (q : RingBuffer α n) : q.used + q.space = n := by
  have hpush := q.push_le
  have hpop := q.pop_le
  unfold used space
  split <;> omega

theorem length_le (q : RingBuffer α n) : q.toList.length ≤ n := by
  have h := q.used_add_space
  rw [length_toList]
  omega

/-- The cell after the contents is the one that is written next. -/
theorem behind_used (q : RingBuffer α n) : behind n q.pop q.used = q.push := by
  have hpush := q.push_le
  have hpop := q.pop_le
  unfold used behind
  split <;> split <;> omega

theorem behind_ne_push (q : RingBuffer α n) {k : Nat} (hk : k < q.used) :
    behind n q.pop k ≠ q.push := by
  have hpush := q.push_le
  have hpop := q.pop_le
  unfold used at hk
  unfold behind
  split at hk <;> split <;> omega

theorem toList_eq_nil_iff (q : RingBuffer α n) : q.toList = [] ↔ q.push = q.pop := by
  have hpush := q.push_le
  have hpop := q.pop_le
  rw [← List.length_eq_zero_iff, length_toList, used]
  split <;> omega

theorem stuff_full {q : RingBuffer α n} (h : q.toList.length = n) (a : α) : q.stuff a = q := by
  have hspace := q.used_add_space
  rw [length_toList] at h
  exact if_pos (by omega)

theorem toList_stuff {q : RingBuffer α n} (h : q.toList.length < n) (a : α) :
    (q.stuff a).toList = q.toList ++ [a] := by
  have hspace := q.used_add_space
  have hpush := q.push_le
  have hpop := q.pop_le
  rw [length_toList] at h
  have hused : (q.stuff a).used = q.used + 1 := by
    rw [stuff, if_neg (by omega)]
    unfold used behind at *
    simp only
    split at h <;> split <;> split <;> omega
  have hcells : (q.stuff a).cells = Function.update q.cells q.push a := by
    rw [stuff, if_neg (by omega)]
  have hpop' : (q.stuff a).pop = q.pop := by rw [stuff, if_neg (by omega)]
  rw [toList, hused, hcells, hpop', List.range_succ, List.map_append, List.map_singleton,
    behind_used, Function.update_self]
  congr 1
  apply List.map_congr_left
  intro k hk
  exact Function.update_of_ne (q.behind_ne_push (List.mem_range.mp hk)) _ _

/-- Of many values those are kept that fit. -/
theorem toList_stuffAll (q : RingBuffer α n) (l : List α) :
    (q.stuffAll l).toList = (q.toList ++ l).take n := by
  induction l generalizing q with
  | nil => rw [List.append_nil, List.take_of_length_le q.length_le, stuffAll, List.foldl_nil]
  | cons a l ih =>
    rw [stuffAll, List.foldl_cons]
    change (stuffAll (q.stuff a) l).toList = _
    rw [ih]
    rcases Nat.lt_or_ge q.toList.length n with hlt | hge
    · rw [toList_stuff hlt, List.append_assoc, List.singleton_append]
    · have hfull : q.toList.length = n := Nat.le_antisymm q.length_le hge
      rw [stuff_full hfull, List.take_append_of_le_length (by omega),
        List.take_append_of_le_length (by omega)]

theorem behind_succ {i k : Nat} (hi : i ≤ n) (hk : k < n) :
    behind n i (k + 1) = behind n (behind n i 1) k := by
  unfold behind
  split <;> split <;> split <;> omega

theorem toList_of_ne {q : RingBuffer α n} (h : q.push ≠ q.pop) :
    q.toList = q.cells q.pop :: q.tail.toList := by
  have hpush := q.push_le
  have hpop := q.pop_le
  have hspace := q.used_add_space
  have hused : q.used = q.tail.used + 1 := by
    unfold used tail behind
    simp only
    split <;> split <;> split <;> omega
  have hzero : behind n q.pop 0 = q.pop := if_pos hpop
  rw [toList, toList, hused, List.range_succ_eq_map, List.map_cons, List.map_map, hzero]
  congr 1
  apply List.map_congr_left
  intro k hk
  have hlt := List.mem_range.mp hk
  exact congrArg q.cells (behind_succ hpop (by omega))

theorem stuffAll_append (q : RingBuffer α n) (l l' : List α) :
    q.stuffAll (l ++ l') = (q.stuffAll l).stuffAll l' := List.foldl_append

/-- A queue that has been filled from one that was empty goes on as if nothing had been refused
before. -/
theorem toList_stuffAll_take {q : RingBuffer α n} {l : List α} (h : q.toList = l.take n)
    (l' : List α) : (q.stuffAll l').toList = (l ++ l').take n := by
  have hlen : n - (l.take n).length = n - l.length := by
    rw [List.length_take]
    omega
  rw [toList_stuffAll, h, List.take_append, List.take_append, List.take_take, Nat.min_self, hlen]

/-- What is taken is the head of the contents. -/
theorem take_eq_some {q q' : RingBuffer α n} {a : α} (h : q.take = some (a, q')) :
    q.toList = a :: q'.toList := by
  unfold take at h
  split at h
  · cases h
  · rename_i hne
    cases h
    exact toList_of_ne hne

theorem take_eq_none_iff (q : RingBuffer α n) : q.take = none ↔ q.toList = [] := by
  rw [toList_eq_nil_iff, take]
  split
  · rename_i heq
    exact iff_of_true rfl heq
  · rename_i hne
    exact iff_of_false nofun hne

theorem takeAll_eq (q : RingBuffer α n) (m : Nat) : q.takeAll m = q.toList.take m := by
  induction m generalizing q with
  | zero => rw [takeAll, List.take_zero]
  | succ m ih =>
    rw [takeAll]
    cases h : q.take with
    | none => rw [(take_eq_none_iff q).mp h, List.take_nil]
    | some r =>
      obtain ⟨a, q'⟩ := r
      rw [take_eq_some h, List.take_succ_cons, ← ih]

end RingBuffer

end Basht
