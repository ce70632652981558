import Mathlib.Data.List.Basic

/-!
# A terminal of one line

A line of any number of cells, and a cursor that is in the line or right behind it.

* `put`: a character overwrites the cell at the cursor, or is appended.
* `moveTo`: the cursor at a column, or at the end of the line.
* `erase`, `delete`, `insert`, `blank`: edits at the cursor, which stays where it is.
-/

namespace Basht

/-- The cells of the line and the column of the cursor. -/
@[ext] structure OneLine (α : Type) where
  cells : List α
  cur : Nat
  cur_le : cur ≤ cells.length

namespace OneLine

variable {α : Type}

/-- An empty line. -/
def empty : OneLine α := ⟨[], 0, Nat.zero_le _⟩

/-- A character at the cursor. -/
def put (t : OneLine α) (c : α) : OneLine α where
  cells := t.cells.take t.cur ++ c :: t.cells.drop (t.cur + 1)
  cur := t.cur + 1
  cur_le := by
    have hcur := t.cur_le
    rw [List.length_append, List.length_cons, List.length_take]
    omega

/-- The cursor moved to a column, as far as the line goes. -/
def moveTo (t : OneLine α) (col : Nat) : OneLine α where
  cells := t.cells
  cur := min col t.cells.length
  cur_le := Nat.min_le_right _ _

/-- The cells from the cursor on are erased. -/
def erase (t : OneLine α) : OneLine α where
  cells := t.cells.take t.cur
  cur := t.cur
  cur_le := by
    rw [List.length_take]
    exact Nat.le_min.mpr ⟨Nat.le_refl _, t.cur_le⟩

/-- `n` cells are deleted, and the rest of the line moves to the left. -/
def delete (t : OneLine α) (n : Nat) : OneLine α where
  cells := t.cells.take t.cur ++ t.cells.drop (t.cur + n)
  cur := t.cur
  cur_le := by
    have hcur := t.cur_le
    rw [List.length_append, List.length_take]
    omega

/-- `n` cells are inserted, and the rest of the line moves to the right. -/
def insert (t : OneLine α) (b : α) (n : Nat) : OneLine α where
  cells := t.cells.take t.cur ++ List.replicate n b ++ t.cells.drop t.cur
  cur := t.cur
  cur_le := by
    have hcur := t.cur_le
    rw [List.length_append, List.length_append, List.length_take]
    omega

/-- `n` cells are blanked, as far as the line goes. -/
def blank (t : OneLine α) (b : α) (n : Nat) : OneLine α where
  cells := t.cells.take t.cur ++ List.replicate (min n (t.cells.length - t.cur)) b ++
    t.cells.drop (t.cur + n)
  cur := t.cur
  cur_le := by
    have hcur := t.cur_le
    rw [List.length_append, List.length_append, List.length_take]
    omega

@[simp] theorem put_cells (t : OneLine α) (c : α) :
    (t.put c).cells = t.cells.take t.cur ++ c :: t.cells.drop (t.cur + 1) := rfl

@[simp] theorem erase_cells (t : OneLine α) : t.erase.cells = t.cells.take t.cur := rfl

@[simp] theorem delete_cells (t : OneLine α) (n : Nat) :
    (t.delete n).cells = t.cells.take t.cur ++ t.cells.drop (t.cur + n) := rfl

@[simp] theorem insert_cells (t : OneLine α) (b : α) (n : Nat) : (t.insert b n).cells =
    t.cells.take t.cur ++ List.replicate n b ++ t.cells.drop t.cur := rfl

@[simp] theorem blank_cells (t : OneLine α) (b : α) (n : Nat) : (t.blank b n).cells =
    t.cells.take t.cur ++ List.replicate (min n (t.cells.length - t.cur)) b ++
      t.cells.drop (t.cur + n) := rfl

theorem length_put (t : OneLine α) (c : α) :
    (t.put c).cells.length = max t.cells.length (t.cur + 1) := by
  have hcur := t.cur_le
  rw [put, List.length_append, List.length_cons, List.length_take, List.length_drop]
  omega

theorem length_delete (t : OneLine α) (n : Nat) :
    (t.delete n).cells.length = t.cells.length - min n (t.cells.length - t.cur) := by
  have hcur := t.cur_le
  rw [delete, List.length_append, List.length_take, List.length_drop]
  omega

theorem length_insert (t : OneLine α) (b : α) (n : Nat) :
    (t.insert b n).cells.length = t.cells.length + n := by
  have hcur := t.cur_le
  rw [insert, List.length_append, List.length_append, List.length_take, List.length_drop,
    List.length_replicate]
  omega

theorem length_blank (t : OneLine α) (b : α) (n : Nat) :
    (t.blank b n).cells.length = t.cells.length := by
  have hcur := t.cur_le
  rw [blank, List.length_append, List.length_append, List.length_take, List.length_drop,
    List.length_replicate]
  omega

/-- At the end of the line a character is appended. -/
theorem put_end {t : OneLine α} (h : t.cur = t.cells.length) (c : α) :
    (t.put c).cells = t.cells ++ [c] := by
  rw [put_cells, h, List.take_length, List.drop_eq_nil_of_le (Nat.le_succ _)]

end OneLine

end Basht
