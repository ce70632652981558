import Mathlib.Data.List.Basic
import Mathlib.Logic.Function.Basic

/-!
# A terminal of rows

A terminal with rows of `W` columns, and what bytes written to it do to the row of its
cursor. A character fills one cell, and its UTF-8 continuation bytes none; behind the last
column the cursor goes to a new row.

`feed_text` is the rule for text: when every TAB in it advances one column (`TabsAdvanceOne`),
the text fills as many columns as it has characters.
-/

namespace Basht

/-- The byte continues a UTF-8 character. -/
def continues (b : UInt8) : Bool := b &&& 0xc0 == 0x80

/-- The characters of a text. -/
def chars (bs : List UInt8) : Nat := bs.countP fun b => !continues b

theorem chars_append (bs bs' : List UInt8) : chars (bs ++ bs') = chars bs + chars bs' :=
  List.countP_append

/-- A byte of a text: no control character but TAB. -/
def IsText (b : UInt8) : Prop := b = 9 ∨ 32 ≤ b ∧ b ≠ 127

instance (b : UInt8) : Decidable (IsText b) := inferInstanceAs (Decidable (_ ∨ _))

/-- Behind `col` columns, every TAB of the text stands one column before a tab stop. -/
def TabsAdvanceOne (col : Nat) : List UInt8 → Prop
  | [] => True
  | b :: bs => (b = 9 → col % 8 = 7) ∧ TabsAdvanceOne (if continues b then col else col + 1) bs

instance TabsAdvanceOne.decidable : ∀ col bs, Decidable (TabsAdvanceOne col bs)
  | _, [] => isTrue trivial
  | _, _ :: bs => @instDecidableAnd _ _ _ (TabsAdvanceOne.decidable _ bs)

theorem TabsAdvanceOne.of_append {bs bs' : List UInt8} {col : Nat}
    (h : TabsAdvanceOne col (bs ++ bs')) : TabsAdvanceOne col bs := by
  induction bs generalizing col with
  | nil => trivial
  | cons b bs ih => exact ⟨h.1, ih h.2⟩

/-- The cursor is in the row `row` and the column `col`, and `cells` are the cells of its row. -/
structure Terminal (W : Nat) where
  row : Nat
  cells : Nat → UInt8
  col : Nat
  col_lt : col < W

namespace Terminal

variable {W : Nat}

/-- An empty row. -/
def empty (hW : 0 < W) (row : Nat) : Terminal W := ⟨row, fun _ => 32, 0, hW⟩

/-- The cursor at the start of a new row. -/
def newRow (t : Terminal W) : Terminal W :=
  empty (Nat.lt_of_le_of_lt (Nat.zero_le _) t.col_lt) (t.row + 1)

/-- The cursor moved to a column; behind the last one, to a new row. -/
def moveTo (t : Terminal W) (col : Nat) : Terminal W :=
  if h : col < W then { t with col := col, col_lt := h } else t.newRow

/-- One byte: CR, LF, backspace, TAB, or a byte of a character. -/
def put (t : Terminal W) (b : UInt8) : Terminal W :=
  if b = 13 then t.moveTo 0
  else if b = 10 then t.newRow
  else if b = 8 then t.moveTo (t.col - 1)
  else if b = 9 then t.moveTo ((t.col / 8 + 1) * 8)
  else if continues b then t
  else { t with cells := Function.update t.cells t.col b }.moveTo (t.col + 1)

/-- The bytes in their order. -/
def feed (t : Terminal W) (bs : List UInt8) : Terminal W := bs.foldl put t

@[simp] theorem feed_nil (t : Terminal W) : t.feed [] = t := rfl

theorem feed_cons (t : Terminal W) (b : UInt8) (bs : List UInt8) :
    t.feed (b :: bs) = (t.put b).feed bs := rfl

theorem feed_append (t : Terminal W) (bs bs' : List UInt8) :
    t.feed (bs ++ bs') = (t.feed bs).feed bs' := List.foldl_append

/-- The row is blank and the cursor at its start. -/
structure Blank (t : Terminal W) : Prop where
  cells : ∀ j < W, t.cells j = 32
  col : t.col = 0

theorem blank_empty (hW : 0 < W) (row : Nat) : (empty hW row).Blank := ⟨fun _ _ => rfl, rfl⟩

theorem moveTo_of_lt (t : Terminal W) {col : Nat} (h : col < W) :
    t.moveTo col = { t with col := col, col_lt := h } := dif_pos h

theorem put_cr (t : Terminal W) :
    t.put 13 = { t with col := 0, col_lt := Nat.lt_of_le_of_lt (Nat.zero_le _) t.col_lt } :=
  moveTo_of_lt t _

theorem put_lf (t : Terminal W) : t.put 10 = t.newRow := rfl

theorem feed_lf_blank (t : Terminal W) (bs : List UInt8) : (t.feed (bs ++ [10])).Blank := by
  rw [feed_append, feed_cons, feed_nil, put_lf]
  exact blank_empty _ _

/-! ## Text -/

theorem put_text (t : Terminal W) {b : UInt8} (hb : IsText b) (htab : b = 9 → t.col % 8 = 7)
    (hfit : (if continues b then t.col else t.col + 1) < W) :
    (t.put b).row = t.row ∧ (t.put b).col = (if continues b then t.col else t.col + 1) ∧
      ∀ j, j < t.col ∨ (t.put b).col ≤ j → (t.put b).cells j = t.cells j := by
  have hne : ∀ d : UInt8, ¬IsText d → b ≠ d := fun d hd h => hd (h ▸ hb)
  unfold put
  rw [if_neg (hne 13 (by decide)), if_neg (hne 10 (by decide)), if_neg (hne 8 (by decide))]
  by_cases hb9 : b = 9
  · have hcol := htab hb9
    rw [if_pos hb9]
    subst hb9
    rw [if_neg (by decide)] at hfit ⊢
    have hstop : (t.col / 8 + 1) * 8 = t.col + 1 := by omega
    rw [hstop, moveTo_of_lt t hfit]
    exact ⟨rfl, rfl, fun j _ => rfl⟩
  · rw [if_neg hb9]
    cases hcont : continues b with
    | true => exact ⟨rfl, rfl, fun j _ => rfl⟩
    | false =>
      simp only [hcont, Bool.false_eq_true, if_false] at hfit ⊢
      rw [moveTo_of_lt _ hfit]
      refine ⟨rfl, rfl, fun j hj => Function.update_of_ne ?_ _ _⟩
      change j < t.col ∨ t.col + 1 ≤ j at hj
      omega

/-- **Text.** Text that fits the row stays in it, and fills a column for each character. -/
theorem feed_text (t : Terminal W) {bs : List UInt8} (hbs : ∀ b ∈ bs, IsText b)
    (htabs : TabsAdvanceOne t.col bs) (hfit : t.col + chars bs < W) :
    (t.feed bs).row = t.row ∧ (t.feed bs).col = t.col + chars bs ∧
      ∀ j, j < t.col ∨ t.col + chars bs ≤ j → (t.feed bs).cells j = t.cells j := by
  induction bs generalizing t with
  | nil => exact ⟨rfl, rfl, fun j _ => rfl⟩
  | cons b bs ih =>
    have hchars : t.col + chars (b :: bs)
        = (if continues b then t.col else t.col + 1) + chars bs := by
      rw [chars, List.countP_cons, ← chars]
      cases continues b <;> simp only [Bool.not_true, Bool.not_false, if_true, if_false,
        Bool.false_eq_true] <;> omega
    rw [hchars] at hfit ⊢
    obtain ⟨hrow, hcol, hcells⟩ := t.put_text (hbs b (by simp)) htabs.1 (by omega)
    rw [feed_cons]
    obtain ⟨hrow', hcol', hcells'⟩ := ih (t.put b) (fun b hb => hbs b (List.mem_cons_of_mem _ hb))
      (by rw [hcol]; exact htabs.2) (by rw [hcol]; exact hfit)
    rw [hcol] at hcol' hcells'
    refine ⟨hrow'.trans hrow, hcol', fun j hj => ?_⟩
    have hle : t.col ≤ if continues b then t.col else t.col + 1 := by split <;> omega
    rw [hcells' j (by omega), hcells j (by rw [hcol]; omega)]

/-! ## Spaces and backspaces -/

/-- Spaces blank the cells they pass. -/
theorem feed_spaces (t : Terminal W) {n : Nat} (hfit : t.col + n < W) :
    (t.feed (List.replicate n 32)).row = t.row ∧ (t.feed (List.replicate n 32)).col = t.col + n ∧
      ∀ j, (t.feed (List.replicate n 32)).cells j
        = if t.col ≤ j ∧ j < t.col + n then 32 else t.cells j := by
  induction n generalizing t with
  | zero =>
    refine ⟨rfl, rfl, fun j => ?_⟩
    rw [if_neg (by omega)]
    rfl
  | succ n ih =>
    have hput : t.put 32 = { t with
        cells := Function.update t.cells t.col 32
        col := t.col + 1
        col_lt := by omega } := moveTo_of_lt _ _
    rw [List.replicate_succ, feed_cons, hput]
    obtain ⟨hrow, hcol, hcells⟩ := ih ⟨t.row, Function.update t.cells t.col 32, t.col + 1, by omega⟩
      (by simp only; omega)
    refine ⟨hrow, by rw [hcol]; simp only; omega, fun j => ?_⟩
    rw [hcells j]
    by_cases hj : j = t.col
    · subst hj
      simp
    · simp only [Function.update_of_ne hj]
      congr 1
      simp only [eq_iff_iff]
      omega

theorem feed_backspaces (t : Terminal W) (n : Nat) :
    (t.feed (List.replicate n 8)).row = t.row ∧ (t.feed (List.replicate n 8)).col = t.col - n ∧
      (t.feed (List.replicate n 8)).cells = t.cells := by
  induction n generalizing t with
  | zero => exact ⟨rfl, rfl, rfl⟩
  | succ n ih =>
    have hlt := t.col_lt
    have hput : t.put 8 = { t with col := t.col - 1, col_lt := by omega } := moveTo_of_lt _ _
    rw [List.replicate_succ, feed_cons, hput]
    obtain ⟨hrow, hcol, hcells⟩ := ih { t with col := t.col - 1, col_lt := by omega }
    refine ⟨hrow, ?_, hcells⟩
    rw [hcol]
    simp only
    omega

/-- CR, spaces over all that is drawn, and CR blank the row. -/
theorem erase_blank (t : Terminal W) {n : Nat} (hn : n < W)
    (hcells : ∀ j, n ≤ j → j < W → t.cells j = 32) :
    (t.feed (13 :: List.replicate n 32 ++ [13])).Blank ∧
      (t.feed (13 :: List.replicate n 32 ++ [13])).row = t.row := by
  rw [feed_append, feed_cons, feed_cons, feed_nil, put_cr, put_cr]
  obtain ⟨hrow, -, hspaces⟩ := feed_spaces
    (⟨t.row, t.cells, 0, Nat.lt_of_le_of_lt (Nat.zero_le _) t.col_lt⟩ : Terminal W) (n := n)
    (by simp only; omega)
  refine ⟨⟨fun j hj => ?_, rfl⟩, hrow⟩
  simp only
  rw [hspaces]
  split
  · rfl
  · rename_i hout
    simp only at hout
    exact hcells j (by omega) hj

end Terminal

end Basht
