import Mathlib.Data.List.Basic

/-!
# Buffers of fixed capacity

An array of C with checked stores. Every store of C's string functions writes a list of
cells at an offset: one cell, a copied block, a moved block or a block of one value. A
store that would leave the buffer is a `StoreFault`.
-/

namespace Basht

/-- A buffer of `cap` cells. -/
structure Buffer (α : Type) (cap : Nat) where
  cells : List α
  length_cells : cells.length = cap

/-- A store of `length` cells at `offset` that leaves the buffer. -/
structure StoreFault where
  offset : Nat
  length : Nat
deriving DecidableEq, Repr

namespace Buffer

variable {α : Type} {cap : Nat}

/-- A buffer filled with one value. -/
def fill (cap : Nat) (a : α) : Buffer α cap := ⟨List.replicate cap a, List.length_replicate⟩

/-- The cells `xs` stored at `off`. -/
def overwrite (b : Buffer α cap) (off : Nat) (xs : List α) (h : off + xs.length ≤ cap) :
    Buffer α cap where
  cells := b.cells.take off ++ xs ++ b.cells.drop (off + xs.length)
  length_cells := by
    simp only [List.length_append, List.length_take, List.length_drop, b.length_cells]
    omega

/-- Store the cells `xs` at `off`. -/
def write (b : Buffer α cap) (off : Nat) (xs : List α) : Except StoreFault (Buffer α cap) :=
  if h : off + xs.length ≤ cap then .ok (b.overwrite off xs h) else .error ⟨off, xs.length⟩

/-- The same cells in a larger buffer; the new ones hold `a`. -/
def extend (b : Buffer α cap) (a : α) {size : Nat} (h : cap ≤ size) : Buffer α size where
  cells := b.cells ++ List.replicate (size - cap) a
  length_cells := by
    rw [List.length_append, List.length_replicate, b.length_cells]
    omega

/-- The first `n` cells. -/
def upTo (b : Buffer α cap) (n : Nat) : List α := b.cells.take n

/-- The `n` cells from `off` on. -/
def slice (b : Buffer α cap) (off n : Nat) : List α := (b.cells.drop off).take n

theorem write_of_le (b : Buffer α cap) {off : Nat} {xs : List α} (h : off + xs.length ≤ cap) :
    b.write off xs = .ok (b.overwrite off xs h) := dif_pos h

theorem write_of_gt (b : Buffer α cap) {off : Nat} {xs : List α} (h : cap < off + xs.length) :
    b.write off xs = .error ⟨off, xs.length⟩ := dif_neg (by omega)

theorem write_eq_ok {b b' : Buffer α cap} {off : Nat} {xs : List α} :
    b.write off xs = .ok b' ↔ ∃ h : off + xs.length ≤ cap, b.overwrite off xs h = b' := by
  unfold write
  split
  · rename_i hfit
    simp [hfit]
  · rename_i hfit
    simp [hfit]

theorem length_slice (b : Buffer α cap) {off n : Nat} (h : off + n ≤ cap) :
    (b.slice off n).length = n := by
  rw [slice, List.length_take, List.length_drop, b.length_cells]
  omega

theorem length_upTo (b : Buffer α cap) {n : Nat} (h : n ≤ cap) : (b.upTo n).length = n := by
  rw [upTo, List.length_take, b.length_cells]
  exact Nat.min_eq_left h

/-- The first cells behind a store into them. -/
theorem upTo_overwrite (b : Buffer α cap) {off n : Nat} {xs : List α} (h : off + xs.length ≤ cap)
    (hn : off + xs.length ≤ n) :
    (b.overwrite off xs h).upTo n =
      (b.upTo n).take off ++ xs ++ (b.upTo n).drop (off + xs.length) := by
  have hlen := b.length_cells
  have htake : (b.cells.take off).length = off := by
    rw [List.length_take]
    omega
  rw [upTo, upTo, overwrite, List.take_append, List.length_append, htake, List.take_take,
    Nat.min_eq_left (by omega), List.take_of_length_le (l := b.cells.take off ++ xs),
    List.drop_take]
  rw [List.length_append, htake]
  exact hn

/-- The cells behind a store. -/
theorem drop_overwrite (b : Buffer α cap) {off p : Nat} {xs : List α} (h : off + xs.length ≤ cap)
    (hp : off + xs.length ≤ p) : (b.overwrite off xs h).cells.drop p = b.cells.drop p := by
  have hlen := b.length_cells
  have htake : (b.cells.take off ++ xs).length = off + xs.length := by
    rw [List.length_append, List.length_take]
    omega
  rw [overwrite, List.drop_append, List.drop_of_length_le (by omega), List.nil_append, htake,
    List.drop_drop]
  congr 1
  omega

/-- Only the first cells matter for what is left of them. -/
theorem take_upTo (b : Buffer α cap) {m n : Nat} (h : m ≤ n) : (b.upTo n).take m = b.upTo m := by
  rw [upTo, upTo, List.take_take, Nat.min_eq_left h]

/-- A store behind the first cells adds to them. -/
theorem upTo_append (b : Buffer α cap) {off : Nat} {xs : List α} (h : off + xs.length ≤ cap) :
    (b.overwrite off xs h).upTo (off + xs.length) = b.upTo off ++ xs := by
  have hlen := length_upTo b h
  rw [upTo_overwrite b h (Nat.le_refl _), take_upTo b (Nat.le_add_right _ _)]
  rw [List.drop_of_length_le (Nat.le_of_eq hlen), List.append_nil]

theorem upTo_extend (b : Buffer α cap) (a : α) {size n : Nat} (h : cap ≤ size) (hn : n ≤ cap) :
    (b.extend a h).upTo n = b.upTo n := by
  rw [upTo, upTo, extend, List.take_append_of_le_length]
  rw [b.length_cells]
  exact hn

theorem slice_eq (b : Buffer α cap) {off n : Nat} : b.slice off n = (b.upTo (off + n)).drop off := by
  rw [slice, upTo, List.drop_take, Nat.add_sub_cancel_left]

/-! ## Cells -/

theorem mem_upTo {b : Buffer α cap} {n : Nat} {a : α} :
    a ∈ b.upTo n ↔ ∃ p, p < n ∧ b.cells[p]? = some a := by
  rw [upTo, List.mem_iff_getElem?]
  constructor
  · rintro ⟨p, hp⟩
    rw [List.getElem?_take] at hp
    split at hp
    · rename_i hlt
      exact ⟨p, hlt, hp⟩
    · cases hp
  · rintro ⟨p, hlt, hp⟩
    exact ⟨p, by rw [List.getElem?_take, if_pos hlt, hp]⟩

theorem mem_slice {b : Buffer α cap} {off n : Nat} {a : α} (h : a ∈ b.slice off n) :
    ∃ p, off ≤ p ∧ p < off + n ∧ b.cells[p]? = some a := by
  obtain ⟨p, hp⟩ := List.mem_iff_getElem?.mp h
  rw [slice, List.getElem?_take] at hp
  split at hp
  · rename_i hlt
    rw [List.getElem?_drop] at hp
    exact ⟨off + p, Nat.le_add_right _ _, by omega, hp⟩
  · cases hp

/-- A cell behind a store is one of the stored cells, or an old cell outside the store. -/
theorem getElem?_overwrite {b : Buffer α cap} {off p : Nat} {xs : List α} {a : α}
    (h : off + xs.length ≤ cap) (ha : (b.overwrite off xs h).cells[p]? = some a) :
    (off ≤ p ∧ p < off + xs.length ∧ a ∈ xs) ∨
      ((p < off ∨ off + xs.length ≤ p) ∧ b.cells[p]? = some a) := by
  have hlen := b.length_cells
  have htake : (b.cells.take off).length = off := by
    rw [List.length_take]
    omega
  simp only [overwrite] at ha
  rw [List.append_assoc] at ha
  rcases Nat.lt_or_ge p off with hp | hp
  · rw [List.getElem?_append_left (by omega), List.getElem?_take, if_pos hp] at ha
    exact Or.inr ⟨Or.inl hp, ha⟩
  · rw [List.getElem?_append_right (by omega), htake] at ha
    rcases Nat.lt_or_ge p (off + xs.length) with hq | hq
    · rw [List.getElem?_append_left (by omega)] at ha
      exact Or.inl ⟨hp, hq, List.mem_iff_getElem?.mpr ⟨_, ha⟩⟩
    · rw [List.getElem?_append_right (by omega), List.getElem?_drop] at ha
      have hidx : off + xs.length + (p - off - xs.length) = p := by omega
      rw [hidx] at ha
      exact Or.inr ⟨Or.inr hq, ha⟩

end Buffer

end Basht
