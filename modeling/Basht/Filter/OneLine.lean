import Basht.Filter.Calls
import Basht.Filter.Safety
import Basht.Library.OneLine
import Basht.Library.Transducer

/-!
# The filter as a terminal of one line

Text and the control sequences `K`, `C`, `D`, `G`, `P`, `@` and `X` do to a line buffer what
they do to a terminal whose line may have any length, as long as the line stays so short that
it is never broken and no parameter overflows `csi_n`.
-/

namespace Basht.Filter

open LineBuf

/-! ## The reference -/

/-- A byte of text, or a control sequence with a numeric parameter. -/
inductive Item where
  | byte (c : UInt8)
  | csi (digits : List UInt8) (final : UInt8)

/-- The number that digits stand for. -/
def digitsValue (digits : List UInt8) : Nat := digits.foldl (fun n d => n * 10 + (d.toNat - 48)) 0

/-- The count of a control sequence; 0 and no digits at all mean 1. -/
def digitsCount (digits : List UInt8) : Nat :=
  if digitsValue digits = 0 then 1 else digitsValue digits

/-- A byte that prints, TAB, CR, BS or LF; digits, and a final byte that edits the line. -/
def Item.Ok : Item → Prop
  | .byte c => Prints c ∨ c = '\r'.toUInt8 ∨ c = 0x08 ∨ c = '\n'.toUInt8
  | .csi digits final => (∀ d ∈ digits, '0'.toUInt8 ≤ d ∧ d ≤ '9'.toUInt8) ∧ editsLine final = true

/-- The parameter of a control sequence fits `csi_n`. -/
def Item.InRange : Item → Prop
  | .byte _ => True
  | .csi digits _ => digitsValue digits < 2147483648

/-- The bytes of an item. -/
def Item.bytes : Item → List UInt8
  | .byte c => [c]
  | .csi digits final => 0x1b :: '['.toUInt8 :: (digits ++ [final])

/-- What a terminal of one line does with a byte. -/
def rowByte (t : OneLine UInt8) (c : UInt8) : OneLine UInt8 × List Line :=
  if c = '\n'.toUInt8 then (OneLine.empty, [t.cells])
  else if c = '\r'.toUInt8 then (t.moveTo 0, [])
  else if c = 0x08 then (t.moveTo (t.cur - 1), [])
  else (t.put c, [])

/-- What it does with a control sequence. -/
def rowCsi (t : OneLine UInt8) (n : Nat) (final : UInt8) : OneLine UInt8 :=
  if final = 'K'.toUInt8 then t.erase
  else if final = 'C'.toUInt8 then t.moveTo (t.cur + n)
  else if final = 'D'.toUInt8 then t.moveTo (t.cur - n)
  else if final = 'G'.toUInt8 then t.moveTo (n - 1)
  else if final = 'P'.toUInt8 then t.delete n
  else if final = '@'.toUInt8 then t.insert 32 n
  else t.blank 32 n

/-- The terminal of one line; it emits its completed lines. -/
def row : Transducer (OneLine UInt8) Item Line where
  step t
    | .byte c => rowByte t c
    | .csi digits final => (rowCsi t (digitsCount digits) final, [])

/-! ## The line buffer -/

/-- The line buffer shows the line of the terminal. -/
structure Shows (lb : LineBuf) (t : OneLine UInt8) : Prop where
  text : lb.text = t.cells
  len : lb.len = t.cells.length
  cur : lb.cur = t.cur
  fits : lb.len < CAP
  moved : lb.moved = false

namespace Shows

variable {lb : LineBuf} {t : OneLine UInt8}

theorem fresh (h : Shows lb t) : lb.fresh = lb := by
  rw [LineBuf.fresh, h.moved]
  rfl

theorem cur_le (h : Shows lb t) : lb.cur ≤ lb.len := by
  rw [h.cur, h.len]
  exact t.cur_le

theorem emit (h : Shows lb t) : Shows lb.emit.1 OneLine.empty ∧ lb.emit.2 = [t.cells] :=
  ⟨⟨rfl, rfl, rfl, show 0 < CAP by decide, h.moved⟩, by rw [LineBuf.emit, h.text]⟩

/-- A character stored at the cursor. -/
theorem store (h : Shows lb t) {c : UInt8} (hroom : lb.cur + 1 < CAP) :
    ∃ lb', lb.store c = .ok lb' ∧ Shows lb' (t.put c) ∧ lb'.fs = lb.fs := by
  have hcur := h.cur_le
  have hfits := h.fits
  have hone : [c].length = 1 := rfl
  have hfit : lb.cur + [c].length ≤ CAP := by omega
  have hstore : lb.store c = .ok { lb with
      data := lb.data.overwrite lb.cur [c] hfit
      cur := lb.cur + 1
      len := max lb.len (lb.cur + 1) } := by
    simp only [LineBuf.store, Buffer.write_of_le _ hfit]
  refine ⟨_, hstore, ⟨?_, ?_, ?_, ?_, h.moved⟩, rfl⟩
  · have hlen := lb.data.length_upTo (Nat.le_of_lt hfits)
    have htext : lb.data.upTo lb.len = t.cells := h.text
    have htake : (lb.data.upTo (max lb.len (lb.cur + 1))).take lb.cur = t.cells.take t.cur := by
      rw [← h.cur, Buffer.take_upTo _ (by omega), ← htext, Buffer.take_upTo _ hcur]
    have hdrop : (lb.data.upTo (max lb.len (lb.cur + 1))).drop (lb.cur + 1) =
        t.cells.drop (t.cur + 1) := by
      rw [← h.cur, ← htext]
      rcases Nat.lt_or_ge lb.cur lb.len with hlt | hge
      · rw [Nat.max_eq_left hlt]
      · rw [List.drop_eq_nil_of_le, List.drop_eq_nil_of_le (by omega)]
        rw [Buffer.length_upTo _ (by omega)]
        omega
    change (lb.data.overwrite lb.cur [c] hfit).upTo (max lb.len (lb.cur + 1)) = _
    rw [Buffer.upTo_overwrite _ hfit (by omega), htake, hone, hdrop, List.append_assoc]
    rfl
  · rw [OneLine.length_put, ← h.len, ← h.cur]
  · exact congrArg (· + 1) h.cur
  · exact Nat.max_lt.mpr ⟨hfits, by omega⟩

/-- A character put on a line that stays short enough. -/
theorem putch (h : Shows lb t) {c : UInt8} (hroom : lb.cur + 1 ≤ CAP - sizeofWrapMark) :
    ∃ lb', lb.putch c = .ok (lb', []) ∧ Shows lb' (t.put c) ∧ lb'.fs = lb.fs := by
  have hwrap : lb.fresh.wrap = .ok (lb, []) := by
    rw [h.fresh, wrap, if_neg (Nat.not_le.mpr hroom)]
  have hcap : CAP - sizeofWrapMark < CAP := by decide
  obtain ⟨lb', hstore, hshows, hfs⟩ := h.store (c := c) (Nat.lt_of_le_of_lt hroom hcap)
  refine ⟨lb', ?_, hshows, hfs⟩
  simp only [LineBuf.putch, hwrap, hstore]

/-- Only the cursor has moved. -/
theorem moveTo (h : Shows lb t) {col : Nat} {lb' : LineBuf} (hdata : lb'.data = lb.data)
    (hlen : lb'.len = lb.len) (hcur : lb'.cur = min col t.cells.length) (hmoved : lb'.moved = false) :
    Shows lb' (t.moveTo col) := by
  refine ⟨?_, hlen.trans h.len, hcur, by rw [hlen]; exact h.fits, hmoved⟩
  rw [LineBuf.text, hdata, hlen]
  exact h.text

theorem erase (h : Shows lb t) : Shows { lb with len := lb.cur } t.erase := by
  refine ⟨?_, ?_, h.cur, Nat.lt_of_le_of_lt h.cur_le h.fits, h.moved⟩
  · rw [LineBuf.text, OneLine.erase_cells, ← h.cur, ← h.text, LineBuf.text,
      Buffer.take_upTo _ h.cur_le]
  · have hcur := t.cur_le
    rw [OneLine.erase_cells, List.length_take, Nat.min_eq_left hcur]
    exact h.cur

theorem delete (h : Shows lb t) : ∃ lb', lb.edit 'P'.toUInt8 = .ok lb' ∧
    Shows lb' (t.delete lb.nn) ∧ lb'.fs = lb.fs := by
  have hcur := h.cur_le
  have hfits := h.fits
  have hlen := lb.data.length_cells
  have hslice : (lb.data.slice (lb.cur + min lb.nn (lb.len - lb.cur))
      (lb.len - lb.cur - min lb.nn (lb.len - lb.cur))).length =
        lb.len - lb.cur - min lb.nn (lb.len - lb.cur) := Buffer.length_slice _ (by omega)
  have hfit : lb.cur + (lb.data.slice (lb.cur + min lb.nn (lb.len - lb.cur))
      (lb.len - lb.cur - min lb.nn (lb.len - lb.cur))).length ≤ CAP := by omega
  have hedit : lb.edit 'P'.toUInt8 = .ok { lb with
      data := lb.data.overwrite lb.cur _ hfit
      len := lb.len - min lb.nn (lb.len - lb.cur) } := by
    simp only [edit, if_neg (show ¬ 'P'.toUInt8 = 'K'.toUInt8 by decide),
      if_neg (show ¬ 'P'.toUInt8 = 'C'.toUInt8 by decide),
      if_neg (show ¬ 'P'.toUInt8 = 'D'.toUInt8 by decide),
      if_neg (show ¬ 'P'.toUInt8 = 'G'.toUInt8 by decide), if_true]
    rw [Buffer.write_of_le _ hfit]
  refine ⟨_, hedit, ⟨?_, ?_, h.cur, ?_, h.moved⟩, rfl⟩
  · change (lb.data.overwrite lb.cur _ hfit).upTo (lb.len - min lb.nn (lb.len - lb.cur)) = _
    rw [Buffer.upTo_overwrite _ hfit (by omega), hslice, Buffer.take_upTo _ (by omega),
      List.drop_eq_nil_of_le, List.append_nil, Buffer.slice_eq, OneLine.delete_cells, ← h.cur,
      ← h.text, LineBuf.text, Buffer.take_upTo _ hcur]
    · congr 1
      rcases Nat.le_total lb.nn (lb.len - lb.cur) with hle | hle
      · rw [Nat.min_eq_left hle]
        congr 2
        omega
      · rw [Nat.min_eq_right hle, List.drop_eq_nil_of_le, List.drop_eq_nil_of_le]
        · rw [Buffer.length_upTo _ (by omega)]
          omega
        · rw [Buffer.length_upTo _ (by omega)]
          omega
    · rw [Buffer.length_upTo _ (by omega)]
      omega
  · rw [OneLine.length_delete, ← h.len, ← h.cur]
  · exact Nat.lt_of_le_of_lt (Nat.sub_le _ _) hfits

theorem insert (h : Shows lb t) (hroom : lb.len + lb.nn < CAP) :
    ∃ lb', lb.edit '@'.toUInt8 = .ok lb' ∧ Shows lb' (t.insert 32 lb.nn) ∧ lb'.fs = lb.fs := by
  have hcur := h.cur_le
  have hlen := lb.data.length_cells
  have hn : min lb.nn (CAP - 1 - lb.len) = lb.nn := by omega
  have hslice : (lb.data.slice lb.cur (lb.len - lb.cur)).length = lb.len - lb.cur :=
    Buffer.length_slice _ (by omega)
  have hmove : lb.cur + lb.nn + (lb.data.slice lb.cur (lb.len - lb.cur)).length ≤ CAP := by omega
  have hblanks : (List.replicate lb.nn (32 : UInt8)).length = lb.nn := List.length_replicate
  have hfill : lb.cur + (List.replicate lb.nn (32 : UInt8)).length ≤ CAP := by omega
  have hedit : lb.edit '@'.toUInt8 = .ok { lb with
      data := (lb.data.overwrite (lb.cur + lb.nn) _ hmove).overwrite lb.cur _ hfill
      len := lb.len + lb.nn } := by
    simp only [edit, if_neg (show ¬ '@'.toUInt8 = 'K'.toUInt8 by decide),
      if_neg (show ¬ '@'.toUInt8 = 'C'.toUInt8 by decide),
      if_neg (show ¬ '@'.toUInt8 = 'D'.toUInt8 by decide),
      if_neg (show ¬ '@'.toUInt8 = 'G'.toUInt8 by decide),
      if_neg (show ¬ '@'.toUInt8 = 'P'.toUInt8 by decide), if_true, hn,
      Buffer.write_of_le _ hmove, Buffer.write_of_le _ hfill]
  refine ⟨_, hedit, ⟨?_, ?_, h.cur, hroom, h.moved⟩, rfl⟩
  · change ((lb.data.overwrite (lb.cur + lb.nn) _ hmove).overwrite lb.cur _ hfill).upTo
      (lb.len + lb.nn) = _
    have htext : lb.data.upTo lb.len = t.cells := h.text
    have hmoved := lb.data.upTo_overwrite hmove (n := lb.len + lb.nn) (by omega)
    -- behind the moved tail there is nothing, and before it the old cells
    have htail : lb.data.slice lb.cur (lb.len - lb.cur) = t.cells.drop t.cur := by
      rw [Buffer.slice_eq, Nat.add_sub_cancel' hcur, htext, h.cur]
    have hend : (lb.data.upTo (lb.len + lb.nn)).drop
        (lb.cur + lb.nn + (lb.data.slice lb.cur (lb.len - lb.cur)).length) = [] := by
      rw [List.drop_eq_nil_of_le]
      rw [Buffer.length_upTo _ (Nat.le_of_lt hroom)]
      omega
    have hhead : ((lb.data.upTo (lb.len + lb.nn)).take (lb.cur + lb.nn)).length =
        lb.cur + lb.nn := by
      rw [List.length_take, Buffer.length_upTo _ (Nat.le_of_lt hroom)]
      omega
    rw [hend, List.append_nil] at hmoved
    rw [Buffer.upTo_overwrite _ hfill (by omega), hmoved, hblanks, htail, List.drop_left' hhead,
      List.take_append_of_le_length (by omega), List.take_take, Nat.min_eq_left (by omega),
      Buffer.take_upTo _ (by omega), ← Buffer.take_upTo _ hcur, htext, h.cur]
    rfl
  · rw [OneLine.length_insert, ← h.len]

theorem blank (h : Shows lb t) : ∃ lb', lb.edit 'X'.toUInt8 = .ok lb' ∧
    Shows lb' (t.blank 32 lb.nn) ∧ lb'.fs = lb.fs := by
  have hcur := h.cur_le
  have hfits := h.fits
  have hblanks : (List.replicate (min lb.nn (lb.len - lb.cur)) (32 : UInt8)).length =
      min lb.nn (lb.len - lb.cur) := List.length_replicate
  have hfill : lb.cur + (List.replicate (min lb.nn (lb.len - lb.cur)) (32 : UInt8)).length ≤
      CAP := by omega
  have hedit : lb.edit 'X'.toUInt8 =
      .ok { lb with data := lb.data.overwrite lb.cur _ hfill } := by
    simp only [edit, if_neg (show ¬ 'X'.toUInt8 = 'K'.toUInt8 by decide),
      if_neg (show ¬ 'X'.toUInt8 = 'C'.toUInt8 by decide),
      if_neg (show ¬ 'X'.toUInt8 = 'D'.toUInt8 by decide),
      if_neg (show ¬ 'X'.toUInt8 = 'G'.toUInt8 by decide),
      if_neg (show ¬ 'X'.toUInt8 = 'P'.toUInt8 by decide),
      if_neg (show ¬ 'X'.toUInt8 = '@'.toUInt8 by decide), if_true, Buffer.write_of_le _ hfill]
  refine ⟨_, hedit, ⟨?_, ?_, h.cur, hfits, h.moved⟩, rfl⟩
  · change (lb.data.overwrite lb.cur _ hfill).upTo lb.len = _
    have htext : lb.data.upTo lb.len = t.cells := h.text
    rw [Buffer.upTo_overwrite _ hfill (by omega), hblanks, htext, OneLine.blank_cells, ← h.cur,
      ← h.len]
    congr 1
    rcases Nat.le_total lb.nn (lb.len - lb.cur) with hle | hle
    · rw [Nat.min_eq_left hle]
    · rw [Nat.min_eq_right hle, List.drop_eq_nil_of_le, List.drop_eq_nil_of_le]
      · rw [← h.len]
        omega
      · rw [← h.len]
        omega
  · rw [OneLine.length_blank, ← h.len]

end Shows

/-! ## Bytes and control sequences -/

theorem editsLine_cases {c : UInt8} (h : editsLine c = true) :
    c = 'K'.toUInt8 ∨ c = 'C'.toUInt8 ∨ c = 'D'.toUInt8 ∨ c = 'G'.toUInt8 ∨ c = 'P'.toUInt8 ∨
      c = '@'.toUInt8 ∨ c = 'X'.toUInt8 := by
  have hmem := of_decide_eq_true h
  rw [show "KCDGP@X".toList.map Char.toUInt8 = ['K'.toUInt8, 'C'.toUInt8, 'D'.toUInt8,
    'G'.toUInt8, 'P'.toUInt8, '@'.toUInt8, 'X'.toUInt8] from rfl] at hmem
  simpa only [List.mem_cons, List.not_mem_nil, or_false] using hmem

/-- A final byte that edits the line is no parameter byte, and leaves the line to `edit`. -/
theorem final_of_editsLine {c : UInt8} (h : editsLine c = true) :
    ¬(c ≥ '0'.toUInt8 ∧ c ≤ '9'.toUInt8) ∧ c ≠ ';'.toUInt8 ∧ c ≠ '?'.toUInt8 ∧
      (c ≥ 0x40 ∧ c ≤ 0x7e) ∧ leavesLine c = false ∧ c ≠ 'h'.toUInt8 := by
  rcases editsLine_cases h with rfl | rfl | rfl | rfl | rfl | rfl | rfl <;> decide

/-- A run of the filter that asks for no full screen. -/
def Runs (lb : LineBuf) (bs : List UInt8) (lb' : LineBuf) (lines : List Line) : Prop :=
  Fallible.exec filterByte lb bs = .ok (lb', lines) ∧
    Fallible.Meets filterByte (fun lb c => lb.fullScreen c = false) lb bs

theorem Runs.nil (lb : LineBuf) : Runs lb [] lb [] := ⟨rfl, trivial⟩

theorem Runs.append {lb lb₁ lb₂ : LineBuf} {bs bs' : List UInt8} {ls ls' : List Line}
    (h : Runs lb bs lb₁ ls) (h' : Runs lb₁ bs' lb₂ ls') : Runs lb (bs ++ bs') lb₂ (ls ++ ls') := by
  refine ⟨?_, h.2.append h.1 h'.2⟩
  rw [Fallible.exec_append]
  exact Fallible.andThen_eq_ok.mpr ⟨lb₁, ls, lb₂, ls', h.1, h'.1, rfl⟩

/-- One byte. -/
theorem Runs.byte {lb lb' : LineBuf} {c : UInt8} {lines : List Line}
    (h : lb.filterByte c = .ok (lb', lines)) (hquiet : lb.fs = .csi → c ≠ 'h'.toUInt8) :
    Runs lb [c] lb' lines := by
  refine ⟨?_, ?_, fun _ _ _ => trivial⟩
  · rw [Fallible.exec_cons, h]
    exact Fallible.andThen_eq_ok.mpr ⟨lb', lines, lb', [], rfl, rfl, by rw [List.append_nil]⟩
  · change lb.fullScreen c = false
    unfold fullScreen
    by_cases hfs : lb.fs = .csi
    · have hne : (c == 'h'.toUInt8) = false := beq_eq_false_iff_ne.mpr (hquiet hfs)
      rw [hne, Bool.and_false, Bool.false_and, Bool.false_and]
    · have hne : (lb.fs == FiltState.csi) = false := beq_eq_false_iff_ne.mpr hfs
      rw [hne, Bool.false_and, Bool.false_and, Bool.false_and]

namespace Shows

variable {lb : LineBuf} {t : OneLine UInt8}

theorem of_fields (h : Shows lb t) {lb' : LineBuf} (hdata : lb'.data = lb.data)
    (hlen : lb'.len = lb.len) (hcur : lb'.cur = lb.cur) (hmoved : lb'.moved = false) :
    Shows lb' t := by
  refine ⟨?_, hlen.trans h.len, hcur.trans h.cur, by rw [hlen]; exact h.fits, hmoved⟩
  rw [LineBuf.text, hdata, hlen]
  exact h.text

/-- A byte of text does what it does to the terminal. -/
theorem rowByte (h : Shows lb t) (hfs : lb.fs = .normal) {c : UInt8} (hc : (Item.byte c).Ok)
    (hroom : (row.step t (.byte c)).1.cells.length ≤ CAP - sizeofWrapMark) :
    ∃ lb', Runs lb [c] lb' (row.step t (.byte c)).2 ∧ Shows lb' (row.step t (.byte c)).1 ∧
      lb'.fs = .normal := by
  have hquiet : lb.fs = .csi → c ≠ 'h'.toUInt8 := by
    intro hcsi
    rw [hfs] at hcsi
    cases hcsi
  change (Filter.rowByte t c).1.cells.length ≤ _ at hroom
  change ∃ lb', Runs lb [c] lb' (Filter.rowByte t c).2 ∧ Shows lb' (Filter.rowByte t c).1 ∧
    lb'.fs = .normal
  by_cases hlf : c = '\n'.toUInt8
  · subst hlf
    have hbyte : lb.filterByte '\n'.toUInt8 = .ok lb.emit := by
      simp only [filterByte, hfs, h.moved, Bool.false_eq_true, if_false, if_true,
        if_neg (show ¬ '\n'.toUInt8 = 0x1b by decide)]
    obtain ⟨hshows, hlines⟩ := h.emit
    have hrow : Filter.rowByte t '\n'.toUInt8 = (OneLine.empty, [t.cells]) := if_pos rfl
    rw [hrow]
    refine ⟨lb.emit.1, Runs.byte ?_ hquiet, hshows, hfs⟩
    rw [hbyte, ← hlines]
  · by_cases hcr : c = '\r'.toUInt8
    · subst hcr
      have hbyte : lb.filterByte '\r'.toUInt8 = .ok ({ lb with cur := 0 }, []) := by
        simp only [filterByte, hfs, h.fresh, if_true,
          if_neg (show ¬ '\r'.toUInt8 = 0x1b by decide), if_neg hlf]
      have hrow : Filter.rowByte t '\r'.toUInt8 = (t.moveTo 0, []) := by
        rw [Filter.rowByte, if_neg hlf, if_pos rfl]
      rw [hrow]
      exact ⟨_, Runs.byte hbyte hquiet, h.moveTo rfl rfl (Nat.zero_min _).symm h.moved, hfs⟩
    · by_cases hbs : c = 0x08
      · subst hbs
        have hbyte : lb.filterByte 0x08 = .ok ({ lb with cur := lb.cur - 1 }, []) := by
          simp only [filterByte, hfs, h.fresh, if_true,
            if_neg (show ¬(0x08 : UInt8) = 0x1b by decide), if_neg hlf, if_neg hcr]
        have hrow : Filter.rowByte t 0x08 = (t.moveTo (t.cur - 1), []) := by
          rw [Filter.rowByte, if_neg hlf, if_neg hcr, if_pos rfl]
        rw [hrow]
        refine ⟨_, Runs.byte hbyte hquiet, h.moveTo rfl rfl ?_ h.moved, hfs⟩
        have hcur := t.cur_le
        change lb.cur - 1 = _
        rw [h.cur]
        omega
      · have hprints : Prints c := by
          rcases hc with hc | hc | hc | hc
          · exact hc
          · exact absurd hc hcr
          · exact absurd hc hbs
          · exact absurd hc hlf
        have hrow : Filter.rowByte t c = (t.put c, []) := by
          rw [Filter.rowByte, if_neg hlf, if_neg hcr, if_neg hbs]
        rw [hrow] at hroom ⊢
        have hcur : lb.cur + 1 ≤ CAP - sizeofWrapMark := by
          rw [OneLine.length_put, ← h.cur] at hroom
          exact Nat.le_trans (Nat.le_max_right _ _) hroom
        obtain ⟨lb', hputch, hshows, hfs'⟩ := h.putch (c := c) hcur
        refine ⟨lb', Runs.byte ?_ hquiet, hshows, hfs'.trans hfs⟩
        rw [filterByte_prints hfs hprints, hputch]

/-- A final byte that edits the line does what it does to the terminal. -/
theorem rowCsi (h : Shows lb t) {c : UInt8} (hc : editsLine c = true)
    (hroom : (Filter.rowCsi t lb.nn c).cells.length ≤ CAP - sizeofWrapMark) :
    ∃ lb', lb.edit c = .ok lb' ∧ Shows lb' (Filter.rowCsi t lb.nn c) := by
  have hcur := t.cur_le
  rcases editsLine_cases hc with rfl | rfl | rfl | rfl | rfl | rfl | rfl
  · exact ⟨_, rfl, h.erase⟩
  · refine ⟨_, rfl, h.moveTo rfl rfl ?_ h.moved⟩
    change (if lb.cur + lb.nn > lb.len then lb.len else lb.cur + lb.nn) = _
    rw [h.cur, h.len]
    split <;> omega
  · refine ⟨_, rfl, h.moveTo rfl rfl ?_ h.moved⟩
    change (if lb.nn > lb.cur then 0 else lb.cur - lb.nn) = _
    rw [h.cur]
    split <;> omega
  · refine ⟨_, rfl, h.moveTo rfl rfl ?_ h.moved⟩
    change (if lb.nn - 1 > lb.len then lb.len else lb.nn - 1) = _
    rw [h.len]
    split <;> omega
  · obtain ⟨lb', hedit, hshows, -⟩ := h.delete
    exact ⟨lb', hedit, hshows⟩
  · have hlen : lb.len + lb.nn < CAP := by
      change (t.insert 32 lb.nn).cells.length ≤ _ at hroom
      rw [OneLine.length_insert, ← h.len] at hroom
      exact Nat.lt_of_le_of_lt hroom (by decide)
    obtain ⟨lb', hedit, hshows, -⟩ := h.insert hlen
    exact ⟨lb', hedit, hshows⟩
  · obtain ⟨lb', hedit, hshows, -⟩ := h.blank
    exact ⟨lb', hedit, hshows⟩

end Shows

/-! ## The parameter -/

/-- Digits read after the number `n`. -/
def readDigits (n : Nat) (digits : List UInt8) : Nat :=
  digits.foldl (fun n d => n * 10 + (d.toNat - 48)) n

theorem le_readDigits (n : Nat) (digits : List UInt8) : n ≤ readDigits n digits := by
  induction digits generalizing n with
  | nil => exact Nat.le_refl n
  | cons d digits ih =>
    have hstep := ih (n * 10 + (d.toNat - 48))
    change n ≤ readDigits (n * 10 + (d.toNat - 48)) digits
    omega

/-- A digit appended to a number that stays in the range of `int`. -/
theorem toInt_push {n : Int32} {k d : Nat} (hn : n.toInt = k) (hlt : k * 10 + d < 2147483648) :
    (n * 10 + Int32.ofNat d).toInt = k * 10 + d := by
  have hten : (10 : Int32).toInt = 10 := rfl
  have hd : (Int32.ofNat d).toInt = d := Int32.toInt_ofNat_of_lt (by omega)
  have hmul : ((k : Int) * 10).bmod (4294967296) = k * 10 := by
    apply Int.bmod_eq_of_le
    · omega
    · omega
  rw [Int32.toInt_add, Int32.toInt_mul, hn, hten, hd, hmul]
  apply Int.bmod_eq_of_le
  · omega
  · omega

/-- The filter inside a control sequence whose parameter is `k` so far. -/
structure InCsi (lb : LineBuf) (k : Nat) : Prop where
  fs : lb.fs = .csi
  csiN : lb.csiN.toInt = k
  csiMore : lb.csiMore = false

theorem InCsi.nn {lb : LineBuf} {k : Nat} (h : InCsi lb k) : lb.nn = if k = 0 then 1 else k := by
  have hpos : lb.csiN > 0 ↔ 0 < k := by
    change 0 < lb.csiN ↔ _
    rw [Int32.lt_iff_toInt_lt, h.csiN]
    change (0 : Int) < k ↔ _
    omega
  rcases Nat.eq_zero_or_pos k with hk | hk
  · have hzero : ¬lb.csiN > 0 := fun hgt => Nat.ne_of_gt (hpos.mp hgt) hk
    rw [LineBuf.nn, if_neg hzero, if_pos hk]
  · rw [LineBuf.nn, if_pos (hpos.mpr hk), if_neg (Nat.ne_of_gt hk), h.csiN]
    rfl

/-- Digits leave the line alone. -/
theorem Shows.digits {lb : LineBuf} {t : OneLine UInt8} {k : Nat} {digits : List UInt8}
    (h : Shows lb t) (hcsi : InCsi lb k)
    (hdigits : ∀ d ∈ digits, '0'.toUInt8 ≤ d ∧ d ≤ '9'.toUInt8)
    (hlt : readDigits k digits < 2147483648) :
    ∃ lb', Runs lb digits lb' [] ∧ Shows lb' t ∧ InCsi lb' (readDigits k digits) := by
  induction digits generalizing lb k with
  | nil => exact ⟨lb, Runs.nil lb, h, hcsi⟩
  | cons d digits ih =>
    obtain ⟨hge, hle⟩ := hdigits d List.mem_cons_self
    have hrange : k * 10 + (d.toNat - 48) < 2147483648 := Nat.lt_of_le_of_lt (le_readDigits _ _) hlt
    have hbyte : lb.filterByte d =
        .ok ({ lb with csiN := lb.csiN * 10 + Int32.ofNat (d.toNat - 48) }, []) := by
      simp only [filterByte, hcsi.fs]
      rw [if_pos ⟨hge, hle, hcsi.csiMore⟩]
    have hne : d ≠ 'h'.toUInt8 := by
      intro hd
      rw [hd] at hle
      exact absurd hle (by decide)
    have hshows₁ : Shows { lb with csiN := lb.csiN * 10 + Int32.ofNat (d.toNat - 48) } t :=
      h.of_fields rfl rfl rfl h.moved
    have hcsi₁ : InCsi { lb with csiN := lb.csiN * 10 + Int32.ofNat (d.toNat - 48) }
        (k * 10 + (d.toNat - 48)) := ⟨hcsi.fs, toInt_push hcsi.csiN hrange, hcsi.csiMore⟩
    obtain ⟨lb', hrun, hshows, hcsi'⟩ :=
      ih hshows₁ hcsi₁ (fun x hx => hdigits x (List.mem_cons_of_mem _ hx)) hlt
    exact ⟨lb', (Runs.byte hbyte fun _ => hne).append hrun, hshows, hcsi'⟩

/-- So do the first two bytes of a control sequence. -/
theorem Shows.introducer {lb : LineBuf} {t : OneLine UInt8} (h : Shows lb t)
    (hfs : lb.fs = .normal) :
    (∃ lb', Runs lb [0x1b] lb' [] ∧ Shows lb' t) ∧
      ∃ lb', Runs lb [0x1b, '['.toUInt8] lb' [] ∧ Shows lb' t ∧ InCsi lb' 0 := by
  have hesc : lb.filterByte 0x1b = .ok ({ lb with fs := .esc }, []) := by
    simp only [filterByte, hfs, if_true]
  have hfirst : Runs lb [0x1b] { lb with fs := .esc } [] := by
    apply Runs.byte hesc
    intro _
    decide
  have hsecond : Runs { lb with fs := .esc } ['['.toUInt8]
      { lb with fs := .csi, csiN := 0, csiMore := false, csiPriv := false } [] := by
    apply Runs.byte
    · rfl
    · intro _
      decide
  refine ⟨⟨_, hfirst, h.of_fields rfl rfl rfl h.moved⟩, ⟨_, hfirst.append hsecond, ?_, ?_⟩⟩
  · exact h.of_fields rfl rfl rfl h.moved
  · exact ⟨rfl, rfl, rfl⟩

/-- A whole control sequence does what it does to the terminal. -/
theorem Shows.csi {lb : LineBuf} {t : OneLine UInt8} (h : Shows lb t) (hfs : lb.fs = .normal)
    {digits : List UInt8} {final : UInt8} (hok : (Item.csi digits final).Ok)
    (hrange : (Item.csi digits final).InRange)
    (hroom : (Filter.rowCsi t (digitsCount digits) final).cells.length ≤ CAP - sizeofWrapMark) :
    ∃ lb', Runs lb (Item.csi digits final).bytes lb' [] ∧
      Shows lb' (Filter.rowCsi t (digitsCount digits) final) ∧ lb'.fs = .normal := by
  obtain ⟨hdigits, hfinal⟩ := hok
  obtain ⟨-, lb₁, hstart, hshows₁, hcsi₁⟩ := h.introducer hfs
  obtain ⟨lb₂, hread, hshows₂, hcsi₂⟩ := hshows₁.digits hcsi₁ hdigits hrange
  have hcount : lb₂.nn = digitsCount digits := hcsi₂.nn
  rw [← hcount] at hroom ⊢
  obtain ⟨lb₃, hedit, hshows₃⟩ := hshows₂.rowCsi hfinal hroom
  obtain ⟨hdigit, hsemi, hquery, hbounds, hleaves, hne⟩ := final_of_editsLine hfinal
  have hstep : lb₂.csiFinal final = .ok { lb₃ with fs := .normal } := by
    simp only [csiFinal, hleaves, hfinal, Bool.false_eq_true, if_false, if_true, hshows₂.fresh,
      hedit]
  have hbyte : lb₂.filterByte final = .ok ({ lb₃ with fs := .normal }, []) := by
    simp only [filterByte, hcsi₂.fs]
    rw [if_neg (fun hc => hdigit ⟨hc.1, hc.2.1⟩), if_neg hsemi, if_neg hquery, if_pos hbounds,
      hstep]
  have hrun := (hstart.append hread).append (Runs.byte hbyte fun _ => hne)
  exact ⟨{ lb₃ with fs := .normal }, hrun, hshows₃.of_fields rfl rfl rfl hshows₃.moved, rfl⟩

/-! ## Runs -/

/-- An item does what it does to the terminal. -/
theorem Shows.item {lb : LineBuf} {t : OneLine UInt8} (h : Shows lb t) (hfs : lb.fs = .normal)
    {it : Item} (hok : it.Ok) (hrange : it.InRange)
    (hroom : (row.step t it).1.cells.length ≤ CAP - sizeofWrapMark) :
    ∃ lb', Runs lb it.bytes lb' (row.step t it).2 ∧ Shows lb' (row.step t it).1 ∧
      lb'.fs = .normal := by
  cases it with
  | byte c => exact h.rowByte hfs hok hroom
  | csi digits final => exact h.csi hfs hok hrange hroom

theorem Shows.items {lb : LineBuf} {t : OneLine UInt8} (h : Shows lb t) (hfs : lb.fs = .normal)
    {items : List Item} (hok : ∀ it ∈ items, it.Ok ∧ it.InRange)
    (hroom : row.Along (fun t it => (row.step t it).1.cells.length ≤ CAP - sizeofWrapMark)
      t items) :
    ∃ lb', Runs lb (items.flatMap Item.bytes) lb' (row.output t items) ∧
      Shows lb' (row.final t items) ∧ lb'.fs = .normal := by
  induction items generalizing lb t with
  | nil => exact ⟨lb, Runs.nil lb, h, hfs⟩
  | cons it items ih =>
    obtain ⟨hit, hrange⟩ := hok it List.mem_cons_self
    obtain ⟨lb₁, hrun₁, hshows₁, hfs₁⟩ := h.item hfs hit hrange hroom.1
    obtain ⟨lb₂, hrun₂, hshows₂, hfs₂⟩ :=
      ih hshows₁ hfs₁ (fun x hx => hok x (List.mem_cons_of_mem _ hx)) hroom.2
    exact ⟨lb₂, hrun₁.append hrun₂, hshows₂, hfs₂⟩

/-- The beginning of an item leaves the line alone until the item is complete. -/
theorem Shows.beginning {lb : LineBuf} {t : OneLine UInt8} (h : Shows lb t)
    (hfs : lb.fs = .normal) {it : Item} (hok : it.Ok) (hrange : it.InRange) {bs : List UInt8}
    (hbs : bs <+: it.bytes) (hlt : bs.length < it.bytes.length) :
    ∃ lb', Runs lb bs lb' [] ∧ Shows lb' t := by
  cases it with
  | byte c =>
    have hnil : bs = [] := List.eq_nil_of_length_eq_zero (Nat.lt_one_iff.mp hlt)
    rw [hnil]
    exact ⟨lb, Runs.nil lb, h⟩
  | csi digits final =>
    obtain ⟨hdigits, -⟩ := hok
    obtain ⟨hfirst, lb₁, hstart, hshows₁, hcsi₁⟩ := h.introducer hfs
    match bs, hbs, hlt with
    | [], _, _ => exact ⟨lb, Runs.nil lb, h⟩
    | [b], hbs, _ =>
      obtain ⟨rfl, -⟩ := List.cons_prefix_cons.mp hbs
      exact hfirst
    | b :: b' :: ds, hbs, hlt =>
      obtain ⟨rfl, hrest⟩ := List.cons_prefix_cons.mp hbs
      obtain ⟨rfl, hds⟩ := List.cons_prefix_cons.mp hrest
      have hlen : ds.length ≤ digits.length := by
        simp only [Item.bytes, List.length_cons, List.length_append, List.length_nil] at hlt
        omega
      obtain ⟨rest, rfl⟩ := List.prefix_of_prefix_length_le hds (List.prefix_append _ _) hlen
      have hread : readDigits 0 (ds ++ rest) = readDigits (readDigits 0 ds) rest :=
        List.foldl_append
      have hrange' : readDigits 0 (ds ++ rest) < 2147483648 := hrange
      have hds31 : readDigits 0 ds < 2147483648 := by
        rw [hread] at hrange'
        exact Nat.lt_of_le_of_lt (le_readDigits _ _) hrange'
      obtain ⟨lb₂, hrun, hshows₂, -⟩ :=
        hshows₁.digits hcsi₁ (fun d hd => hdigits d (List.mem_append_left _ hd)) hds31
      exact ⟨lb₂, hstart.append hrun, hshows₂⟩

theorem shows_zeroed : Shows zeroed OneLine.empty := ⟨rfl, rfl, rfl, by decide, rfl⟩

/-- In whatever pieces text and control sequences arrive, the lines that the filter emits, the
line that is left and its cursor are those of the terminal, if no line grows too long for it
and every parameter fits `csi_n`. -/
theorem calls_row {items : List Item} {it : Item} {bs : List UInt8}
    {chunks : List (List UInt8 × Bool)}
    (hchunks : chunks.flatMap Prod.fst = items.flatMap Item.bytes ++ bs)
    (hok : ∀ it ∈ items, it.Ok) (hit : it.Ok) (hbs : bs <+: it.bytes)
    (hlt : bs.length < it.bytes.length)
    (hroom : row.Along (fun t it => (row.step t it).1.cells.length ≤ CAP - sizeofWrapMark)
      OneLine.empty items)
    (hrange : ∀ it ∈ items, it.InRange) (hrange' : it.InRange) :
    ∃ lb, Fallible.exec Call.run zeroed (chunks.map fun chunk => .bytes chunk.1 chunk.2) =
        .ok (lb, row.output OneLine.empty items) ∧
      lb.text = (row.final OneLine.empty items).cells ∧
      lb.cur = (row.final OneLine.empty items).cur := by
  obtain ⟨lb₁, hrun₁, hshows₁, hfs₁⟩ :=
    shows_zeroed.items rfl (fun x hx => ⟨hok x hx, hrange x hx⟩) hroom
  obtain ⟨lb₂, hrun₂, hshows₂⟩ := hshows₁.beginning hfs₁ hit hrange' hbs hlt
  obtain ⟨hexec, hmeets⟩ := hrun₁.append hrun₂
  rw [List.append_nil] at hexec
  rw [← hchunks] at hexec hmeets
  exact ⟨lb₂, exec_chunks hmeets hexec, hshows₂.text, hshows₂.cur⟩

/-- `a`, a cursor movement to the right, and a line end. -/
theorem calls_row_right : ∃ lb, Fallible.exec Call.run zeroed
    [.bytes ['a'.toUInt8, 0x1b] true, .bytes ['['.toUInt8, '7'.toUInt8, 'C'.toUInt8] false] =
      .ok (lb, row.output OneLine.empty [.byte 'a'.toUInt8, .csi ['7'.toUInt8] 'C'.toUInt8]) ∧
    lb.text = (row.final OneLine.empty
      [.byte 'a'.toUInt8, .csi ['7'.toUInt8] 'C'.toUInt8]).cells ∧
    lb.cur = (row.final OneLine.empty
      [.byte 'a'.toUInt8, .csi ['7'.toUInt8] 'C'.toUInt8]).cur :=
  @calls_row [.byte 'a'.toUInt8, .csi ['7'.toUInt8] 'C'.toUInt8] (.byte 'a'.toUInt8) []
    [(['a'.toUInt8, 0x1b], true), (['['.toUInt8, '7'.toUInt8, 'C'.toUInt8], false)] rfl
    (by
      intro it hit
      rcases List.mem_cons.mp hit with rfl | hit
      · exact Or.inl (Or.inr (by decide))
      · rw [List.mem_singleton.mp hit]
        exact ⟨by decide +kernel, by decide⟩)
    (Or.inl (Or.inr (by decide))) List.nil_prefix (by decide)
    ⟨by decide +kernel, by decide +kernel, trivial⟩
    (by
      intro it hit
      rcases List.mem_cons.mp hit with rfl | hit
      · trivial
      · rw [List.mem_singleton.mp hit]
        change digitsValue ['7'.toUInt8] < 2147483648
        decide)
    trivial

/-- Behind `abc` a movement to the left by 4294967297 moves the cursor by one. -/
theorem huge_count_wraps :
    (∀ it ∈ [Item.byte 'a'.toUInt8, .byte 'b'.toUInt8, .byte 'c'.toUInt8,
      .csi ("4294967297".toList.map Char.toUInt8) 'D'.toUInt8], it.Ok) ∧
    row.Along (fun t it => (row.step t it).1.cells.length ≤ CAP - sizeofWrapMark) OneLine.empty
      [.byte 'a'.toUInt8, .byte 'b'.toUInt8, .byte 'c'.toUInt8,
        .csi ("4294967297".toList.map Char.toUInt8) 'D'.toUInt8] ∧
    (row.final OneLine.empty [.byte 'a'.toUInt8, .byte 'b'.toUInt8, .byte 'c'.toUInt8,
      .csi ("4294967297".toList.map Char.toUInt8) 'D'.toUInt8]).cur = 0 ∧
    (Fallible.exec Call.run zeroed
      [.bytes ("abc\x1b[4294967297D".toList.map Char.toUInt8) false]).map (fun r => r.1.cur) =
        .ok 2 := by
  refine ⟨?_, ?_, ?_, ?_⟩
  · intro it hit
    simp only [List.mem_cons, List.not_mem_nil, or_false] at hit
    rcases hit with rfl | rfl | rfl | rfl
    · exact Or.inl (Or.inr (by decide))
    · exact Or.inl (Or.inr (by decide))
    · exact Or.inl (Or.inr (by decide))
    · exact ⟨by decide +kernel, by decide⟩
  · exact ⟨by decide +kernel, by decide +kernel, by decide +kernel, by decide +kernel, trivial⟩
  · decide +kernel
  · decide +kernel

end Basht.Filter
