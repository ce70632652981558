import Basht.Filter.Safety

/-!
# No control reaches the terminal

The cells a line buffer shows, `lb->data[0..len)`, print (`Clean`): a control is stored
nowhere, and what the cursor, an inserted blank or a moved tail exposes was shown before.
The lines a call emits are texts of clean buffers.
-/

namespace Basht.Filter

namespace LineBuf

/-- The cells shown print. -/
structure Clean (lb : LineBuf) : Prop extends lb.InBounds where
  prints : ∀ c ∈ lb.text, Prints c

theorem clean_zeroed : zeroed.Clean := by
  refine ⟨inBounds_zeroed, fun c hc => ?_⟩
  obtain ⟨p, hp, -⟩ := Buffer.mem_upTo.mp hc
  exact absurd hp (Nat.not_lt_zero p)

set_option maxRecDepth 2048 in
theorem prints_wrapMark : ∀ c ∈ wrapMark, Prints c := by
  intro c hc
  have hmark : ∀ c ∈ wrapMark, ¬(c < 0x20 ∨ c = 0x7f) := by decide
  exact Or.inr (hmark c hc)

theorem prints_blanks {n : Nat} : ∀ c ∈ List.replicate n (32 : UInt8), Prints c := by
  intro c hc
  rw [List.eq_of_mem_replicate hc]
  exact Or.inr (by decide)

section Clean

variable {lb lb' : LineBuf} {c : UInt8} {lines : List Line}

theorem Clean.cell (h : lb.Clean) {p : Nat} (hp : p < lb.len) (hc : lb.data.cells[p]? = some c) :
    Prints c := h.prints c (Buffer.mem_upTo.mpr ⟨p, hp, hc⟩)

/-- A line of which no more cells are shown than before. -/
theorem Clean.shrink (h : lb.Clean) (h' : lb'.InBounds) (hdata : lb'.data = lb.data)
    (hlen : lb'.len ≤ lb.len) : lb'.Clean := by
  refine ⟨h', fun c hc => ?_⟩
  obtain ⟨p, hp, hcell⟩ := Buffer.mem_upTo.mp hc
  rw [hdata] at hcell
  exact h.cell (Nat.lt_of_lt_of_le hp hlen) hcell

/-- A store of cells that print, behind which only old cells and stored ones are shown. -/
theorem Clean.prints_overwrite (h : lb.Clean) {off n : Nat} {xs : List UInt8}
    (hfit : off + xs.length ≤ CAP) (hxs : ∀ c ∈ xs, Prints c) (hoff : off ≤ lb.len)
    (hn : n ≤ max lb.len (off + xs.length)) :
    ∀ c ∈ (lb.data.overwrite off xs hfit).upTo n, Prints c := by
  intro c hc
  obtain ⟨p, hp, hcell⟩ := Buffer.mem_upTo.mp hc
  rcases Buffer.getElem?_overwrite hfit hcell with ⟨-, -, hmem⟩ | ⟨hout, hold⟩
  · exact hxs c hmem
  · exact h.cell (by omega) hold

theorem Clean.prints_slice (h : lb.Clean) {off n : Nat} (hle : off + n ≤ lb.len) :
    ∀ c ∈ lb.data.slice off n, Prints c := by
  intro c hc
  obtain ⟨p, -, hp, hcell⟩ := Buffer.mem_slice hc
  exact h.cell (by omega) hcell

theorem Clean.fresh (h : lb.Clean) : lb.fresh.Clean := by
  refine h.shrink h.toInBounds.fresh ?_ ?_
  · unfold LineBuf.fresh
    split <;> rfl
  · unfold LineBuf.fresh
    split
    · exact Nat.zero_le _
    · exact Nat.le_refl _

theorem Clean.emit (h : lb.Clean) : lb.emit.1.Clean :=
  h.shrink h.toInBounds.emit rfl (Nat.zero_le _)

/-- A forced line break hands over a line that prints. -/
theorem Clean.wrap (h : lb.Clean) (hwrap : lb.wrap = .ok (lb', lines)) :
    lb'.Clean ∧ ∀ line ∈ lines, ∀ c ∈ line, Prints c := by
  have hin := h.toInBounds.wrap hwrap
  unfold LineBuf.wrap at hwrap
  split at hwrap
  · by_cases hfit : lb.len + wrapMark.length ≤ CAP
    · rw [Buffer.write_of_le _ hfit] at hwrap
      cases hwrap
      refine ⟨⟨hin.1, fun c hc => ?_⟩, fun line hline => ?_⟩
      · obtain ⟨p, hp, -⟩ := Buffer.mem_upTo.mp hc
        exact absurd hp (Nat.not_lt_zero p)
      · rw [List.mem_singleton.mp hline]
        refine h.prints_overwrite hfit prints_wrapMark (Nat.le_refl _) ?_
        rw [length_wrapMark]
        exact Nat.le_max_right _ _
    · rw [Buffer.write_of_gt _ (by omega)] at hwrap
      cases hwrap
  · cases hwrap
    exact ⟨h, by simp⟩

theorem Clean.store (h : lb.Clean) (hcur : lb.cur + 1 < CAP) (hc : Prints c)
    (hstore : lb.store c = .ok lb') : lb'.Clean := by
  obtain ⟨lb₁, hstore₁, h₁⟩ := h.toInBounds.store hcur c
  rw [hstore₁] at hstore
  cases hstore
  refine ⟨h₁, ?_⟩
  unfold LineBuf.store at hstore₁
  have hfit : lb.cur + [c].length ≤ CAP := by
    rw [List.length_singleton]
    omega
  rw [Buffer.write_of_le _ hfit] at hstore₁
  cases hstore₁
  refine h.prints_overwrite hfit (fun d hd => ?_) h.cur_le (Nat.le_refl _)
  rw [List.mem_singleton.mp hd]
  exact hc

theorem Clean.putch (h : lb.Clean) (hc : Prints c) (hputch : lb.putch c = .ok (lb', lines)) :
    lb'.Clean ∧ ∀ line ∈ lines, ∀ c ∈ line, Prints c := by
  unfold LineBuf.putch at hputch
  split at hputch
  · cases hputch
  · rename_i lb₁ lines₁ hwrap
    obtain ⟨h₁, hlines⟩ := h.fresh.wrap hwrap
    have hcur := (h.fresh.toInBounds.wrap hwrap).2
    split at hputch
    · cases hputch
    · rename_i hstore
      cases hputch
      exact ⟨h₁.store hcur hc hstore, hlines⟩

/-- The edits of a final byte show old cells, moved ones and blanks. -/
theorem Clean.edit (h : lb.Clean) (c : UInt8) (hedit : lb.edit c = .ok lb') : lb'.Clean := by
  obtain ⟨lb₁, hedit₁, h₁⟩ := h.toInBounds.edit c
  rw [hedit₁] at hedit
  cases hedit
  have hcur := h.cur_le
  have hlen := h.len_lt
  unfold LineBuf.edit at hedit₁
  simp only at hedit₁
  split at hedit₁
  · cases hedit₁
    exact h.shrink h₁ rfl hcur
  split at hedit₁
  · cases hedit₁
    exact h.shrink h₁ rfl (Nat.le_refl _)
  split at hedit₁
  · cases hedit₁
    exact h.shrink h₁ rfl (Nat.le_refl _)
  split at hedit₁
  · cases hedit₁
    exact h.shrink h₁ rfl (Nat.le_refl _)
  split at hedit₁
  · -- the tail is moved left over the deleted cells
    split at hedit₁
    · cases hedit₁
    · rename_i hwrite
      obtain ⟨hfit, rfl⟩ := Buffer.write_eq_ok.mp hwrite
      cases hedit₁
      refine ⟨h₁, h.prints_overwrite hfit (h.prints_slice (by omega)) hcur ?_⟩
      simp only
      omega
  split at hedit₁
  · -- the tail is moved right, and the gap is filled
    split at hedit₁
    · cases hedit₁
    · rename_i hmove
      split at hedit₁
      · cases hedit₁
      · rename_i hfill
        obtain ⟨hfit, rfl⟩ := Buffer.write_eq_ok.mp hmove
        obtain ⟨hfit', rfl⟩ := Buffer.write_eq_ok.mp hfill
        cases hedit₁
        refine ⟨h₁, fun d hd => ?_⟩
        obtain ⟨p, hp, hcell⟩ := Buffer.mem_upTo.mp hd
        simp only at hp
        rcases Buffer.getElem?_overwrite hfit' hcell with ⟨-, -, hmem⟩ | ⟨hout, hcell⟩
        · exact prints_blanks d hmem
        · rw [List.length_replicate] at hout
          rcases Buffer.getElem?_overwrite hfit hcell with ⟨-, -, hmem⟩ | ⟨hout', hcell⟩
          · exact h.prints_slice (by omega) d hmem
          · rw [Buffer.length_slice _ (by omega)] at hout'
            exact h.cell (by omega) hcell
  split at hedit₁
  · split at hedit₁
    · cases hedit₁
    · rename_i hwrite
      obtain ⟨hfit, rfl⟩ := Buffer.write_eq_ok.mp hwrite
      cases hedit₁
      exact ⟨h₁, h.prints_overwrite hfit prints_blanks hcur (Nat.le_max_left _ _)⟩
  · cases hedit₁
    exact h

theorem Clean.csiFinal (h : lb.Clean) (c : UInt8) (hfinal : lb.csiFinal c = .ok lb') :
    lb'.Clean := by
  unfold LineBuf.csiFinal at hfinal
  simp only at hfinal
  split at hfinal
  · cases hfinal
  · rename_i hedit
    cases hfinal
    split_ifs at hedit
    · have hmoved : LineBuf.Clean { lb with moved := true } :=
        h.shrink ⟨h.cur_le, h.len_lt⟩ rfl (Nat.le_refl _)
      have h₁ := hmoved.edit c hedit
      exact h₁.shrink ⟨h₁.cur_le, h₁.len_lt⟩ rfl (Nat.le_refl _)
    · have h₁ := h.fresh.edit c hedit
      exact h₁.shrink ⟨h₁.cur_le, h₁.len_lt⟩ rfl (Nat.le_refl _)
    · have h₁ := h.edit c hedit
      exact h₁.shrink ⟨h₁.cur_le, h₁.len_lt⟩ rfl (Nat.le_refl _)

/-- In the ground state a control is not put on the line; in the others nothing is. -/
theorem Clean.filterByte (h : lb.Clean) (c : UInt8)
    (hbyte : lb.filterByte c = .ok (lb', lines)) :
    lb'.Clean ∧ ∀ line ∈ lines, ∀ d ∈ line, Prints d := by
  have hkeep : ∀ lb₁ : LineBuf, lb₁.data = lb.data → lb₁.len = lb.len → lb₁.cur = lb.cur →
      lb₁.Clean := by
    intro lb₁ hdata hlen hcur
    refine h.shrink ⟨?_, ?_⟩ hdata (Nat.le_of_eq hlen)
    · rw [hlen, hcur]
      exact h.cur_le
    · rw [hlen]
      exact h.len_lt
  have hf := h.fresh
  unfold LineBuf.filterByte at hbyte
  split at hbyte
  · split_ifs at hbyte with hesc hnl hmoved hcr hbs htab hctl
    · cases hbyte
      exact ⟨hkeep _ rfl rfl rfl, by simp⟩
    · cases hbyte
      exact ⟨hf, by simp⟩
    · cases hbyte
      refine ⟨h.emit, fun line hline => ?_⟩
      rw [List.mem_singleton.mp hline]
      exact h.prints
    · cases hbyte
      exact ⟨hf.shrink ⟨Nat.zero_le _, hf.len_lt⟩ rfl (Nat.le_refl _), by simp⟩
    · cases hbyte
      exact ⟨hf.shrink ⟨Nat.le_trans (Nat.sub_le _ _) hf.cur_le, hf.len_lt⟩ rfl (Nat.le_refl _),
        by simp⟩
    · exact h.putch (Or.inl htab) hbyte
    · cases hbyte
      exact ⟨h, by simp⟩
    · exact h.putch (Or.inr hctl) hbyte
  · split_ifs at hbyte <;> cases hbyte <;> exact ⟨hkeep _ rfl rfl rfl, by simp⟩
  · split_ifs at hbyte
    · cases hbyte
      exact ⟨hkeep _ rfl rfl rfl, by simp⟩
    · cases hbyte
      exact ⟨hkeep _ rfl rfl rfl, by simp⟩
    · cases hbyte
      exact ⟨hkeep _ rfl rfl rfl, by simp⟩
    · split at hbyte
      · cases hbyte
      · rename_i hfinal
        cases hbyte
        exact ⟨h.csiFinal c hfinal, by simp⟩
    · cases hbyte
      exact ⟨h, by simp⟩
  · split_ifs at hbyte <;> cases hbyte <;> exact ⟨hkeep _ rfl rfl rfl, by simp⟩
  · split_ifs at hbyte <;> cases hbyte <;> exact ⟨hkeep _ rfl rfl rfl, by simp⟩

theorem Clean.flush (h : lb.Clean) :
    lb.flush.1.Clean ∧ ∀ line ∈ lb.flush.2, ∀ d ∈ line, Prints d := by
  unfold LineBuf.flush
  split_ifs
  · exact ⟨h.shrink ⟨Nat.le_refl _, CAP_pos⟩ rfl (Nat.zero_le _), by simp⟩
  · refine ⟨h.shrink ⟨Nat.le_refl _, CAP_pos⟩ rfl (Nat.zero_le _), fun line hline => ?_⟩
    rw [List.mem_singleton.mp hline]
    exact h.prints
  · exact ⟨h.shrink ⟨h.cur_le, h.len_lt⟩ rfl (Nat.le_refl _), by simp⟩

end Clean

end LineBuf

/-! ## Calls and runs -/

theorem Loop.turn_clean {trigger : Bool} {s s' : Loop} {c : UInt8} {lines : List Line}
    (h : s.lb.Clean) (hturn : s.turn trigger c = .ok (s', lines)) :
    s'.lb.Clean ∧ ∀ line ∈ lines, ∀ d ∈ line, LineBuf.Prints d := by
  unfold Loop.turn at hturn
  split at hturn
  · cases hturn
    exact ⟨h, by simp⟩
  · split at hturn
    · cases hturn
    · rename_i hbyte
      cases hturn
      exact h.filterByte c hbyte

theorem Call.run_clean {lb lb' : LineBuf} {call : Call} {lines : List Line} (h : lb.Clean)
    (hrun : call.run lb = .ok (lb', lines)) :
    lb'.Clean ∧ ∀ line ∈ lines, ∀ d ∈ line, LineBuf.Prints d := by
  cases call with
  | flush =>
    cases hrun
    exact h.flush
  | bytes buf trigger =>
    simp only [Call.run] at hrun
    split at hrun
    · cases hrun
    · rename_i s ls hloop
      cases hrun
      exact Fallible.exec_emits (I := fun s => s.lb.Clean)
        (fun s c s' ls h hturn => Loop.turn_clean h hturn) h hloop

/-- **No control reaches the terminal.** In a run whose stores are all in range, the lines
handed to the display and the partial line left behind hold TAB and bytes that print. -/
theorem exec_prints (calls : List Call) {lb : LineBuf} {lines : List Line}
    (hrun : Fallible.exec Call.run LineBuf.zeroed calls = .ok (lb, lines)) :
    (∀ line ∈ lines, ∀ c ∈ line, c = '\t'.toUInt8 ∨ (0x20 ≤ c ∧ c ≠ 0x7f)) ∧
      ∀ c ∈ lb.text, c = '\t'.toUInt8 ∨ (0x20 ≤ c ∧ c ≠ 0x7f) := by
  have hprints : ∀ c, LineBuf.Prints c → c = '\t'.toUInt8 ∨ (0x20 ≤ c ∧ c ≠ 0x7f) := by
    rintro c (htab | hctl)
    · exact Or.inl htab
    · obtain ⟨hlow, hdel⟩ := not_or.mp hctl
      exact Or.inr ⟨UInt8.not_lt.mp hlow, hdel⟩
  obtain ⟨hclean, hlines⟩ := Fallible.exec_emits (I := LineBuf.Clean)
    (fun _ _ _ _ h hrun => Call.run_clean h hrun) LineBuf.clean_zeroed hrun
  exact ⟨fun line hline c hc => hprints c (hlines line hline c hc),
    fun c hc => hprints c (hclean.prints c hc)⟩

/-- A colour inside a word, a BEL and a sequence that is cut off between two calls. -/
theorem exec_prints_split : ∃ lb lines,
    Fallible.exec Call.run LineBuf.zeroed
      [.bytes [97, 27, 91, 51] false, .bytes [49, 109, 7, 98, 10, 99] false, .flush] =
        .ok (lb, lines) ∧ lines.length = 2 ∧
    (∀ line ∈ lines, ∀ c ∈ line, c = '\t'.toUInt8 ∨ (0x20 ≤ c ∧ c ≠ 0x7f)) := by
  refine ⟨_, _, rfl, rfl, ?_⟩
  exact (exec_prints [.bytes [97, 27, 91, 51] false, .bytes [49, 109, 7, 98, 10, 99] false,
    .flush] rfl).1

end Basht.Filter
