import Basht.Filter.LineBuf

/-!
# Stores of the filter

Between two bytes the cursor is inside the line, and the line is shorter than the buffer
(`InBounds`). From such a state one step can leave the buffer: a character that forces a
line break while there is no room for the break's mark behind the line (`Overflows`).
Everything else keeps the invariant.
-/

namespace Basht.Filter

namespace LineBuf

/-- The invariant between two bytes. -/
structure InBounds (lb : LineBuf) : Prop where
  cur_le : lb.cur ≤ lb.len
  len_lt : lb.len < CAP

/-- A byte that `putch` stores. -/
def Prints (c : UInt8) : Prop := c = '\t'.toUInt8 ∨ ¬(c < 0x20 ∨ c = 0x7f)

/-- A character is put on a line whose cursor is so far right that the line is broken,
while the line is too long for the mark. -/
def Overflows (lb : LineBuf) (c : UInt8) : Prop :=
  lb.fs = .normal ∧ Prints c ∧ lb.moved = false ∧
    CAP - sizeofWrapMark ≤ lb.cur ∧ CAP < lb.len + (sizeofWrapMark - 1)

theorem length_wrapMark : wrapMark.length = sizeofWrapMark - 1 := by decide

theorem CAP_pos : 0 < CAP := by decide

theorem inBounds_zeroed : zeroed.InBounds := ⟨Nat.le_refl _, by decide⟩

section InBounds

variable {lb lb' : LineBuf} {lines : List Line}

theorem InBounds.fresh (h : lb.InBounds) : lb.fresh.InBounds := by
  unfold LineBuf.fresh
  split
  · exact ⟨Nat.le_refl _, CAP_pos⟩
  · exact h

theorem InBounds.emit (h : lb.InBounds) : lb.emit.1.InBounds :=
  ⟨Nat.le_refl _, Nat.lt_of_le_of_lt (Nat.zero_le _) h.len_lt⟩

theorem wrap_ok_iff : (∃ r, lb.wrap = .ok r) ↔
    ¬(CAP - sizeofWrapMark ≤ lb.cur ∧ CAP < lb.len + (sizeofWrapMark - 1)) := by
  unfold wrap
  split
  · rename_i hcur
    by_cases hle : lb.len + wrapMark.length ≤ CAP
    · rw [Buffer.write_of_le _ hle]
      rw [length_wrapMark] at hle
      simp [hcur, hle]
    · rw [Buffer.write_of_gt _ (by omega)]
      rw [length_wrapMark] at hle
      simp [hcur]
      omega
  · rename_i hcur
    simp only [Except.ok.injEq, exists_eq', true_iff]
    exact fun h => hcur h.1

/-- Behind a forced line break there is room for a character. -/
theorem InBounds.wrap (h : lb.InBounds) (hwrap : lb.wrap = .ok (lb', lines)) :
    lb'.InBounds ∧ lb'.cur + 1 < CAP := by
  unfold LineBuf.wrap at hwrap
  split at hwrap
  · split at hwrap
    · cases hwrap
    · cases hwrap
      exact ⟨⟨Nat.le_refl _, CAP_pos⟩, show 0 + 1 < CAP by decide⟩
  · rename_i hcur
    cases hwrap
    refine ⟨h, ?_⟩
    have hcap : CAP - sizeofWrapMark + sizeofWrapMark = CAP := by decide
    have hmark : sizeofWrapMark = 11 := rfl
    omega

theorem InBounds.store (h : lb.InBounds) (hcur : lb.cur + 1 < CAP) (c : UInt8) :
    ∃ lb', lb.store c = .ok lb' ∧ lb'.InBounds := by
  unfold LineBuf.store
  rw [Buffer.write_of_le _ (by simp; omega)]
  refine ⟨_, rfl, ?_, ?_⟩
  · exact Nat.le_max_right _ _
  · exact Nat.max_lt.mpr ⟨h.len_lt, hcur⟩

theorem InBounds.putch (h : lb.InBounds) (c : UInt8) (hputch : lb.putch c = .ok (lb', lines)) :
    lb'.InBounds := by
  unfold LineBuf.putch at hputch
  split at hputch
  · cases hputch
  · rename_i lb₁ lines₁ hwrap
    obtain ⟨h₁, hcur⟩ := h.fresh.wrap hwrap
    obtain ⟨lb₂, hstore, h₂⟩ := h₁.store hcur c
    rw [hstore] at hputch
    cases hputch
    exact h₂

theorem InBounds.putch_ok_iff (h : lb.InBounds) (c : UInt8) :
    (∃ r, lb.putch c = .ok r) ↔
      ¬(lb.moved = false ∧ CAP - sizeofWrapMark ≤ lb.cur ∧
        CAP < lb.len + (sizeofWrapMark - 1)) := by
  have hfresh : (∃ r, lb.fresh.wrap = .ok r) ↔ ¬(lb.moved = false ∧
      CAP - sizeofWrapMark ≤ lb.cur ∧ CAP < lb.len + (sizeofWrapMark - 1)) := by
    rw [wrap_ok_iff]
    unfold LineBuf.fresh
    split
    · rename_i hmoved
      simp [hmoved, show ¬(CAP - sizeofWrapMark = 0) by decide]
    · rename_i hmoved
      simp [hmoved]
  rw [← hfresh]
  unfold LineBuf.putch
  cases hwrap : lb.fresh.wrap with
  | error e => simp
  | ok r =>
    obtain ⟨lb₁, lines₁⟩ := r
    obtain ⟨h₁, hcur⟩ := h.fresh.wrap hwrap
    obtain ⟨lb₂, hstore, -⟩ := h₁.store hcur c
    simp [hstore]

theorem InBounds.edit (h : lb.InBounds) (c : UInt8) :
    ∃ lb', lb.edit c = .ok lb' ∧ lb'.InBounds := by
  obtain ⟨hcur, hlen⟩ := h
  unfold LineBuf.edit
  split
  · exact ⟨_, rfl, Nat.le_refl _, by simp only; omega⟩
  split
  · exact ⟨_, rfl, by simp only; split <;> omega, hlen⟩
  split
  · exact ⟨_, rfl, by simp only; split <;> omega, hlen⟩
  split
  · exact ⟨_, rfl, by simp only; split <;> omega, hlen⟩
  split
  · simp only
    rw [Buffer.write_of_le]
    · exact ⟨_, rfl, by simp only; omega, by simp only; omega⟩
    · rw [Buffer.length_slice] <;> omega
  split
  · simp only
    rw [Buffer.write_of_le]
    · simp only
      rw [Buffer.write_of_le]
      · exact ⟨_, rfl, by simp only; omega, by simp only; omega⟩
      · rw [List.length_replicate]
        omega
    · rw [Buffer.length_slice] <;> omega
  split
  · simp only
    rw [Buffer.write_of_le]
    · exact ⟨_, rfl, hcur, hlen⟩
    · rw [List.length_replicate]
      omega
  · exact ⟨_, rfl, hcur, hlen⟩

theorem InBounds.csiFinal (h : lb.InBounds) (c : UInt8) :
    ∃ lb', lb.csiFinal c = .ok lb' ∧ lb'.InBounds := by
  unfold LineBuf.csiFinal
  split
  · have hmoved : InBounds { lb with moved := true } := ⟨h.cur_le, h.len_lt⟩
    obtain ⟨lb₁, hedit, h₁⟩ := hmoved.edit c
    exact ⟨{ lb₁ with fs := .normal }, by simp only [hedit], ⟨h₁.cur_le, h₁.len_lt⟩⟩
  · split
    · obtain ⟨lb₁, hedit, h₁⟩ := h.fresh.edit c
      exact ⟨{ lb₁ with fs := .normal }, by simp only [hedit], ⟨h₁.cur_le, h₁.len_lt⟩⟩
    · obtain ⟨lb₁, hedit, h₁⟩ := h.edit c
      exact ⟨{ lb₁ with fs := .normal }, by simp only [hedit], ⟨h₁.cur_le, h₁.len_lt⟩⟩

/-- A byte that is not put on the line keeps the invariant; one that is, does if it is put
there. -/
theorem InBounds.filterByte (h : lb.InBounds) (c : UInt8)
    (hbyte : lb.filterByte c = .ok (lb', lines)) : lb'.InBounds := by
  unfold LineBuf.filterByte at hbyte
  split at hbyte
  · split_ifs at hbyte
    · cases hbyte
      exact ⟨h.cur_le, h.len_lt⟩
    · cases hbyte
      exact h.fresh
    · cases hbyte
      exact h.emit
    · cases hbyte
      exact ⟨Nat.zero_le _, h.fresh.len_lt⟩
    · cases hbyte
      exact ⟨Nat.le_trans (Nat.sub_le _ _) h.fresh.cur_le, h.fresh.len_lt⟩
    · exact h.putch c hbyte
    · cases hbyte
      exact h
    · exact h.putch c hbyte
  · split_ifs at hbyte <;> cases hbyte <;> exact ⟨h.cur_le, h.len_lt⟩
  · obtain ⟨lb₁, hfinal, h₁⟩ := h.csiFinal c
    rw [hfinal] at hbyte
    split_ifs at hbyte <;> cases hbyte
    · exact ⟨h.cur_le, h.len_lt⟩
    · exact ⟨h.cur_le, h.len_lt⟩
    · exact ⟨h.cur_le, h.len_lt⟩
    · exact h₁
    · exact ⟨h.cur_le, h.len_lt⟩
  · split_ifs at hbyte <;> cases hbyte <;> exact ⟨h.cur_le, h.len_lt⟩
  · split_ifs at hbyte <;> cases hbyte <;> exact ⟨h.cur_le, h.len_lt⟩

/-- In the ground state a byte that prints is put on the line. -/
theorem filterByte_prints {c : UInt8} (hfs : lb.fs = .normal) (hc : Prints c) :
    lb.filterByte c = lb.putch c := by
  have hne : ∀ d : UInt8, d < 0x20 → d ≠ '\t'.toUInt8 → c ≠ d := by
    rintro d hlt htab rfl
    rcases hc with hc | hc
    · exact htab hc
    · exact hc (Or.inl hlt)
  unfold LineBuf.filterByte
  rw [hfs]
  simp only
  rw [if_neg (hne _ (by decide) (by decide)), if_neg (hne _ (by decide) (by decide)),
    if_neg (hne _ (by decide) (by decide)), if_neg (hne _ (by decide) (by decide))]
  rcases hc with hc | hc
  · rw [if_pos hc]
  · rw [if_neg hc, ite_self]

theorem InBounds.filterByte_ok (h : lb.InBounds) {c : UInt8}
    (hc : lb.fs = .normal → ¬Prints c) : ∃ r, lb.filterByte c = .ok r := by
  obtain ⟨lb', hfinal, -⟩ := h.csiFinal c
  unfold LineBuf.filterByte
  cases hfs : lb.fs with
  | normal =>
    obtain ⟨htab, hctl⟩ := not_or.mp (hc hfs)
    simp only
    split_ifs
    · exact ⟨_, rfl⟩
    · exact ⟨_, rfl⟩
    · exact ⟨_, rfl⟩
    · exact ⟨_, rfl⟩
    · exact ⟨_, rfl⟩
    · exact ⟨_, rfl⟩
    · rename_i hnot
      exact absurd hnot hctl
  | csi =>
    simp only [hfinal]
    split_ifs <;> exact ⟨_, rfl⟩
  | esc | osc | oscEsc =>
    simp only
    split_ifs <;> exact ⟨_, rfl⟩

/-- **The step that leaves the buffer.** -/
theorem InBounds.filterByte_ok_iff (h : lb.InBounds) (c : UInt8) :
    (∃ r, lb.filterByte c = .ok r) ↔ ¬ lb.Overflows c := by
  by_cases hput : lb.fs = .normal ∧ Prints c
  · rw [filterByte_prints hput.1 hput.2, h.putch_ok_iff]
    simp [Overflows, hput]
  · have hok := h.filterByte_ok (c := c) fun hfs hc => hput ⟨hfs, hc⟩
    exact ⟨fun _ hover => hput ⟨hover.1, hover.2.1⟩, fun _ => hok⟩

theorem InBounds.flush (h : lb.InBounds) : lb.flush.1.InBounds := by
  unfold LineBuf.flush
  split_ifs
  · exact ⟨Nat.le_refl _, CAP_pos⟩
  · exact ⟨Nat.le_refl _, CAP_pos⟩
  · exact ⟨h.cur_le, h.len_lt⟩

end InBounds

end LineBuf

/-! ## Calls and runs -/

theorem Loop.turn_inBounds {trigger : Bool} {s s' : Loop} {c : UInt8} {lines : List Line}
    (h : s.lb.InBounds) (hturn : s.turn trigger c = .ok (s', lines)) : s'.lb.InBounds := by
  unfold Loop.turn at hturn
  split at hturn
  · cases hturn
    exact h
  · split at hturn
    · cases hturn
    · rename_i hbyte
      cases hturn
      exact h.filterByte c hbyte

theorem Loop.turn_ok_iff (trigger : Bool) {s : Loop} (c : UInt8) (h : s.lb.InBounds) :
    (∃ r, s.turn trigger c = .ok r) ↔ (s.returned = false → ¬ s.lb.Overflows c) := by
  unfold Loop.turn
  cases hr : s.returned with
  | true => simp
  | false =>
    rw [← h.filterByte_ok_iff c]
    cases hbyte : s.lb.filterByte c <;> simp

/-- No byte of the call overflows the line it is put on. -/
def Call.NoOverflow (lb : LineBuf) : Call → Prop
  | .bytes buf trigger =>
    Fallible.Meets (Loop.turn trigger) (fun s c => s.returned = false → ¬ s.lb.Overflows c)
      ⟨lb, 0, false⟩ buf
  | .flush => True

/-- The turn stores only inside the buffer, and before and after it the cursor is inside
the line and the line inside the buffer. -/
def Loop.Safe (trigger : Bool) (s : Loop) (c : UInt8) : Prop :=
  s.lb.cur ≤ s.lb.len ∧ s.lb.len ≤ CAP ∧
    ∃ s' lines, s.turn trigger c = .ok (s', lines) ∧ s'.lb.cur ≤ s'.lb.len ∧ s'.lb.len ≤ CAP

/-- Every step of the call is safe. -/
def Call.Safe (lb : LineBuf) : Call → Prop
  | .bytes buf trigger => Fallible.Meets (Loop.turn trigger) (Loop.Safe trigger) ⟨lb, 0, false⟩ buf
  | .flush => lb.flush.1.cur ≤ lb.flush.1.len ∧ lb.flush.1.len ≤ CAP

theorem Call.run_inBounds {lb lb' : LineBuf} {call : Call} {lines : List Line} (h : lb.InBounds)
    (hrun : call.run lb = .ok (lb', lines)) : lb'.InBounds := by
  cases call with
  | flush =>
    cases hrun
    exact h.flush
  | bytes buf trigger =>
    simp only [Call.run] at hrun
    split at hrun
    · cases hrun
    · rename_i s ls hloop
      cases hrun
      exact Fallible.exec_invariant (I := fun s => s.lb.InBounds)
        (fun s c s' ls h hturn => Loop.turn_inBounds h hturn) h hloop

theorem Call.safe_iff {lb : LineBuf} (call : Call) (h : lb.InBounds) :
    call.Safe lb ↔ call.NoOverflow lb := by
  cases call with
  | flush => exact iff_of_true ⟨h.flush.cur_le, Nat.le_of_lt h.flush.len_lt⟩ trivial
  | bytes buf trigger =>
    refine Fallible.meets_congr (I := fun s => s.lb.InBounds)
      (fun s c s' ls h hturn => Loop.turn_inBounds h hturn) (fun s c h => ?_) h buf
    rw [← Loop.turn_ok_iff trigger c h]
    constructor
    · rintro ⟨-, -, s', lines, hturn, -⟩
      exact ⟨_, hturn⟩
    · rintro ⟨⟨s', lines⟩, hturn⟩
      have h' := Loop.turn_inBounds h hturn
      exact ⟨h.cur_le, Nat.le_of_lt h.len_lt, s', lines, hturn, h'.cur_le, Nat.le_of_lt h'.len_lt⟩

/-- Every step of the calls on a stream is safe. -/
def FilterSafe (calls : List Call) : Prop :=
  Fallible.Meets Call.run Call.Safe LineBuf.zeroed calls

/-- **Stores of the filter.** All steps of the calls on a stream are safe iff no character
that forces a line break meets a line too long for the mark. -/
theorem filterSafe_iff (calls : List Call) :
    FilterSafe calls ↔ Fallible.Meets Call.run Call.NoOverflow LineBuf.zeroed calls :=
  Fallible.meets_congr (I := LineBuf.InBounds) (fun _ _ _ _ h hrun => Call.run_inBounds h hrun)
    (fun _ call h => call.safe_iff h) LineBuf.inBounds_zeroed calls

/-- The call stores only inside the buffer iff its run succeeds. -/
theorem Call.run_ok_iff {lb : LineBuf} (call : Call) (h : lb.InBounds) :
    (∃ r, call.run lb = .ok r) ↔ call.Safe lb := by
  rw [call.safe_iff h]
  cases call with
  | flush => exact iff_of_true ⟨_, rfl⟩ trivial
  | bytes buf trigger =>
    have hloop := Fallible.exec_ok_iff (I := fun s => s.lb.InBounds)
      (fun s c s' ls h hturn => Loop.turn_inBounds h hturn)
      (fun s c h => Loop.turn_ok_iff trigger c h) (s := ⟨lb, 0, false⟩) h buf
    rw [Call.NoOverflow, ← hloop]
    simp only [Call.run, filterLoop]
    cases Fallible.exec (Loop.turn trigger) ⟨lb, 0, false⟩ buf <;> simp

/-- The runs of the model that succeed are the safe ones. -/
theorem filterSafe_iff_exec (calls : List Call) :
    FilterSafe calls ↔ ∃ r, Fallible.exec Call.run LineBuf.zeroed calls = .ok r :=
  (Fallible.exec_ok_iff (I := LineBuf.InBounds) (fun _ _ _ _ h hrun => Call.run_inBounds h hrun)
    (fun _ call h => call.run_ok_iff h) LineBuf.inBounds_zeroed calls).symm

/-- `ESC [ 9000 @` and `ESC [ 8185 C`: blanks are inserted up to the end of the buffer, and
the cursor moves behind the point where the next character breaks the line. -/
def longLine : List UInt8 :=
  [27, 91, 57, 48, 48, 48, 64] ++ [27, 91, 56, 49, 56, 53, 67]

/-- A final byte that edits the line does so at once. -/
theorem turn_edit {lb : LineBuf} {c : UInt8} (lb' : LineBuf) (i : Nat) (hfs : lb.fs = .csi)
    (hmoved : lb.moved = false) (hedits : LineBuf.editsLine c = true)
    (hstays : LineBuf.leavesLine c = false) (hfinal : 0x40 ≤ c ∧ c ≤ 0x7e)
    (hedit : lb.edit c = .ok lb') :
    Loop.turn false ⟨lb, i, false⟩ c = .ok (⟨{ lb' with fs := .normal }, i + 1, false⟩, []) := by
  have hne : ∀ d : UInt8, d < 0x40 → c ≠ d := by
    rintro d hlt rfl
    exact absurd hfinal.1 (UInt8.not_le.mpr hlt)
  have hfresh : lb.fresh = lb := if_neg (by simp [hmoved])
  have hcsi : lb.csiFinal c = .ok { lb' with fs := .normal } := by
    rw [LineBuf.csiFinal, hstays, hedits]
    simp only [Bool.false_eq_true, if_false, if_true, hfresh, hedit]
  have hdigit : ¬(c ≥ '0'.toUInt8 ∧ c ≤ '9'.toUInt8 ∧ lb.csiMore = false) := by
    rintro ⟨-, hle, -⟩
    exact absurd (UInt8.le_trans hfinal.1 hle) (by decide)
  have hbyte : lb.filterByte c = .ok ({ lb' with fs := .normal }, []) := by
    rw [LineBuf.filterByte, hfs]
    simp only
    rw [if_neg hdigit, if_neg (hne _ (by decide)), if_neg (hne _ (by decide)), if_pos hfinal, hcsi]
  simp only [Loop.turn, hbyte, Bool.false_eq_true, if_false, Bool.false_and]

/-- A control sequence with the count of four digits `d₁ d₂ d₃ d₄`. -/
theorem exec_count (data : Buffer UInt8 CAP) (len cur i : Nat) (csiN : Int32)
    (d₁ d₂ d₃ d₄ : UInt8) (h₁ : d₁ ≥ '0'.toUInt8 ∧ d₁ ≤ '9'.toUInt8)
    (h₂ : d₂ ≥ '0'.toUInt8 ∧ d₂ ≤ '9'.toUInt8) (h₃ : d₃ ≥ '0'.toUInt8 ∧ d₃ ≤ '9'.toUInt8)
    (h₄ : d₄ ≥ '0'.toUInt8 ∧ d₄ ≤ '9'.toUInt8) :
    Fallible.exec (Loop.turn false)
        ⟨⟨data, len, cur, false, .normal, csiN, false, false⟩, i, false⟩ [27, 91, d₁, d₂, d₃, d₄] =
      .ok (⟨⟨data, len, cur, false, .csi, [d₁, d₂, d₃, d₄].foldl
        (fun n d => n * 10 + Int32.ofNat (d.toNat - 48)) 0, false, false⟩, i + 6, false⟩, []) := by
  have hdigit : ∀ n i, ∀ d : UInt8, d ≥ '0'.toUInt8 ∧ d ≤ '9'.toUInt8 → Loop.turn false
      ⟨⟨data, len, cur, false, .csi, n, false, false⟩, i, false⟩ d =
        .ok (⟨⟨data, len, cur, false, .csi, n * 10 + Int32.ofNat (d.toNat - 48), false, false⟩,
          i + 1, false⟩, []) := by
    intro n i d hd
    simp only [Loop.turn, LineBuf.filterByte, hd, and_self, if_true, Bool.false_eq_true,
      if_false, Bool.false_and]
  rw [show [27, 91, d₁, d₂, d₃, d₄] = [27, 91] ++ [d₁, d₂, d₃, d₄] from rfl, Fallible.exec_append,
    show Fallible.exec (Loop.turn false)
      ⟨⟨data, len, cur, false, .normal, csiN, false, false⟩, i, false⟩ [27, 91] =
        .ok (⟨⟨data, len, cur, false, .csi, 0, false, false⟩, i + 2, false⟩, []) from rfl,
    Fallible.andThen_ok_nil]
  simp only [Fallible.exec_cons, Fallible.exec_nil, hdigit _ _ d₁ h₁,
    hdigit _ _ d₂ h₂, hdigit _ _ d₃ h₃, hdigit _ _ d₄ h₄,
    Fallible.andThen_ok_nil, List.foldl_cons, List.foldl_nil]

theorem turn_insert (data : Buffer UInt8 CAP) (i : Nat) : ∃ data',
    Loop.turn false ⟨⟨data, 0, 0, false, .csi, 9000, false, false⟩, i, false⟩ '@'.toUInt8 =
      .ok (⟨⟨data', 8191, 0, false, .normal, 9000, false, false⟩, i + 1, false⟩, []) := by
  have hmin : min 9000 (CAP - 1 - 0) = 8191 := by decide
  have hfit : 0 + 8191 + (data.slice 0 (0 - 0)).length ≤ CAP := by
    rw [Buffer.length_slice _ (Nat.zero_le _)]
    decide
  have hfill : 0 + (List.replicate 8191 (32 : UInt8)).length ≤ CAP := by
    rw [List.length_replicate]
    decide
  refine ⟨(data.overwrite (0 + 8191) (data.slice 0 (0 - 0)) hfit).overwrite 0
    (List.replicate 8191 32) hfill, turn_edit (c := '@'.toUInt8)
      ⟨_, 0 + 8191, 0, false, .csi, 9000, false, false⟩ i rfl rfl (by decide) (by decide)
      (by decide) ?_⟩
  rw [LineBuf.edit, if_neg (by decide), if_neg (by decide), if_neg (by decide),
    if_neg (by decide), if_neg (by decide), if_pos rfl]
  simp only [show LineBuf.nn ⟨data, 0, 0, false, .csi, 9000, false, false⟩ = 9000 from rfl,
    hmin, Buffer.write_of_le _ hfit, Buffer.write_of_le _ hfill]
  rfl

theorem turn_right (data : Buffer UInt8 CAP) (i : Nat) :
    Loop.turn false ⟨⟨data, 8191, 0, false, .csi, 8185, false, false⟩, i, false⟩ 'C'.toUInt8 =
      .ok (⟨⟨data, 8191, 8185, false, .normal, 8185, false, false⟩, i + 1, false⟩, []) := by
  refine turn_edit (c := 'C'.toUInt8)
    ⟨data, 8191, 8185, false, .csi, 8185, false, false⟩ i rfl rfl (by decide)
    (by decide) (by decide) ?_
  rw [LineBuf.edit, if_neg (by decide), if_pos rfl]
  simp only [show LineBuf.nn ⟨data, 8191, 0, false, .csi, 8185, false, false⟩ = 8185 from rfl,
    show ¬0 + 8185 > 8191 by decide, if_false]

theorem exec_longLine : ∃ s, Fallible.exec (Loop.turn false) ⟨LineBuf.zeroed, 0, false⟩ longLine =
      .ok (s, []) ∧
    s.returned = false ∧ s.lb.InBounds ∧ s.lb.Overflows 120 := by
  have hcount := exec_count (Buffer.fill CAP 0) 0 0 0 0 57 48 48 48 (by decide) (by decide)
    (by decide) (by decide)
  rw [show ([57, 48, 48, 48] : List UInt8).foldl _ 0 = (9000 : Int32) by decide] at hcount
  obtain ⟨data, hinsert⟩ := turn_insert (Buffer.fill CAP 0) 6
  have hcolumn := exec_count data 8191 0 7 9000 56 49 56 53 (by decide) (by decide)
    (by decide) (by decide)
  rw [show ([56, 49, 56, 53] : List UInt8).foldl _ 0 = (8185 : Int32) by decide] at hcolumn
  have hcur : 8185 ≤ 8191 := by decide
  have hlen : 8191 < CAP := by decide
  have hbreak : CAP - sizeofWrapMark ≤ 8185 := by decide
  have hmark : CAP < 8191 + (sizeofWrapMark - 1) := by decide
  refine ⟨⟨⟨data, 8191, 8185, false, .normal, 8185, false, false⟩, 14, false⟩, ?_, rfl,
    ⟨hcur, hlen⟩, rfl, Or.inr (by decide), rfl, hbreak, hmark⟩
  have hsplit : longLine = [27, 91, 57, 48, 48, 48] ++ ['@'.toUInt8] ++
      ([27, 91, 56, 49, 56, 53] ++ ['C'.toUInt8]) := by decide
  rw [hsplit, Fallible.exec_append, Fallible.exec_append, LineBuf.zeroed, hcount,
    Fallible.andThen_ok_nil, Fallible.exec_cons, hinsert, Fallible.andThen_ok_nil,
    Fallible.exec_nil, Fallible.andThen_ok_nil, Fallible.exec_append, hcolumn,
    Fallible.andThen_ok_nil, Fallible.exec_cons, turn_right, Fallible.andThen_ok_nil,
    Fallible.exec_nil]

/-- The character `x` on such a line leaves the buffer. -/
theorem filter_unsafe : ¬ FilterSafe [.bytes (longLine ++ [120]) false] := by
  intro h
  obtain ⟨s, hexec, hret, hin, hover⟩ := exec_longLine
  have hcall : Call.Safe LineBuf.zeroed (.bytes (longLine ++ [120]) false) := h.1
  obtain ⟨-, -, s', lines, hturn, -⟩ := Fallible.Meets.at_exec hcall hexec
  exact (Loop.turn_ok_iff false 120 hin).mp ⟨_, hturn⟩ hret hover

end Basht.Filter
