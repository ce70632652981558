import Mathlib.Data.List.DropRight
import Basht.Filter.OneLine

/-!
# Forced line breaks

A line of text that does not fit the line buffer is broken and marked (`putch`). Every line
carries how it ended, and without the marks the lines are the input again.
-/

namespace Basht.Filter

open LineBuf

/-- How a line ended. -/
inductive Ending where
  | overflow
  | lineEnd

/-- A line and how it ended. -/
structure Ended where
  line : Line
  ending : Ending

/-- What a line stands for: a broken one for itself without the mark, any other for itself
and a line end. -/
def Ended.restore : Ended → List UInt8
  | ⟨line, .overflow⟩ => line.rdrop wrapMark.length
  | ⟨line, .lineEnd⟩ => line ++ ['\n'.toUInt8]

/-- The lines of one byte, each with how it ended. -/
def endedByte (lb : LineBuf) (c : UInt8) : Except StoreFault (LineBuf × List Ended) :=
  match lb.filterByte c with
  | .error e => .error e
  | .ok (lb, lines) =>
    .ok (lb, lines.map fun line => ⟨line, if c = '\n'.toUInt8 then .lineEnd else .overflow⟩)

theorem exec_endedByte {lb lb' : LineBuf} {bs : List UInt8} {ended : List Ended}
    (h : Fallible.exec endedByte lb bs = .ok (lb', ended)) :
    Fallible.exec filterByte lb bs = .ok (lb', ended.map Ended.line) := by
  induction bs generalizing lb ended with
  | nil =>
    cases h
    rfl
  | cons c bs ih =>
    obtain ⟨lb₁, ended₁, lb₂, ended₂, hbyte, hrest, hr⟩ := Fallible.andThen_eq_ok.mp h
    cases hr
    unfold endedByte at hbyte
    split at hbyte
    · cases hbyte
    · rename_i lb₁' lines hfilter
      cases hbyte
      refine Fallible.andThen_eq_ok.mpr ⟨_, _, _, _, hfilter, ih hrest, ?_⟩
      rw [List.map_append, List.map_map]
      congr 2
      exact List.map_id' lines

/-! ## The line being assembled -/

/-- The line is the text `text`, not too long yet for a mark, and the cursor is at its end. -/
structure Assembles (lb : LineBuf) (text : List UInt8) : Prop where
  shows : Shows lb ⟨text, text.length, Nat.le_refl _⟩
  fs : lb.fs = .normal
  room : text.length ≤ CAP - sizeofWrapMark

theorem assembles_zeroed : Assembles zeroed [] := ⟨shows_zeroed, rfl, Nat.zero_le _⟩

theorem put_length (text : List UInt8) (c : UInt8) :
    OneLine.put ⟨text, text.length, Nat.le_refl _⟩ c =
      ⟨text ++ [c], (text ++ [c]).length, Nat.le_refl _⟩ := by
  ext1
  · exact OneLine.put_end rfl c
  · change text.length + 1 = (text ++ [c]).length
    rw [List.length_append, List.length_singleton]

namespace Assembles

variable {lb : LineBuf} {text : List UInt8}

theorem lineEnd (h : Assembles lb text) : ∃ lb',
    endedByte lb '\n'.toUInt8 = .ok (lb', [⟨text, .lineEnd⟩]) ∧ Assembles lb' [] := by
  have hbyte : lb.filterByte '\n'.toUInt8 = .ok lb.emit := by
    simp only [filterByte, h.fs, h.shows.moved, Bool.false_eq_true, if_false, if_true,
      if_neg (show ¬ '\n'.toUInt8 = 0x1b by decide)]
  obtain ⟨hshows, hlines⟩ := h.shows.emit
  refine ⟨lb.emit.1, ?_, hshows, h.fs, Nat.zero_le _⟩
  simp only [endedByte, hbyte]
  rw [hlines]
  rfl

/-- A line that has become too long is broken, with a mark behind it. -/
theorem wrap (h : Assembles lb text) (hfull : text.length = CAP - sizeofWrapMark) :
    ∃ lb', lb.wrap = .ok (lb', [text ++ wrapMark]) ∧ Shows lb' OneLine.empty ∧
      lb'.fs = .normal := by
  have hcap : CAP - sizeofWrapMark + sizeofWrapMark = CAP := by decide
  have hmark : sizeofWrapMark = 11 := rfl
  have hlen : lb.len = text.length := h.shows.len
  have hcur : lb.cur = text.length := h.shows.cur
  have hwrapMark := length_wrapMark
  have hfit : lb.len + wrapMark.length ≤ CAP := by omega
  let full : LineBuf := { lb with
    data := lb.data.overwrite lb.len wrapMark hfit
    len := lb.len + (sizeofWrapMark - 1) }
  have hbroken : lb.wrap = .ok full.emit := by
    rw [LineBuf.wrap, if_pos (by omega), Buffer.write_of_le _ hfit]
  have htext : full.text = text ++ wrapMark := by
    have hold : lb.data.upTo lb.len = text := h.shows.text
    have hall : (lb.data.upTo (lb.len + (sizeofWrapMark - 1))).length =
        lb.len + (sizeofWrapMark - 1) := Buffer.length_upTo _ (by omega)
    change (lb.data.overwrite lb.len wrapMark hfit).upTo (lb.len + (sizeofWrapMark - 1)) = _
    rw [Buffer.upTo_overwrite _ hfit (by omega), Buffer.take_upTo _ (Nat.le_add_right _ _), hold,
      List.drop_eq_nil_of_le (by omega), List.append_nil]
  refine ⟨full.emit.1, ?_, ⟨rfl, rfl, rfl, CAP_pos, h.shows.moved⟩, h.fs⟩
  rw [hbroken, ← htext]
  rfl

theorem ne_lineEnd {c : UInt8} (hc : Prints c) : c ≠ '\n'.toUInt8 := by
  intro hlf
  rw [hlf] at hc
  rcases hc with htab | hprint
  · exact absurd htab (by decide)
  · exact absurd (Or.inl (by decide)) hprint

/-- A character is appended, or begins the line behind a forced break. -/
theorem put (h : Assembles lb text) {c : UInt8} (hc : Prints c) : ∃ lb' ended text',
    endedByte lb c = .ok (lb', ended) ∧ Assembles lb' text' ∧
      ended.flatMap Ended.restore ++ text' = text ++ [c] ∧
      (∀ e ∈ ended, e.ending = .overflow → wrapMark <:+ e.line) ∧ text' ≠ [] := by
  have hcur : lb.cur = text.length := h.shows.cur
  have hne : c ≠ '\n'.toUInt8 := ne_lineEnd hc
  rcases Nat.lt_or_eq_of_le h.room with hlt | hfull
  · obtain ⟨lb', hputch, hshows, hfs⟩ := h.shows.putch (c := c) (by omega)
    rw [put_length] at hshows
    have hroom : (text ++ [c]).length ≤ CAP - sizeofWrapMark := by
      rw [List.length_append]
      exact hlt
    refine ⟨lb', [], text ++ [c], ?_, ⟨hshows, hfs.trans h.fs, hroom⟩, rfl, ?_, by simp⟩
    · simp only [endedByte, filterByte_prints h.fs hc, hputch]
      rfl
    · intro e he
      cases he
  · obtain ⟨lb₁, hwrap, hshows₁, hfs₁⟩ := h.wrap hfull
    have hfirst : lb₁.cur + 1 < CAP := by
      rw [hshows₁.cur]
      decide
    obtain ⟨lb₂, hstore, hshows₂, hfs₂⟩ := hshows₁.store (c := c) hfirst
    refine ⟨lb₂, [⟨text ++ wrapMark, .overflow⟩], [c], ?_, ⟨hshows₂, hfs₂.trans hfs₁, ?_⟩, ?_, ?_,
      by simp⟩
    · simp only [endedByte, filterByte_prints h.fs hc, putch, h.shows.fresh, hwrap, hstore,
        List.map_cons, List.map_nil, if_neg hne]
    · change 1 ≤ CAP - sizeofWrapMark
      decide
    · rw [List.flatMap_singleton, Ended.restore, List.rdrop_append_length]
    · intro e he _
      rw [List.mem_singleton.mp he]
      exact List.suffix_append _ _

theorem byte (h : Assembles lb text) {c : UInt8} (hc : Prints c ∨ c = '\n'.toUInt8) :
    ∃ lb' ended text', endedByte lb c = .ok (lb', ended) ∧ Assembles lb' text' ∧
      ended.flatMap Ended.restore ++ text' = text ++ [c] ∧
      (∀ e ∈ ended, e.ending = .overflow → wrapMark <:+ e.line) ∧
      (text' = [] ↔ c = '\n'.toUInt8) := by
  rcases hc with hprints | hlf
  · obtain ⟨lb', ended, text', hbyte, hassembles, hrestore, hmarks, hne⟩ := h.put hprints
    have hlf : c ≠ '\n'.toUInt8 := ne_lineEnd hprints
    exact ⟨lb', ended, text', hbyte, hassembles, hrestore, hmarks, by simp only [hne, hlf]⟩
  · rw [hlf]
    obtain ⟨lb', hbyte, hassembles⟩ := h.lineEnd
    refine ⟨lb', _, [], hbyte, hassembles, ?_, ?_, by simp only⟩
    · rw [List.append_nil, List.flatMap_singleton, Ended.restore]
    · intro e he hover
      rw [List.mem_singleton.mp he] at hover
      cases hover

end Assembles

/-! ## Runs -/

/-- The input, with a line end behind an unterminated last line. -/
def terminated (bs : List UInt8) : List UInt8 :=
  match bs.getLast? with
  | none => bs
  | some c => if c = '\n'.toUInt8 then bs else bs ++ ['\n'.toUInt8]

theorem terminated_of_end {bs : List UInt8} (h : ∀ c ∈ bs.getLast?, c = '\n'.toUInt8) :
    terminated bs = bs := by
  unfold terminated
  split
  · rfl
  · rename_i hlast
    rw [if_pos (h _ hlast)]

theorem terminated_of_not_end {bs : List UInt8}
    (h : ¬∀ c ∈ bs.getLast?, c = '\n'.toUInt8) : terminated bs = bs ++ ['\n'.toUInt8] := by
  unfold terminated
  split
  · rename_i hlast
    exact absurd (by simp [hlast]) h
  · rename_i c hlast
    rw [if_neg]
    intro hc
    apply h
    intro d hd
    cases hlast.symm.trans hd
    exact hc

/-- Between two bytes the lines so far and the line being assembled are the input so far. -/
theorem exec_restore {bs : List UInt8} (hbs : ∀ c ∈ bs, Prints c ∨ c = '\n'.toUInt8) :
    ∃ lb ended text, Fallible.exec endedByte zeroed bs = .ok (lb, ended) ∧ Assembles lb text ∧
      ended.flatMap Ended.restore ++ text = bs ∧
      (∀ e ∈ ended, e.ending = .overflow → wrapMark <:+ e.line) ∧
      (text = [] ↔ ∀ c ∈ bs.getLast?, c = '\n'.toUInt8) ∧
      Fallible.Meets filterByte (fun lb c => lb.fullScreen c = false) zeroed bs := by
  induction bs using List.reverseRecOn with
  | nil => exact ⟨zeroed, [], [], rfl, assembles_zeroed, rfl, by simp, by simp, trivial⟩
  | append_singleton bs c ih =>
    obtain ⟨lb₁, ended₁, text₁, hrun₁, hassembles₁, hrestore₁, hmarks₁, -, hquiet₁⟩ :=
      ih fun c hc => hbs c (List.mem_append_left _ hc)
    obtain ⟨lb₂, ended₂, text₂, hbyte, hassembles₂, hrestore₂, hmarks₂, hend⟩ :=
      hassembles₁.byte (hbs c (List.mem_append_right _ List.mem_cons_self))
    have hrun₂ : Fallible.exec endedByte lb₁ [c] = .ok (lb₂, ended₂) := by
      rw [Fallible.exec_cons, hbyte]
      exact Fallible.andThen_eq_ok.mpr ⟨lb₂, ended₂, lb₂, [], rfl, rfl, by rw [List.append_nil]⟩
    refine ⟨lb₂, ended₁ ++ ended₂, text₂, ?_, hassembles₂, ?_, ?_, ?_, ?_⟩
    · rw [Fallible.exec_append]
      exact Fallible.andThen_eq_ok.mpr ⟨lb₁, ended₁, lb₂, ended₂, hrun₁, hrun₂, rfl⟩
    · rw [List.flatMap_append, List.append_assoc, hrestore₂, ← List.append_assoc, hrestore₁]
    · intro e he
      rcases List.mem_append.mp he with he | he
      · exact hmarks₁ e he
      · exact hmarks₂ e he
    · rw [hend, List.getLast?_concat]
      simp only [Option.mem_some_iff, forall_eq']
    · refine hquiet₁.append (exec_endedByte hrun₁) ⟨?_, fun _ _ _ => trivial⟩
      change lb₁.fullScreen c = false
      rw [fullScreen, hassembles₁.fs]
      rfl

/-- What a flush leaves to restore. -/
theorem Assembles.flush {lb : LineBuf} {text : List UInt8} (h : Assembles lb text) :
    lb.flush.2 = if text = [] then [] else [text] := by
  have hlen : lb.len = text.length := h.shows.len
  have hmoved : lb.moved = false := h.shows.moved
  by_cases htext : text = []
  · have hzero : ¬lb.len > 0 := by
      rw [hlen, htext]
      exact Nat.lt_irrefl 0
    simp only [LineBuf.flush, hmoved, Bool.false_eq_true, if_false, if_neg hzero, if_pos htext]
  · have hpos : lb.len > 0 := by
      rw [hlen]
      exact List.length_pos_of_ne_nil htext
    simp only [LineBuf.flush, hmoved, Bool.false_eq_true, if_false, if_pos hpos, if_neg htext,
      LineBuf.emit]
    exact congrArg (fun line => [line]) h.shows.text

/-- However text arrives, and however often its lines are broken, the lines of the filter and
of the flush behind it are the text again. -/
theorem calls_restore {bs : List UInt8} {chunks : List (List UInt8 × Bool)}
    (hchunks : chunks.flatMap Prod.fst = bs)
    (hbs : ∀ c ∈ bs, Prints c ∨ c = '\n'.toUInt8) :
    ∃ lb ended, Fallible.exec endedByte zeroed bs = .ok (lb, ended) ∧
      Fallible.exec Call.run zeroed (chunks.map (fun chunk => .bytes chunk.1 chunk.2) ++ [.flush]) =
        .ok (lb.flush.1, ended.map Ended.line ++ lb.flush.2) ∧
      (∀ e ∈ ended, e.ending = .overflow → wrapMark <:+ e.line) ∧
      (ended ++ lb.flush.2.map fun line => Ended.mk line .lineEnd).flatMap Ended.restore =
        terminated bs := by
  obtain ⟨lb, ended, text, hrun, hassembles, hrestore, hmarks, hend, hquiet⟩ := exec_restore hbs
  refine ⟨lb, ended, hrun, ?_, hmarks, ?_⟩
  · rw [← hchunks] at hquiet hrun
    rw [Fallible.exec_append]
    have hflush : Fallible.exec Call.run lb [.flush] = .ok (lb.flush.1, lb.flush.2 ++ []) := rfl
    rw [List.append_nil] at hflush
    exact Fallible.andThen_eq_ok.mpr ⟨lb, ended.map Ended.line, lb.flush.1, lb.flush.2,
      exec_chunks hquiet (exec_endedByte hrun), hflush, rfl⟩
  · rw [List.flatMap_append, hassembles.flush]
    by_cases htext : text = []
    · rw [if_pos htext, terminated_of_end (hend.mp htext), ← hrestore, htext]
      rfl
    · rw [if_neg htext, terminated_of_not_end fun h => htext (hend.mpr h), List.map_singleton,
        List.flatMap_singleton, ← hrestore, List.append_assoc]
      rfl

/-- Two lines, the second without its end. -/
theorem calls_restore_two : ∃ lb ended,
    Fallible.exec endedByte zeroed ['a'.toUInt8, '\n'.toUInt8, 'b'.toUInt8] = .ok (lb, ended) ∧
      Fallible.exec Call.run zeroed
        [.bytes ['a'.toUInt8] true, .bytes ['\n'.toUInt8, 'b'.toUInt8] false, .flush] =
          .ok (lb.flush.1, ended.map Ended.line ++ lb.flush.2) ∧
      (∀ e ∈ ended, e.ending = .overflow → wrapMark <:+ e.line) ∧
      (ended ++ lb.flush.2.map fun line => Ended.mk line .lineEnd).flatMap Ended.restore =
        ['a'.toUInt8, '\n'.toUInt8, 'b'.toUInt8, '\n'.toUInt8] :=
  @calls_restore ['a'.toUInt8, '\n'.toUInt8, 'b'.toUInt8]
    [(['a'.toUInt8], true), (['\n'.toUInt8, 'b'.toUInt8], false)] rfl
    (by
      intro c hc
      simp only [List.mem_cons, List.not_mem_nil, or_false] at hc
      rcases hc with rfl | rfl | rfl
      · exact Or.inl (Or.inr (by decide))
      · exact Or.inr rfl
      · exact Or.inl (Or.inr (by decide)))

end Basht.Filter
