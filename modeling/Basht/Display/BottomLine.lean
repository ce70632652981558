import Basht.Library.Terminal
import Basht.Display.Owner
import Basht.Display.Tag

/-!
# The bottom line on a terminal

`shown`, `clamp_cols` and the backspaces of `basht_display_sync` count the bytes that begin
a character. A TAB is one of them, but on the terminal it goes to the next tab stop. In a
run whose drawn TABs all advance one column (`Aligned`), the counts are those of the
terminal (`bottomLine_fits`): no sync wraps, the cursor stands where the owner's is, and
what is drawn is erased.
-/

namespace Basht.Display

open Basht.Filter

/-! ## Counts -/

theorem clampCols_snd_le (budget : Nat) (s : List UInt8) : (clampCols budget s).2 ≤ budget := by
  induction s generalizing budget with
  | nil => exact Nat.zero_le _
  | cons b s ih =>
    have h := ih budget
    have h' := ih (budget - 1)
    unfold clampCols
    split_ifs <;> simp only <;> omega

theorem countCols_clampCols (budget : Nat) (s : List UInt8) :
    countCols (s.take (clampCols budget s).1) = (clampCols budget s).2 := by
  induction s generalizing budget with
  | nil => rfl
  | cons b s ih =>
    unfold clampCols
    split_ifs with hlead hbudget
    · rfl
    · rw [List.take_succ_cons, countCols, List.countP_cons_of_pos hlead]
      exact congrArg (· + 1) (ih _)
    · rw [List.take_succ_cons, countCols, List.countP_cons_of_neg hlead]
      exact ih _

/-! ## Runs on a terminal -/

variable {ι κ : Type}

/-- A stream is updated, with a partial that is text, a line is displayed, or the bottom line
is synced. -/
inductive Event (ι : Type) where
  | update (s : ι) (lb : LineBuf) (isText : ∀ b ∈ lb.text, IsText b)
  | line (s : ι) (text : Line)
  | sync

/-- The bytes of the writes, in their order. -/
def written (ws : List (Write ι)) : List UInt8 := (ws.map Write.bytes).flatten

theorem written_append (ws ws' : List (Write ι)) :
    written (ws ++ ws') = written ws ++ written ws' := by
  simp [written]

theorem written_redraw (bytes : List UInt8) : written [(.redraw bytes : Write ι)] = bytes := by
  simp [written, Write.bytes]

theorem written_park (bss : List (List UInt8)) :
    written (bss.map (Write.park : List UInt8 → Write ι)) = bss.flatten := by
  simp [written, Function.comp_def, Write.bytes]

namespace Console

/-- The stream whose partial a sync draws. -/
def drawnStream (c : Console ι κ) : Option ι := c.bot <|> c.dflt

/-- The bytes of the bottom line `out` that a sync draws on `W` columns. -/
def drawn (W : Nat) (out : List UInt8) : Nat := (clampCols (W - 1) out).1

/-- The tags are text, and fit their buffer. -/
def TagsAreText (c : Console ι κ) : Prop :=
  ∀ s n, ∃ tag, makeTag c.tagfmt sizeofOut (c.stream s).toIdent n = .ok tag ∧ ∀ b ∈ tag, IsText b

section Run

variable [DecidableEq ι] [DecidableEq κ] {W : Nat}

/-- One event, with a terminal of `W` columns. -/
def event (W : Nat) (c : Console ι κ) : Event ι → Except StoreFault (Console ι κ × List (Write ι))
  | .update s lb _ => .ok ((c.setLineBuf s lb).displayPartial s, [])
  | .line s text => c.displayLine s text
  | .sync => c.displaySync (columns (some W))

/-- One event, and what its writes do to the terminal. -/
def onTerminal (W : Nat) (s : Console ι κ × Terminal W) (e : Event ι) :
    Except StoreFault ((Console ι κ × Terminal W) × List (Write ι)) :=
  match s.1.event W e with
  | .error e => .error e
  | .ok (c, ws) => .ok ((c, s.2.feed (written ws)), ws)

/-- A sync draws no TAB that advances more than one column. -/
def Aligned (s : Console ι κ × Terminal W) (e : Event ι) : Prop :=
  e = .sync → s.1.dirty = true → ∀ ts tag text, s.1.drawnStream = some ts →
    s.1.bottomLine ts = .ok (tag, text) →
      TabsAdvanceOne 0 ((tag ++ text).take (drawn W (tag ++ text)))

end Run

section Fits

variable {W : Nat} (hW : 0 < W)

/-- The column of the byte `pos` of the line `out`: that of the cursor behind the bytes before
it, on an empty row. -/
def columnOf (out : List UInt8) (pos : Nat) : Nat :=
  ((Terminal.empty hW 0).feed (out.take pos)).col

/-- The cursor is on the column of the cursor of the stream that is drawn, if that position
is drawn. -/
def Parked (c : Console ι κ) (t : Terminal W) : Prop :=
  ∀ ts tag text, c.drawnStream = some ts → c.bottomLine ts = .ok (tag, text) →
    tag.length + (c.stream ts).lb.cur ≤ drawn W (tag ++ text) →
      t.col = columnOf hW (tag ++ text) (tag.length + (c.stream ts).lb.cur)

/-- Erasing the bottom line leaves the row blank, and a sync stays in the row and parks the
cursor. -/
structure Correct (s : Console ι κ × Terminal W) (e : Event ι) : Prop where
  erased : (s.2.feed (written s.1.eraseBottom)).Blank
  erased_row : (s.2.feed (written s.1.eraseBottom)).row = s.2.row
  sync : e = .sync → ∃ c ws, s.1.displaySync (columns (some W)) = .ok (c, ws) ∧
    (s.2.feed (written ws)).row = s.2.row ∧ Parked hW s.1 (s.2.feed (written ws))

/-- The console knows how much of the terminal's row is drawn. -/
structure Fits (c : Console ι κ) (t : Terminal W) : Prop where
  tags : c.TagsAreText
  texts : ∀ s, ∀ b ∈ (c.stream s).lb.text, IsText b
  shown_lt : c.shown < W
  cells : ∀ j, c.shown ≤ j → j < W → t.cells j = 32
  home : c.shown = 0 → t.col = 0
  parked : c.dirty = false → Parked hW c t

variable {hW} {c c' : Console ι κ} {t : Terminal W} {ws : List (Write ι)}

theorem written_eraseBottom (c : Console ι κ) :
    written c.eraseBottom =
      if c.shown = 0 then [] else 13 :: List.replicate c.shown 32 ++ [13] := by
  unfold eraseBottom
  split
  · rfl
  · simp only [written, List.map_map, Function.comp_def, Write.bytes, List.map_id']
    rw [List.flatten_append, List.flatten_append, flatten_padWrites]
    rfl

theorem Fits.erased (h : Fits hW c t) :
    (t.feed (written c.eraseBottom)).Blank ∧ (t.feed (written c.eraseBottom)).row = t.row := by
  rw [written_eraseBottom]
  split
  · rename_i hshown
    exact ⟨⟨fun j hj => h.cells j (by omega) hj, h.home hshown⟩, rfl⟩
  · exact t.erase_blank h.shown_lt h.cells

theorem Fits.bottomLine_text (h : Fits hW c t) {s : ι} {tag text : List UInt8}
    (hline : c.bottomLine s = .ok (tag, text)) : ∀ b ∈ tag ++ text, IsText b := by
  obtain ⟨tag', htag, htext⟩ := h.tags s (c.pendingNumber s)
  rw [bottomLine, htag] at hline
  cases hline
  intro b hb
  rcases List.mem_append.mp hb with hb | hb
  · exact htext b hb
  · have hcut : (c.stream s).lb.data.upTo (min (c.stream s).lb.len (sizeofOut - tag.length))
        = (c.stream s).lb.text.take (min (c.stream s).lb.len (sizeofOut - tag.length)) := by
      rw [LineBuf.text, Buffer.upTo, Buffer.upTo, List.take_take,
        Nat.min_eq_left (Nat.min_le_left _ _)]
    rw [hcut] at hb
    exact h.texts s b (List.mem_of_mem_take hb)

/-- Where the cursor stands once the part `drawn` of a line is drawn on a blank row, and the
backspaces are written behind it. -/
theorem feed_drawn (hW : 0 < W) (hblank : t.Blank) {out : List UInt8} (hout : ∀ b ∈ out, IsText b)
    (htabs : TabsAdvanceOne 0 (out.take (drawn W out))) (pos : Nat) :
    let t' := t.feed (out.take (drawn W out) ++ (parkWrites out pos (drawn W out)).flatten)
    t'.row = t.row ∧ t'.col ≤ (clampCols (W - 1) out).2 ∧
      (∀ j, (clampCols (W - 1) out).2 ≤ j → t'.cells j = t.cells j) ∧
      (pos ≤ drawn W out → t'.col = columnOf hW out pos) := by
  have hchars : chars (out.take (drawn W out)) = (clampCols (W - 1) out).2 :=
    countCols_clampCols _ _
  have hle := clampCols_snd_le (W - 1) out
  obtain ⟨hrow, hcol, hcells⟩ := t.feed_text
    (fun b (hb : b ∈ out.take (drawn W out)) => hout b (List.mem_of_mem_take hb))
    (by rw [hblank.col]; exact htabs) (by rw [hblank.col, hchars]; omega)
  rw [hblank.col, hchars, Nat.zero_add] at hcol hcells
  intro t'
  have ht' : t' = (t.feed (out.take (drawn W out))).feed
      (parkWrites out pos (drawn W out)).flatten := t.feed_append _ _
  rw [flatten_parkWrites] at ht'
  obtain ⟨hrow', hcol', hcells'⟩ := (t.feed (out.take (drawn W out))).feed_backspaces
    (countCols ((out.drop pos).take (drawn W out - pos)))
  rw [← ht', hcol] at hcol'
  rw [← ht'] at hrow' hcells'
  refine ⟨hrow'.trans hrow, by omega, fun j hj => ?_, fun hpos => ?_⟩
  · rw [hcells']
    exact hcells j (Or.inr hj)
  · have hsplit : out.take (drawn W out)
        = out.take pos ++ (out.drop pos).take (drawn W out - pos) := by
      rw [← List.take_add, Nat.add_sub_cancel' hpos]
    rw [hsplit] at htabs hchars
    rw [chars_append] at hchars
    obtain ⟨-, hcolumn, -⟩ := (Terminal.empty hW 0).feed_text
      (fun b (hb : b ∈ out.take pos) => hout b (List.mem_of_mem_take hb)) htabs.of_append
      (by rw [show (Terminal.empty hW 0).col = 0 from rfl]; omega)
    rw [hcol', columnOf, hcolumn, show (Terminal.empty hW 0).col = 0 from rfl]
    change _ - chars _ = _
    omega

theorem Fits.sync_ok (h : Fits hW c t) (cols : Nat) : ∃ r, c.displaySync cols = .ok r := by
  refine displaySync_ok cols fun s => ?_
  obtain ⟨tag, htag, -⟩ := h.tags s (c.pendingNumber s)
  rw [bottomLine, htag]
  exact ⟨_, rfl⟩

theorem columns_some {W : Nat} (hW : 0 < W) : columns (some W) = W := if_pos hW

/-- A sync that draws no long TAB stays in the row, parks the cursor, and knows what it has
drawn. -/
theorem Fits.sync (h : Fits hW c t)
    (haligned : c.dirty = true → ∀ ts tag text, c.drawnStream = some ts →
      c.bottomLine ts = .ok (tag, text) →
        TabsAdvanceOne 0 ((tag ++ text).take (drawn W (tag ++ text))))
    (hsync : c.displaySync (columns (some W)) = .ok (c', ws)) :
    Fits hW c' (t.feed (written ws)) ∧ (t.feed (written ws)).row = t.row ∧
      Parked hW c (t.feed (written ws)) := by
  obtain ⟨herased, herased_row⟩ := h.erased
  rw [columns_some hW] at hsync
  rcases displaySync_cases hsync with ⟨hdirty, rfl, rfl⟩ | ⟨hdirty, hnone, rfl, rfl⟩ |
    ⟨ts, tag, text, hdirty, hts, hline, rfl, rfl⟩
  · exact ⟨h, rfl, h.parked hdirty⟩
  · have hparked : Parked hW c (t.feed (written c.eraseBottom)) := by
      intro ts tag text hts
      rw [drawnStream, hnone] at hts
      cases hts
    exact ⟨⟨h.tags, h.texts, hW, fun j _ hj => herased.cells j hj, fun _ => herased.col,
      fun _ => hparked⟩, herased_row, hparked⟩
  · have hwritten : t.feed (written (c.eraseBottom ++
        [.redraw ((tag ++ text).take (drawn W (tag ++ text)))] ++
          (parkWrites (tag ++ text) (tag.length + (c.stream ts).lb.cur)
            (drawn W (tag ++ text))).map .park))
        = (t.feed (written c.eraseBottom)).feed ((tag ++ text).take (drawn W (tag ++ text)) ++
          (parkWrites (tag ++ text) (tag.length + (c.stream ts).lb.cur)
            (drawn W (tag ++ text))).flatten) := by
      rw [written_append, written_append, written_redraw, written_park, List.append_assoc,
        Terminal.feed_append]
    obtain ⟨hrow, hcol, hcells, hcursor⟩ := feed_drawn hW herased (h.bottomLine_text hline)
      (haligned hdirty ts tag text hts hline) (tag.length + (c.stream ts).lb.cur)
    have hle := clampCols_snd_le (W - 1) (tag ++ text)
    rw [← hwritten] at hrow hcol hcells hcursor
    have hparked : Parked hW c (t.feed (written (c.eraseBottom ++
        [.redraw ((tag ++ text).take (drawn W (tag ++ text)))] ++
          (parkWrites (tag ++ text) (tag.length + (c.stream ts).lb.cur)
            (drawn W (tag ++ text))).map .park))) := by
      intro ts' tag' text' hts' hline' hpos
      cases hts.symm.trans hts'
      cases hline.symm.trans hline'
      exact hcursor hpos
    refine ⟨⟨h.tags, h.texts, ?_, fun j hj hjW => ?_, fun hshown => ?_, fun _ => hparked⟩,
      hrow.trans herased_row, hparked⟩
    · simp only
      omega
    · exact (hcells j hj).trans (herased.cells j hjW)
    · exact Nat.le_zero.mp (Nat.le_trans hcol (Nat.le_of_eq hshown))

end Fits

section Events

variable {W : Nat} {hW : 0 < W} {c : Console ι κ} {t : Terminal W}

theorem fits_start (hW : 0 < W) {ident : ι → Ident} {lines : ι → Option κ} {dflt : Option ι}
    {tagfmt : Option (List UInt8)}
    (htags : ((start ident lines dflt).setTagfmt tagfmt).TagsAreText) :
    Fits hW ((start ident lines dflt).setTagfmt tagfmt) (.empty hW 0) := by
  refine ⟨htags, fun s b hb => ?_, hW, fun j _ _ => rfl, fun _ => rfl,
    fun hdirty ts tag text hts => ?_⟩
  · cases hb
  · cases dflt with
    | none => cases hts
    | some s => cases hdirty

theorem Fits.update [DecidableEq ι] (h : Fits hW c t) (s : ι) {lb : LineBuf}
    (htext : ∀ b ∈ lb.text, IsText b) :
    Fits hW ((c.setLineBuf s lb).displayPartial s) t := by
  have hident : ∀ u, ((c.setLineBuf s lb).stream u).toIdent = (c.stream u).toIdent :=
    fun u => ((sameTags_setLineBuf c s lb).ident u).symm
  refine ⟨fun u n => ?_, fun u => ?_, h.shown_lt, h.cells, h.home, fun hdirty => ?_⟩
  · change ∃ tag, makeTag _ _ ((c.setLineBuf s lb).stream u).toIdent n = .ok tag ∧ _
    rw [hident]
    exact h.tags u n
  · by_cases hu : u = s
    · subst hu
      simpa [displayPartial, setLineBuf] using htext
    · simpa [displayPartial, setLineBuf, hu] using h.texts u
  · cases hdirty

theorem Fits.line [DecidableEq κ] (h : Fits hW c t) (s : ι) (text : Line) :
    ∃ c' ws, c.displayLine s text = .ok (c', ws) ∧ Fits hW c' (t.feed (written ws)) := by
  obtain ⟨tag, htag, -⟩ := h.tags s (c.countLine s).1
  simp only [displayLine, htag]
  refine ⟨_, _, rfl, ?_⟩
  have hblank := (t.feed (written c.eraseBottom)).feed_lf_blank
    (tag ++ text.take (min text.length (sizeofOut - tag.length - 1)))
  rw [← Terminal.feed_append] at hblank
  rw [written_append]
  simp only [written, List.map_cons, List.map_nil, List.flatten_cons, List.flatten_nil,
    List.append_nil, Write.bytes] at hblank ⊢
  refine ⟨h.tags, h.texts, hW, fun j _ hj => hblank.cells j hj, fun _ => hblank.col,
    fun hdirty => ?_⟩
  cases hdirty

theorem Fits.correct {s : Console ι κ × Terminal W} (h : Fits hW s.1 s.2) (e : Event ι)
    (haligned : Aligned s e) : Correct hW s e := by
  refine ⟨h.erased.1, h.erased.2, fun he => ?_⟩
  obtain ⟨⟨c', ws⟩, hsync⟩ := h.sync_ok (columns (some W))
  exact ⟨c', ws, hsync, (h.sync (haligned he) hsync).2⟩

variable [DecidableEq ι] [DecidableEq κ]

theorem Fits.onTerminal {s : Console ι κ × Terminal W} (h : Fits hW s.1 s.2) (e : Event ι)
    (haligned : Aligned s e) :
    ∃ s' ws, onTerminal W s e = .ok (s', ws) ∧ Fits hW s'.1 s'.2 := by
  unfold Console.onTerminal
  cases e with
  | update u lb htext => exact ⟨_, _, rfl, h.update u htext⟩
  | line u text =>
    obtain ⟨c', ws, hline, hfits⟩ := h.line u text
    simp only [event, hline]
    exact ⟨_, _, rfl, hfits⟩
  | sync =>
    obtain ⟨⟨c', ws⟩, hsync⟩ := h.sync_ok (columns (some W))
    simp only [event, hsync]
    exact ⟨_, _, rfl, (h.sync (haligned rfl) hsync).1⟩

/-- **The bottom line.** From an empty row on, in a run whose syncs draw no TAB that advances
more than one column: the bottom line is always erased, no sync wraps, and the cursor is
parked. -/
theorem bottomLine_fits (hW : 0 < W) (ident : ι → Ident) (lines : ι → Option κ) (dflt : Option ι)
    (tagfmt : Option (List UInt8)) (events : List (Event ι))
    (htags : ((start ident lines dflt).setTagfmt tagfmt).TagsAreText)
    (haligned : Fallible.Meets (Console.onTerminal W) Aligned
      ((start ident lines dflt).setTagfmt tagfmt, .empty hW 0) events) :
    (∃ r, Fallible.exec (Console.onTerminal W)
      ((start ident lines dflt).setTagfmt tagfmt, .empty hW 0) events
        = .ok r) ∧
    Fallible.Meets (Console.onTerminal W) (Correct hW)
      ((start ident lines dflt).setTagfmt tagfmt, .empty hW 0) events :=
  Fallible.Meets.of_invariant (I := fun s => Fits hW s.1 s.2)
    (fun _ e h haligned => h.onTerminal e haligned) (fun _ e h haligned => h.correct e haligned)
    (fits_start hW htags) haligned

end Events

/-! ## Calls of the filter as events -/

section Calls

variable [DecidableEq ι] [DecidableEq κ]

theorem displayLine_setLineBuf (c : Console ι κ) (s t : ι) (lb : LineBuf) (text : Line) :
    (c.setLineBuf s lb).displayLine t text =
      (c.displayLine t text).map fun r => (r.1.setLineBuf s lb, r.2) := by
  have htags := sameTags_setLineBuf c s lb
  have hcount : (c.setLineBuf s lb).countLine t = c.countLine t := by
    rw [countLine, countLine, htags.lines t]
    rfl
  simp only [displayLine, hcount, ← htags.ident t, ← htags.tagfmt]
  cases makeTag c.tagfmt sizeofOut (c.stream t).toIdent (c.countLine t).1 <;> rfl

theorem exec_displayLine_setLineBuf (c : Console ι κ) (s t : ι) (lb : LineBuf)
    (texts : List Line) :
    Fallible.exec (displayLine t) (c.setLineBuf s lb) texts =
      (Fallible.exec (displayLine t) c texts).map fun r => (r.1.setLineBuf s lb, r.2) := by
  induction texts generalizing c with
  | nil => rfl
  | cons text texts ih =>
    rw [Fallible.exec_cons, Fallible.exec_cons, displayLine_setLineBuf]
    cases c.displayLine t text with
    | error e => rfl
    | ok r =>
      simp only [Except.map, Fallible.andThen, ih]
      cases Fallible.exec (displayLine t) r.1 texts <;> rfl

theorem exec_event_line (W : Nat) (c : Console ι κ) (s : ι) (texts : List Line) :
    Fallible.exec (event W) c (texts.map (Event.line s)) =
      Fallible.exec (displayLine s) c texts := by
  induction texts generalizing c with
  | nil => rfl
  | cons text texts ih =>
    rw [List.map_cons, Fallible.exec_cons, Fallible.exec_cons]
    exact congrArg _ (funext fun d => ih d)

/-- A call of the filter is a run of events: the lines it completes, and its update. -/
theorem exec_event_filterCall {c c' : Console ι κ} {s : ι} {call : Call} {ws : List (Write ι)}
    (W : Nat) (h : c.filterCall s call = .ok (c', ws)) :
    ∃ lb texts, call.run (c.stream s).lb = .ok (lb, texts) ∧ ∀ htext,
      Fallible.exec (event W) c (texts.map (Event.line s) ++ [.update s lb htext])
        = .ok (c', ws) := by
  obtain ⟨lb, texts, d, hrun, hexec, rfl⟩ := filterCall_eq_ok.mp h
  refine ⟨lb, texts, hrun, fun htext => ?_⟩
  rw [exec_displayLine_setLineBuf] at hexec
  rw [Fallible.exec_append, exec_event_line]
  cases hlines : Fallible.exec (displayLine s) c texts with
  | error e =>
    rw [hlines] at hexec
    cases hexec
  | ok r =>
    rw [hlines] at hexec
    cases hexec
    simp [Fallible.exec_cons, Fallible.andThen, event]

end Calls

/-! ## Text without and with TABs -/

/-- A line buffer with the partial `text` and the cursor `cur`. -/
def partialLine (text : List UInt8) (h : 0 + text.length ≤ CAP) (cur : Nat) : LineBuf :=
  { LineBuf.zeroed with
    data := (Buffer.fill CAP 0).overwrite 0 text h
    len := text.length
    cur := cur }

theorem text_partialLine (text : List UInt8) (h : 0 + text.length ≤ CAP) (cur : Nat) :
    (partialLine text h cur).text = text := by
  simp [partialLine, LineBuf.text, Buffer.upTo, Buffer.overwrite]

theorem partialLine_isText {text : List UInt8} (hb : ∀ b ∈ text, IsText b)
    (h : 0 + text.length ≤ CAP) (cur : Nat) : ∀ b ∈ (partialLine text h cur).text, IsText b := by
  rw [text_partialLine]
  exact hb

theorem decimal_isText (n : Int) : ∀ b ∈ decimal n, IsText b := by
  have hdigits : ∀ b ∈ (Nat.toDigits 10 n.natAbs).map Char.toUInt8, IsText b := by
    intro b hb
    obtain ⟨ch, hch, rfl⟩ := List.mem_map.mp hb
    have hdigit := Nat.isDigit_of_mem_toDigits (by decide) (by decide) hch
    simp only [Char.isDigit, ge_iff_le, Bool.and_eq_true, decide_eq_true_eq,
      UInt32.le_iff_toNat_le] at hdigit
    have hval : ch.toUInt8.toNat = ch.val.toNat := by
      rw [Char.toUInt8, UInt32.toNat_toUInt8]
      exact Nat.mod_eq_of_lt (Nat.lt_of_le_of_lt hdigit.2 (by decide))
    refine Or.inr ⟨UInt8.le_iff_toNat_le.mpr ?_, fun h => ?_⟩
    · rw [hval]
      exact Nat.le_trans (by decide) hdigit.1
    · rw [h] at hval
      rw [← hval] at hdigit
      exact absurd hdigit.2 (by decide)
  intro b hb
  unfold decimal at hb
  split at hb
  · rcases List.mem_cons.mp hb with rfl | hb
    · decide
    · exact hdigits b hb
  · exact hdigits b hb

theorem builtinTag_isText {ts : Ident} (hname : ∀ b ∈ ts.name, IsText b)
    (hmark : ts.mark ≠ 0 → IsText ts.mark) (n : Int32) : ∀ b ∈ builtinTag ts n, IsText b := by
  have hmark' : ∀ b ∈ (if ts.mark ≠ 0 then [ts.mark] else []), IsText b := by
    split
    · rename_i h
      intro b hb
      rw [List.mem_singleton.mp hb]
      exact hmark h
    · nofun
  simp only [builtinTag, List.forall_mem_cons, List.forall_mem_append]
  exact ⟨⟨⟨⟨⟨by decide, hname⟩, by decide, decimal_isText _, hmark'⟩, by decide, decimal_isText _⟩,
    by decide, decimal_isText _⟩, by decide, by decide, nofun⟩

theorem tagsAreText_of_builtin {c : Console ι κ} (hfmt : c.tagfmt = none)
    (hname : ∀ s, ∀ b ∈ (c.stream s).name, IsText b)
    (hmark : ∀ s, (c.stream s).mark ≠ 0 → IsText (c.stream s).mark) : c.TagsAreText := by
  intro s n
  rw [hfmt]
  exact ⟨_, makeTag_builtin _ n, builtinTag_isText (hname s) (hmark s) n⟩

/-- A console of one unnamed stream, with the built-in template. -/
def single : Console Unit Empty :=
  (start (fun _ => .unnamed) (fun _ => none) none).setTagfmt none

theorem single_tagsAreText : single.TagsAreText :=
  tagsAreText_of_builtin rfl (fun _ => nofun) (fun _ h => absurd rfl h)

/-- Behind the nine columns of the tag, `abcdef` ends one column before a tab stop. -/
theorem bottomLine_fits_tab :
    Fallible.Meets (Console.onTerminal 80) (Correct (by decide)) (single, .empty (by decide) 0)
      [.update () (partialLine [97, 98, 99, 100, 101, 102, 9, 103] (by decide) 3)
        (partialLine_isText (by simp [IsText]) (by decide) 3), .sync] := by
  refine (bottomLine_fits _ (fun _ => .unnamed) (fun _ => none) none none _
    single_tagsAreText ?_).2
  refine ⟨nofun, fun s ws hupdate => ?_⟩
  cases hupdate
  refine ⟨fun _ _ ts tag text hts hline => ?_, fun _ _ _ => trivial⟩
  rw [bottomLine_eq rfl] at hline
  cases ts
  cases hline
  decide

/-- Behind the tag, TAB goes to column 16: `c` is left on the row when it is erased. -/
theorem bottomLine_left_behind :
    ∃ (c : Console Unit Empty) (t : Terminal 80) (ws : List (Write Unit)),
      Fallible.exec (Console.onTerminal 80) (single, .empty (by decide) 0)
          [.update () (partialLine [9, 99] (by decide) 2)
            (partialLine_isText (by simp [IsText]) (by decide) 2), .sync] = .ok ((c, t), ws) ∧
        (t.feed (written c.eraseBottom)).cells 16 = 99 := by
  refine ⟨_, _, _, rfl, ?_⟩
  rw [written_eraseBottom]
  rfl

end Console

end Basht.Display
