import Basht.Filter.Safety
import Basht.Display.Owner
import Basht.Display.Tag

/-!
# What is written to the terminal

The records are the writes of `basht_display_line`. Whatever is filtered and drawn, in
whatever order, from the start of the console on:

* every record is the whole tag, the line and a newline (`Write.Formed`);
* the records of a stream are the lines of its own calls (`exec_callsOf`);
* the records of a task are numbered from 1 on, until its counter wraps (`Wrote.numbers`).
-/

namespace Basht.Display

open Basht.Filter

variable {ι κ : Type}

/-! ## Records -/

/-- A record: the stream, the number in the tag, and the line. -/
structure Record (ι : Type) where
  stream : ι
  number : Int32
  text : Line

/-- The record written by `basht_display_line`. -/
def Write.record : Write ι → Option (Record ι)
  | .line s n text _ => some ⟨s, n, text⟩
  | .erase _ | .redraw _ | .park _ => none

/-- The records among the writes. -/
def records (ws : List (Write ι)) : List (Record ι) := ws.filterMap Write.record

@[simp] theorem records_nil : records ([] : List (Write ι)) = [] := rfl

@[simp] theorem records_append (ws ws' : List (Write ι)) :
    records (ws ++ ws') = records ws ++ records ws' := List.filterMap_append

theorem records_eq_nil {ws : List (Write ι)} (h : ∀ w ∈ ws, w.record = none) : records ws = [] :=
  List.filterMap_eq_nil_iff.mpr h

/-- The bytes are those of the record, or of a bottom line erased and redrawn. -/
def Write.Formed (ident : ι → Ident) : Write ι → Prop
  | .line s n text bytes => bytes = builtinTag (ident s) n ++ text ++ ['\n'.toUInt8]
  | .erase bytes => ∀ b ∈ bytes, b = '\r'.toUInt8 ∨ b = 32
  | .redraw bytes => ∃ s n text, bytes <+: builtinTag (ident s) n ++ text
  | .park bytes => ∀ b ∈ bytes, b = 8

/-- The lines of the records of the stream `s`. -/
def textsOf [DecidableEq ι] (s : ι) (ws : List (Write ι)) : List Line :=
  ((records ws).filter (·.stream = s)).map Record.text

/-- The numbers of the records of the task with the counter `k`. -/
def numbersOf [DecidableEq κ] (lines : ι → Option κ) (k : κ) (ws : List (Write ι)) : List Int32 :=
  ((records ws).filter (lines ·.stream = some k)).map Record.number

@[simp] theorem textsOf_append [DecidableEq ι] (s : ι) (ws ws' : List (Write ι)) :
    textsOf s (ws ++ ws') = textsOf s ws ++ textsOf s ws' := by simp [textsOf]

@[simp] theorem numbersOf_append [DecidableEq κ] (lines : ι → Option κ) (k : κ)
    (ws ws' : List (Write ι)) :
    numbersOf lines k (ws ++ ws') = numbersOf lines k ws ++ numbersOf lines k ws' := by
  simp [numbersOf]

/-- The call that the operation makes on `s`. -/
def Op.callOn [DecidableEq ι] (s : ι) : Op ι → Option Call
  | .filter t call => if t = s then some call else none
  | .sync _ => none

/-- The calls on `s`, in their order. -/
def callsOf [DecidableEq ι] (s : ι) (ops : List (Op ι)) : List Call := ops.filterMap (Op.callOn s)

/-- The lines that `s` completes. -/
def linesOf [DecidableEq ι] (s : ι) (ops : List (Op ι)) : List Line :=
  match Fallible.exec Call.run LineBuf.zeroed (callsOf s ops) with
  | .error _ => []
  | .ok (_, lines) => lines

namespace Console

variable {c c' : Console ι κ} {s : ι} {ws : List (Write ι)}

/-! ## Single steps -/

/-- The console writes built-in tags, of these streams. -/
structure Built (ident : ι → Ident) (lines : ι → Option κ) (c : Console ι κ) : Prop where
  tagfmt : c.tagfmt = none
  ident : ∀ s, (c.stream s).toIdent = ident s
  lines : ∀ s, (c.stream s).lines = lines s

theorem built_start (ident : ι → Ident) (lines : ι → Option κ) (dflt : Option ι) :
    Built ident lines (start ident lines dflt) :=
  ⟨rfl, fun _ => rfl, fun _ => rfl⟩

theorem eraseBottom_record (c : Console ι κ) : ∀ w ∈ c.eraseBottom, w.record = none := by
  unfold eraseBottom
  split
  · simp
  · intro w hw
    obtain ⟨bytes, -, rfl⟩ := List.mem_map.mp hw
    rfl

theorem eraseBottom_formed (ident : ι → Ident) (c : Console ι κ) :
    ∀ w ∈ c.eraseBottom, w.Formed ident := by
  unfold eraseBottom
  split
  · simp
  · intro w hw
    obtain ⟨bytes, hbytes, rfl⟩ := List.mem_map.mp hw
    intro b hb
    rcases List.mem_append.mp hbytes with hbytes | hbytes
    · rcases List.mem_append.mp hbytes with hbytes | hbytes
      · rw [List.mem_singleton.mp hbytes] at hb
        exact Or.inl (List.mem_singleton.mp hb)
      · have hmem := List.mem_flatten_of_mem hbytes hb
        rw [flatten_padWrites] at hmem
        exact Or.inr (List.eq_of_mem_replicate hmem)
    · rw [List.mem_singleton.mp hbytes] at hb
      exact Or.inl (List.mem_singleton.mp hb)

theorem displaySync_record {cols : Nat} (h : c.displaySync cols = .ok (c', ws)) :
    ∀ w ∈ ws, w.record = none := by
  rcases displaySync_cases h with ⟨-, -, rfl⟩ | ⟨-, -, -, rfl⟩ | ⟨s, tag, text, -, -, -, -, rfl⟩
  · simp
  · exact eraseBottom_record c
  · intro w hw
    rcases List.mem_append.mp hw with hw | hw
    · rcases List.mem_append.mp hw with hw | hw
      · exact eraseBottom_record c w hw
      · rw [List.mem_singleton.mp hw]
        rfl
    · obtain ⟨bytes, -, rfl⟩ := List.mem_map.mp hw
      rfl

theorem displaySync_formed {ident : ι → Ident} {lines : ι → Option κ} (hc : c.Built ident lines)
    {cols : Nat} (h : c.displaySync cols = .ok (c', ws)) : ∀ w ∈ ws, w.Formed ident := by
  rcases displaySync_cases h with ⟨-, -, rfl⟩ | ⟨-, -, -, rfl⟩ | ⟨s, tag, text, -, -, hline, -, rfl⟩
  · simp
  · exact eraseBottom_formed ident c
  · rw [bottomLine_eq hc.tagfmt] at hline
    cases hline
    intro w hw
    rcases List.mem_append.mp hw with hw | hw
    · rcases List.mem_append.mp hw with hw | hw
      · exact eraseBottom_formed ident c w hw
      · rw [List.mem_singleton.mp hw, hc.ident s]
        exact ⟨s, _, _, List.take_prefix _ _⟩
    · obtain ⟨bytes, hbytes, rfl⟩ := List.mem_map.mp hw
      intro b hb
      have hmem := List.mem_flatten_of_mem hbytes hb
      rw [flatten_parkWrites] at hmem
      exact List.eq_of_mem_replicate hmem

/-- What is written between two consoles: formed writes, and for each task the numbers that
follow its counter. -/
structure Wrote [DecidableEq κ] (ident : ι → Ident) (lines : ι → Option κ) (c : Console ι κ)
    (ws : List (Write ι)) (c' : Console ι κ) : Prop where
  built : c'.Built ident lines
  formed : ∀ w ∈ ws, w.Formed ident
  numbers : ∀ k, ∃ m, c'.counter k = c.counter k + Int32.ofNat m ∧
    numbersOf lines k ws = (List.range m).map fun i => c.counter k + Int32.ofNat (i + 1)

section Steps

variable [DecidableEq κ] {ident : ι → Ident} {lines : ι → Option κ}

theorem wrote_of_record_eq_none (hc' : c'.Built ident lines) (hcounter : c'.counter = c.counter)
    (hformed : ∀ w ∈ ws, w.Formed ident) (hrecord : ∀ w ∈ ws, w.record = none) :
    Wrote ident lines c ws c' := by
  refine ⟨hc', hformed, fun k => ⟨0, ?_, ?_⟩⟩
  · rw [hcounter]
    exact (Int32.add_zero _).symm
  · rw [numbersOf, records_eq_nil hrecord]
    rfl

theorem Wrote.append {d : Console ι κ} {ws' : List (Write ι)} (h : Wrote ident lines c ws c')
    (h' : Wrote ident lines c' ws' d) : Wrote ident lines c (ws ++ ws') d := by
  refine ⟨h'.built, fun w hw => ?_, fun k => ?_⟩
  · rcases List.mem_append.mp hw with hw | hw
    · exact h.formed w hw
    · exact h'.formed w hw
  · obtain ⟨m, hm, hnum⟩ := h.numbers k
    obtain ⟨m', hm', hnum'⟩ := h'.numbers k
    refine ⟨m + m', ?_, ?_⟩
    · rw [hm', hm, Int32.ofNat_add, Int32.add_assoc]
    · rw [numbersOf_append, hnum, hnum', List.range_add, List.map_append, List.map_map, hm]
      congr 1
      refine List.map_congr_left fun i _ => ?_
      rw [Function.comp_apply, Nat.add_assoc, Int32.ofNat_add m, Int32.add_assoc]

/-- What every step writes between consoles with these tags, runs do. -/
theorem Built.wrote_exec {α : Type} {f : Console ι κ → α → Except StoreFault (Console ι κ ×
    List (Write ι))} {xs : List α} (hc : c.Built ident lines)
    (hstep : ∀ x ∈ xs, ∀ c c' ws, c.Built ident lines → f c x = .ok (c', ws) →
      Wrote ident lines c ws c')
    (h : Fallible.exec f c xs = .ok (c', ws)) : Wrote ident lines c ws c' :=
  Fallible.exec_law (Q := fun c ws c' => c.Built ident lines → Wrote ident lines c ws c')
    (fun c hc => wrote_of_record_eq_none hc rfl (by simp) (by simp))
    (fun c ws d ws' e h h' hc => (h hc).append (h' (h hc).built))
    (fun x hx c c' ws hf hc => hstep x hx c c' ws hc hf) h hc

theorem Built.wrote_displayLine (hc : c.Built ident lines) {text : Line}
    (htext : text.length ≤ CAP) (h : c.displayLine s text = .ok (c', ws)) :
    Wrote ident lines c ws c' := by
  rw [displayLine_eq hc.tagfmt htext] at h
  cases h
  have hrecords : ∀ n bytes,
      records (c.eraseBottom ++ [Write.line s n text bytes]) = [⟨s, n, text⟩] := by
    intro n bytes
    rw [records_append, records_eq_nil c.eraseBottom_record]
    rfl
  refine ⟨⟨hc.tagfmt, hc.ident, hc.lines⟩, fun w hw => ?_, fun k => ?_⟩
  · rcases List.mem_append.mp hw with hw | hw
    · exact eraseBottom_formed ident c w hw
    · rw [List.mem_singleton.mp hw, hc.ident s]
      rfl
  · rw [numbersOf, hrecords, countLine, hc.lines s]
    cases hs : lines s with
    | none => exact ⟨0, (Int32.add_zero _).symm, by simp [hs]⟩
    | some k' =>
      by_cases hk : k' = k
      · subst hk
        exact ⟨1, by simp, by simp [hs]⟩
      · refine ⟨0, ?_, by simp [hs, hk]⟩
        simp [Function.update_of_ne (Ne.symm hk)]

theorem Built.exec_displayLine_ok {texts : List Line} (hc : c.Built ident lines)
    (htexts : ∀ text ∈ texts, text.length ≤ CAP) :
    ∃ r, Fallible.exec (displayLine s) c texts = .ok r := by
  induction texts generalizing c with
  | nil => exact ⟨_, rfl⟩
  | cons text texts ih =>
    have hline := displayLine_eq (s := s) hc.tagfmt (htexts text (by simp))
    obtain ⟨⟨d, ws⟩, hrest⟩ := ih (hc.wrote_displayLine (htexts text (by simp)) hline).built
      fun t ht => htexts t (List.mem_cons_of_mem _ ht)
    exact ⟨_, Fallible.andThen_eq_ok.mpr ⟨_, _, d, ws, hline, hrest, rfl⟩⟩

variable [DecidableEq ι]

omit [DecidableEq κ] in
theorem Built.setLineBuf (hc : c.Built ident lines) (s : ι) (lb : LineBuf) :
    (c.setLineBuf s lb).Built ident lines := by
  have htags := sameTags_setLineBuf c s lb
  exact ⟨hc.tagfmt, fun t => (htags.ident t).symm.trans (hc.ident t),
    fun t => (htags.lines t).symm.trans (hc.lines t)⟩

theorem Built.filterCall_ok (hc : c.Built ident lines) {call : Call}
    (h : ∃ r, call.run (c.stream s).lb = .ok r) : ∃ r, c.filterCall s call = .ok r := by
  obtain ⟨⟨lb, texts⟩, hrun⟩ := h
  exact filterCall_ok_iff.mpr ⟨lb, texts, hrun, hc.exec_displayLine_ok (Call.run_lines hrun)⟩

theorem Built.wrote_filterCall (hc : c.Built ident lines) {call : Call}
    (h : c.filterCall s call = .ok (c', ws)) : Wrote ident lines c ws c' := by
  obtain ⟨lb, texts, d, hrun, hexec, rfl⟩ := filterCall_eq_ok.mp h
  have hwrote := (hc.setLineBuf s lb).wrote_exec (fun text htext c c' ws hc hline =>
    hc.wrote_displayLine (Call.run_lines hrun text htext) hline) hexec
  exact ⟨⟨hwrote.built.tagfmt, hwrote.built.ident, hwrote.built.lines⟩, hwrote.formed,
    hwrote.numbers⟩

theorem Built.wrote_step (hc : c.Built ident lines) {op : Op ι} (h : c.step op = .ok (c', ws)) :
    Wrote ident lines c ws c' := by
  cases op with
  | filter s call => exact hc.wrote_filterCall h
  | sync wsCol =>
    obtain ⟨hstream, hcounter, hfmt⟩ := displaySync_frame h
    refine wrote_of_record_eq_none ⟨hfmt.trans hc.tagfmt, ?_, ?_⟩ hcounter
      (displaySync_formed hc h) (displaySync_record h)
    · rw [hstream]
      exact hc.ident
    · rw [hstream]
      exact hc.lines

end Steps

/-! ## Runs -/

section Runs

variable [DecidableEq ι] [DecidableEq κ] {ident : ι → Ident} {lines : ι → Option κ}
  {ops : List (Op ι)}

/-- Displayed lines are records of the stream that displays them. -/
theorem textsOf_exec_displayLine (t : ι) {texts : List Line}
    (h : Fallible.exec (displayLine s) c texts = .ok (c', ws)) :
    textsOf t ws = if s = t then texts else [] := by
  induction texts generalizing c ws with
  | nil =>
    cases h
    simp [textsOf]
  | cons text texts ih =>
    obtain ⟨d, ws₁, d', ws₂, hline, hrest, hr⟩ := Fallible.andThen_eq_ok.mp h
    cases hr
    rw [textsOf_append, ih hrest]
    simp only [displayLine] at hline
    split at hline
    · cases hline
    · cases hline
      rw [textsOf, records_append, records_eq_nil c.eraseBottom_record]
      by_cases hst : s = t <;> simp [records, Write.record, hst]

/-- In one operation the line buffer of `s` makes the call on `s`, if it is one. -/
theorem exec_callOn (s : ι) {op : Op ι} (h : c.step op = .ok (c', ws)) :
    Fallible.exec Call.run (c.stream s).lb (op.callOn s).toList
      = .ok ((c'.stream s).lb, textsOf s ws) := by
  cases op with
  | sync wsCol =>
    obtain ⟨hstream, -, -⟩ := displaySync_frame h
    rw [hstream, textsOf, records_eq_nil (displaySync_record h)]
    rfl
  | filter t call =>
    obtain ⟨lb, texts, d, hrun, hexec, rfl⟩ := filterCall_eq_ok.mp h
    have hstream : ((d.displayPartial t).stream) = (c.setLineBuf t lb).stream :=
      (exec_displayLine hexec).2
    rw [textsOf_exec_displayLine s hexec, hstream]
    by_cases hts : t = s
    · subst hts
      simp [Op.callOn, setLineBuf, Fallible.exec_cons, hrun, Fallible.andThen]
    · simp [Op.callOn, setLineBuf, hts, Ne.symm hts]

/-- Each line buffer makes its own calls, and completes the lines of its records. -/
theorem exec_callsOf (s : ι) (h : Fallible.exec step c ops = .ok (c', ws)) :
    Fallible.exec Call.run (c.stream s).lb (callsOf s ops)
      = .ok ((c'.stream s).lb, textsOf s ws) :=
  Fallible.exec_project (fun c => (c.stream s).lb) (by simp [textsOf]) (textsOf_append s)
    (fun c op c' ws hstep => exec_callOn s hstep) h

theorem exec_step_ok (hc : c.Built ident lines)
    (h : ∀ s, ∃ r, Fallible.exec Call.run (c.stream s).lb (callsOf s ops) = .ok r) :
    ∃ r, Fallible.exec step c ops = .ok r := by
  induction ops generalizing c with
  | nil => exact ⟨_, rfl⟩
  | cons op ops ih =>
    have hsplit : ∀ s, callsOf s (op :: ops) = (op.callOn s).toList ++ callsOf s ops := by
      intro s
      cases hop : op.callOn s <;> simp [callsOf, hop]
    have hstep : ∃ r, c.step op = .ok r := by
      cases op with
      | sync wsCol => exact displaySync_ok _ fun s => ⟨_, bottomLine_eq hc.tagfmt⟩
      | filter s call =>
        obtain ⟨r, hr⟩ := h s
        rw [hsplit, Op.callOn, if_pos rfl] at hr
        obtain ⟨lb, texts, _, _, hrun, -, -⟩ := Fallible.andThen_eq_ok.mp hr
        exact hc.filterCall_ok ⟨_, hrun⟩
    obtain ⟨⟨d, ws⟩, hd⟩ := hstep
    obtain ⟨⟨d', ws'⟩, hrest⟩ := ih (hc.wrote_step hd).built fun s => by
      obtain ⟨r, hr⟩ := h s
      rw [hsplit, Fallible.exec_append, exec_callOn s hd] at hr
      obtain ⟨_, _, lb, texts, hfirst, hrest, -⟩ := Fallible.andThen_eq_ok.mp hr
      cases hfirst
      exact ⟨_, hrest⟩
    exact ⟨_, Fallible.andThen_eq_ok.mpr ⟨d, ws, d', ws', hd, hrest, rfl⟩⟩

/-- **The transcript.** While no store leaves a line buffer, what is written is records and
redrawn bottom lines. The records of a stream are the lines it completes, and those of a task
are numbered from 1 on, up to the largest number of its counter. -/
theorem transcript (ident : ι → Ident) (lines : ι → Option κ) (dflt : Option ι)
    (ops : List (Op ι)) (h : ∀ s, FilterSafe (callsOf s ops)) :
    ∃ c ws, Fallible.exec step (start ident lines dflt) ops = .ok (c, ws) ∧
      (∀ w ∈ ws, w.Formed ident) ∧ (∀ s, textsOf s ws = linesOf s ops) ∧
      ∀ k i n, (numbersOf lines k ws)[i]? = some n → i + 1 < 2147483648 →
        n.toInt = ((i + 1 : Nat) : Int) := by
  have hstart := built_start ident lines dflt
  obtain ⟨⟨c, ws⟩, hrun⟩ := exec_step_ok hstart fun s => (filterSafe_iff_exec _).mp (h s)
  have hwrote := hstart.wrote_exec (fun _ _ _ _ _ hc hstep => hc.wrote_step hstep) hrun
  refine ⟨c, ws, hrun, hwrote.formed, fun s => ?_, fun k i n hn hi => ?_⟩
  · have hcalls : Fallible.exec Call.run LineBuf.zeroed (callsOf s ops) =
        .ok ((c.stream s).lb, textsOf s ws) := exec_callsOf s hrun
    rw [linesOf, hcalls]
  · obtain ⟨m, -, hnum⟩ := hwrote.numbers k
    rw [hnum, List.getElem?_map] at hn
    obtain ⟨j, hj, rfl⟩ := Option.map_eq_some_iff.mp hn
    obtain ⟨-, rfl⟩ := List.getElem?_eq_some_iff.mp hj
    rw [List.getElem_range, start, Int32.zero_add, Int32.toInt_ofNat_of_lt hi]

end Runs

/-- Two streams of one task write a line each, with a sync in between. -/
theorem transcript_two_streams :
    ∃ (c : Console Bool Unit) (ws : List (Write Bool)),
      Fallible.exec step (start (fun _ => .unnamed) (fun _ => some ()) none)
          [.filter true (.bytes ['a'.toUInt8, '\n'.toUInt8] false), .sync none,
            .filter false (.bytes ['b'.toUInt8, '\n'.toUInt8] false)] = .ok (c, ws) ∧
        textsOf true ws = [['a'.toUInt8]] ∧ textsOf false ws = [['b'.toUInt8]] := by
  obtain ⟨c, ws, hrun, -, htexts, -⟩ := transcript (fun _ : Bool => .unnamed)
    (fun _ => some ()) none [.filter true (.bytes ['a'.toUInt8, '\n'.toUInt8] false), .sync none,
      .filter false (.bytes ['b'.toUInt8, '\n'.toUInt8] false)]
    (fun s => (filterSafe_iff_exec _).mpr (by cases s <;> exact ⟨_, rfl⟩))
  exact ⟨c, ws, hrun, htexts true, htexts false⟩

theorem exec_newlines (n : Nat) :
    Fallible.exec LineBuf.filterByte LineBuf.zeroed (List.replicate n '\n'.toUInt8)
      = .ok (LineBuf.zeroed, List.replicate n []) := by
  induction n with
  | zero => rfl
  | succ n ih =>
    have hbyte : LineBuf.zeroed.filterByte '\n'.toUInt8 = .ok (LineBuf.zeroed, [[]]) := rfl
    rw [List.replicate_succ, List.replicate_succ, Fallible.exec_cons, hbyte]
    simp only [Fallible.andThen, ih]
    rfl

theorem numbersOf_newlines (n : Nat) :
    ∃ (c : Console Unit Unit) (ws : List (Write Unit)),
      Fallible.exec step (start (fun _ => .unnamed) (fun _ => some ()) none)
          [.filter () (.bytes (List.replicate n '\n'.toUInt8) false)] = .ok (c, ws) ∧
        numbersOf (fun _ => some ()) () ws = (List.range n).map fun i => Int32.ofNat (i + 1) := by
  have hstart := built_start (fun _ : Unit => .unnamed) (fun _ => some ()) none
  have hcalls : callsOf () [.filter () (.bytes (List.replicate n '\n'.toUInt8) false)]
      = [.bytes (List.replicate n '\n'.toUInt8) false] := rfl
  have hexec : Fallible.exec Call.run LineBuf.zeroed
      (callsOf () [.filter () (.bytes (List.replicate n '\n'.toUInt8) false)])
        = .ok (LineBuf.zeroed, List.replicate n []) := by
    rw [hcalls, Fallible.exec_cons, Call.run_bytes, exec_newlines]
    simp [Fallible.andThen]
  obtain ⟨⟨c, ws⟩, hrun⟩ := exec_step_ok hstart fun _ => ⟨_, hexec⟩
  refine ⟨c, ws, hrun, ?_⟩
  obtain ⟨m, -, hnum⟩ :=
    (hstart.wrote_exec (fun _ _ _ _ _ hc hstep => hc.wrote_step hstep) hrun).numbers ()
  have htexts : textsOf () ws = List.replicate n [] :=
    (Prod.mk.inj (Except.ok.inj ((exec_callsOf () hrun).symm.trans hexec))).2
  have hlen := congrArg List.length htexts
  have hlen' := congrArg List.length hnum
  simp only [textsOf, numbersOf, List.length_map, List.length_replicate, List.length_range,
    decide_true, List.filter_true] at hlen hlen'
  rw [hnum, show m = n by omega]
  exact List.map_congr_left fun i _ => Int32.zero_add _

/-- The counter of a task wraps: line 2147483648 has a negative number. -/
theorem numbers_wrap :
    ∃ (c : Console Unit Unit) (ws : List (Write Unit)) (n : Int32),
      Fallible.exec step (start (fun _ => .unnamed) (fun _ => some ()) none)
          [.filter () (.bytes (List.replicate 2147483648 '\n'.toUInt8) false)] = .ok (c, ws) ∧
        (numbersOf (fun _ => some ()) () ws)[2147483647]? = some n ∧ n.toInt = -2147483648 := by
  obtain ⟨c, ws, hrun, hnum⟩ := numbersOf_newlines 2147483648
  refine ⟨c, ws, Int32.ofNat (2147483647 + 1), hrun, ?_, ?_⟩
  · rw [hnum, List.getElem?_map, List.getElem?_range (by decide)]
    rfl
  · rw [Int32.toInt_ofNat']
    decide

end Console

end Basht.Display
