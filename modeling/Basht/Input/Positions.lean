import Basht.Input.Streams

/-!
# What the operations on streams keep

`Good` says what holds between commands: only the stream of the input may own its buffer, and
what is unread there is the text before the offset of the input's open file. An operation that
`Keeps` it moves no open file's logical position: the offset less what is unread. Where the
table changes under the input, nothing may be unread (`Quiet`).
-/

namespace Basht.Input.State

open Descriptors

variable {s s' t : State} {fd n q : Int} {bp : BufferedStream} {maxSize : Nat}

/-! ## The invariant -/

/-- The buffer is not freed, and what is unread is the text of the open file of the input. -/
structure Live (s : State) (bp : BufferedStream) : Prop where
  inputp_le : bp.inputp ≤ bp.used
  heap : (s.heap bp.buffer).isSome
  text : bp.inputp < bp.used → ∃ f data, s.table.file s.bashInput = some f ∧
    s.heap bp.buffer = some data ∧ bp.used ≤ (s.file f).offset ∧
    ∀ i, bp.inputp ≤ i → i < bp.used → ∃ c, data[i]? = some c ∧
      (s.file f).text[(s.file f).offset - bp.used + i]? = some c

structure Good (s : State) : Prop where
  files : ∀ fd f, s.table.file fd = some f → f < s.files.length
  records : ∀ fd, s.table.file fd = none → s.buffers fd = none
  allocated : ∀ fd bp, s.buffers fd = some bp → bp.buffer < s.heapCount
  shared : ∀ fd bp, s.buffers fd = some bp → fd ≠ s.bashInput → bp.shared = true
  input : ∀ bp, s.buffers s.bashInput = some bp → Live s bp

/-- The offset of an open file, less what is unread if the input stands on it. -/
def position (s : State) (f : Nat) : Int :=
  (s.file f).offset - if s.table.file s.bashInput = some f then (s.unread : Int) else 0

/-- The table may change at `fd`. -/
def Quiet (s : State) (fd : Int) : Prop := s.bashInput = fd → s.unread = 0

/-- A copy of the stream of `fd` has nothing to read. -/
def Spent (s : State) (fd : Int) : Prop :=
  ∀ bp, s.buffers fd = some bp → bp.inputp = bp.used ∧ (s.heap bp.buffer).isSome

structure Keeps (s s' : State) : Prop where
  good : Good s'
  count : s.files.length ≤ s'.files.length
  text : ∀ f, f < s.files.length → (s'.file f).text = (s.file f).text
  position : ∀ f, s'.position f = s.position f
  input : s'.unread = 0 ∨ s'.bashInput = s.bashInput ∧ s.unread ≠ 0

/-- The undo lists stay as they are, too. -/
structure Carries (s s' : State) : Prop extends Keeps s s' where
  undoList : s'.undoList = s.undoList
  execUndoList : s'.execUndoList = s.execUndoList

theorem unread_or (hinput : s'.bashInput = s.bashInput) (hunread : s'.unread = s.unread) :
    s'.unread = 0 ∨ s'.bashInput = s.bashInput ∧ s.unread ≠ 0 := by
  by_cases h : s.unread = 0
  · exact Or.inl (hunread.trans h)
  · exact Or.inr ⟨hinput, h⟩

theorem Keeps.refl (h : Good s) : Keeps s s :=
  ⟨h, Nat.le_refl _, fun _ _ => rfl, fun _ => rfl, unread_or rfl rfl⟩

theorem Keeps.trans (h : Keeps s s') (h' : Keeps s' t) : Keeps s t where
  good := h'.good
  count := Nat.le_trans h.count h'.count
  text f hf := (h'.text f (Nat.lt_of_lt_of_le hf h.count)).trans (h.text f hf)
  position f := (h'.position f).trans (h.position f)
  input := by
    rcases h'.input with hzero | ⟨hinput, hne⟩
    · exact Or.inl hzero
    · rcases h.input with hzero | ⟨hinput', hne'⟩
      · exact absurd hzero hne
      · exact Or.inr ⟨hinput.trans hinput', hne'⟩

theorem Carries.refl (h : Good s) : Carries s s := ⟨.refl h, rfl, rfl⟩

theorem Carries.trans (h : Carries s s') (h' : Carries s' t) : Carries s t :=
  ⟨h.toKeeps.trans h'.toKeeps, h'.undoList.trans h.undoList, h'.execUndoList.trans h.execUndoList⟩

theorem Keeps.unread (h : Keeps s s') (hzero : s.unread = 0) : s'.unread = 0 := by
  rcases h.input with hzero' | ⟨-, hne⟩
  · exact hzero'
  · exact absurd hzero hne

theorem Keeps.quiet (h : Keeps s s') (hq : Quiet s fd) : Quiet s' fd := by
  intro hinput
  rcases h.input with hzero | ⟨hsame, hne⟩
  · exact hzero
  · exact absurd (hq (hsame.symm.trans hinput)) hne

theorem quiet_of_unread (h : s.unread = 0) (fd : Int) : Quiet s fd := fun _ => h

theorem unread_of_buffers (h : s.buffers s.bashInput = some bp) :
    s.unread = bp.used - bp.inputp := by
  rw [State.unread, h]

theorem unread_congr (h : s'.buffers s'.bashInput = s.buffers s.bashInput) :
    s'.unread = s.unread := by
  unfold State.unread
  rw [h]

theorem unread_of_none (h : s.buffers s.bashInput = none) : s.unread = 0 := by
  rw [State.unread, h]

/-- What is unread needs an open descriptor. -/
theorem quiet_of_buffers (h : s.buffers fd = none) : Quiet s fd := by
  rintro rfl
  exact unread_of_none h

theorem Good.quiet_of_closed (h : Good s) (hfd : s.table.file fd = none) : Quiet s fd :=
  quiet_of_buffers (h.records fd hfd)

theorem position_of_unread (h : s.unread = 0) (f : Nat) : s.position f = (s.file f).offset := by
  unfold position
  rw [h]
  split
  · exact Int.sub_zero _
  · exact Int.sub_zero _

/-- Nothing is unread before a change and after it. -/
theorem Keeps.of_unread (hgood : Good s') (hzero : s.unread = 0) (hzero' : s'.unread = 0)
    (hfiles : s'.files = s.files) : Keeps s s' where
  good := hgood
  count := Nat.le_of_eq (congrArg List.length hfiles.symm)
  text f _ := by rw [file, file, hfiles]
  position f := by
    rw [position_of_unread hzero', position_of_unread hzero, file, file, hfiles]
  input := Or.inl hzero'

/-! ## The table -/

/-- An entry of the table that the input does not stand on, or that stays the same, is set. -/
theorem Good.keeps_set {o : Option Nat} (h : Good s)
    (hq : Quiet s fd ∨ s.table.set fd o = s.table)
    (ho : ∀ f, o = some f → f < s.files.length) (hrecord : o = none → s.buffers fd = none)
    (c : Int → Bool) (u v : List Redirect) :
    Keeps s { s with table := s.table.set fd o, clexec := c, undoList := u, execUndoList := v } := by
  have hfiles : ∀ q f, (s.table.set fd o).file q = some f → f < s.files.length := by
    intro q f hf
    rcases Table.eq_some_of_set hf with ⟨-, hof⟩ | hold
    · exact ho f hof
    · exact h.files q f hold
  have hrecords : ∀ q, (s.table.set fd o).file q = none → s.buffers q = none := by
    intro q hnone
    by_cases heq : q = fd
    · rw [heq] at hnone ⊢
      cases hof : o with
      | none => exact hrecord hof
      | some f =>
        by_cases hrange : s.table.InRange fd
        · rw [Table.set_file_self hrange, hof] at hnone
          cases hnone
        · apply h.records
          by_contra hopen
          exact hrange (s.table.bounded fd hopen)
    · exact h.records q ((Table.set_file_ne heq).symm.trans hnone)
  have hinput : s.unread = 0 ∨ (s.table.set fd o).file s.bashInput = s.table.file s.bashInput := by
    rcases hq with hq | hsame
    · by_cases heq : s.bashInput = fd
      · exact Or.inl (hq heq)
      · exact Or.inr (Table.set_file_ne heq)
    · rw [hsame]
      exact Or.inr rfl
  refine ⟨⟨hfiles, hrecords, h.allocated, h.shared, fun bp hbp => ?_⟩, Nat.le_refl _,
    fun _ _ => rfl, fun f => ?_, unread_or rfl rfl⟩
  · have hlive := h.input bp hbp
    refine ⟨hlive.inputp_le, hlive.heap, fun hlt => ?_⟩
    rcases hinput with hzero | hsame
    · have hun : bp.used - bp.inputp = 0 := (unread_of_buffers (s := s) hbp).symm.trans hzero
      omega
    · obtain ⟨f, data, hf, hdata⟩ := hlive.text hlt
      exact ⟨f, data, hsame.trans hf, hdata⟩
  · rcases hinput with hzero | hsame
    · rw [position_of_unread (s := s) hzero]
      refine position_of_unread ?_ f
      exact hzero
    · change _ - (if (s.table.set fd o).file s.bashInput = some f then (s.unread : Int) else 0) = _
      rw [hsame]
      rfl

/-- The copy of an open descriptor. -/
theorem Good.carries_copyFd (h : Good s) {f : Nat} (hfd : s.table.file fd = some f)
    (hq : Quiet s q ∨ s.table.file q = some f) : Carries s (s.copyFd fd q) := by
  refine ⟨?_, rfl, rfl⟩
  refine h.keeps_set ?_ (fun g hg => h.files fd g hg) (fun hnone => ?_) _ s.undoList s.execUndoList
  · exact hq.imp_right fun hsame => Table.set_self (hsame.trans hfd.symm)
  · cases hfd.symm.trans hnone

theorem Good.carries_close (h : Good s) (hrecord : s.buffers fd = none) :
    Carries s (s.close fd) :=
  ⟨h.keeps_set (Or.inl (quiet_of_buffers hrecord)) (fun f hf => by cases hf) (fun _ => hrecord)
    s.clexec s.undoList s.execUndoList, rfl, rfl⟩

/-- The flags and lists are not part of the invariant. -/
theorem Good.keeps_flags (h : Good s) (c : Int → Bool) (u v : List Redirect) :
    Keeps s { s with clexec := c, undoList := u, execUndoList := v } :=
  ⟨⟨h.files, h.records, h.allocated, h.shared, fun bp hbp =>
    ⟨(h.input bp hbp).inputp_le, (h.input bp hbp).heap, (h.input bp hbp).text⟩⟩,
    Nat.le_refl _, fun _ _ => rfl, fun _ => rfl, unread_or rfl rfl⟩

theorem Good.carries_setClexec (h : Good s) (b : Bool) : Carries s (s.setClexec fd b) :=
  ⟨h.keeps_flags _ s.undoList s.execUndoList, rfl, rfl⟩

/-! ## Files -/

def addFile (s : State) (text : List UInt8) : State :=
  { s with files := s.files ++ [⟨text, 0⟩] }

theorem file_addFile (s : State) (text : List UInt8) (f : Nat) :
    (s.addFile text).file f = if f = s.files.length then ⟨text, 0⟩ else s.file f := by
  unfold file addFile
  simp only [List.getD_eq_getElem?_getD]
  split
  · rename_i heq
    rw [heq, List.getElem?_concat_length]
    rfl
  · rename_i hne
    by_cases hlt : f < s.files.length
    · rw [List.getElem?_append_left hlt]
    · have hlength : (s.files ++ [OpenFile.mk text 0]).length ≤ f := by
        rw [List.length_append, List.length_singleton]
        omega
      rw [List.getElem?_eq_none hlength, List.getElem?_eq_none (by omega)]

theorem file_setOffset (s : State) {f : Nat} (hf : f < s.files.length) (offset g : Nat) :
    (s.setOffset f offset).file g =
      if g = f then { s.file f with offset := offset } else s.file g := by
  unfold file setOffset
  simp only [List.getD_eq_getElem?_getD, List.getElem?_set]
  by_cases heq : g = f
  · rw [if_pos heq.symm, if_pos hf, if_pos heq]
    rfl
  · rw [if_neg (Ne.symm heq), if_neg heq]

/-- A file beyond the table of open files stands at its start. -/
theorem file_length (s : State) : s.file s.files.length = ⟨[], 0⟩ := by
  unfold file
  rw [List.getD_eq_getElem?_getD, List.getElem?_eq_none (Nat.le_refl _)]
  rfl

theorem file_addFile_of_lt {f : Nat} (hf : f < s.files.length) (text : List UInt8) :
    (s.addFile text).file f = s.file f := by
  rw [file_addFile, if_neg (Nat.ne_of_lt hf)]

theorem offset_addFile (s : State) (text : List UInt8) (f : Nat) :
    ((s.addFile text).file f).offset = (s.file f).offset := by
  rw [file_addFile]
  split
  · rename_i heq
    rw [heq, file_length]
  · rfl

theorem Good.keeps_addFile (h : Good s) (text : List UInt8) : Keeps s (s.addFile text) := by
  have hlength : (s.addFile text).files.length = s.files.length + 1 := List.length_append
  have hlt : ∀ fd f, s.table.file fd = some f → f < (s.addFile text).files.length :=
    fun fd f hf => hlength ▸ Nat.lt_succ_of_lt (h.files fd f hf)
  refine ⟨⟨hlt, h.records, h.allocated, h.shared, fun bp hbp => ?_⟩, hlength ▸ Nat.le_succ _,
    fun f hf => ?_, fun f => ?_, unread_or rfl rfl⟩
  · refine ⟨(h.input bp hbp).inputp_le, (h.input bp hbp).heap, fun hun => ?_⟩
    obtain ⟨f, data, hf, hdata, hrest⟩ := (h.input bp hbp).text hun
    refine ⟨f, data, hf, hdata, ?_⟩
    rw [file_addFile_of_lt (h.files _ f hf)]
    exact hrest
  · rw [file_addFile_of_lt hf]
  · unfold position
    rw [offset_addFile]
    rfl

theorem Good.carries_openFile (h : Good s) (hfd : s.table.file fd = none) (text : List UInt8) :
    Carries s (s.openFile fd text) := by
  have hadd : Carries s (s.addFile text) := ⟨h.keeps_addFile text, rfl, rfl⟩
  have hquiet : Quiet (s.addFile text) fd := hadd.quiet (h.quiet_of_closed hfd)
  refine hadd.trans ⟨?_, rfl, rfl⟩
  refine hadd.good.keeps_set (Or.inl hquiet) (fun f hf => ?_) (fun hnone => by cases hnone)
    (Function.update s.clexec fd false) s.undoList s.execUndoList
  cases hf
  unfold addFile
  rw [List.length_append]
  exact Nat.lt_succ_self _

/-! ## Stream records -/

theorem unread_update {o : Option BufferedStream} (hentry : s.buffers s.bashInput = o)
    (ho : ∀ bp, o = some bp → bp.inputp = bp.used) : s.unread = 0 := by
  cases o with
  | none => exact unread_of_none hentry
  | some bp =>
    rw [unread_of_buffers hentry, ho bp rfl]
    exact Nat.sub_self _

/-- A stream with nothing unread replaces the input's, which has nothing unread. -/
theorem Good.carries_setInput (h : Good s) (hzero : s.unread = 0) {o : Option BufferedStream}
    {heap : Nat → Option (List UInt8)} {count : Nat} (hcount : s.heapCount ≤ count)
    (hopen : s.table.file s.bashInput = none → o = none)
    (ho : ∀ bp, o = some bp → bp.buffer < count ∧ bp.inputp = bp.used ∧ (heap bp.buffer).isSome) :
    Carries s { s with
      heap := heap
      heapCount := count
      buffers := Function.update s.buffers s.bashInput o } := by
  have hself : Function.update s.buffers s.bashInput o s.bashInput = o := Function.update_self ..
  have hother : ∀ q, q ≠ s.bashInput →
      Function.update s.buffers s.bashInput o q = s.buffers q := fun q hq =>
    Function.update_of_ne hq ..
  have hzero' := unread_update (s := { s with
    heap := heap
    heapCount := count
    buffers := Function.update s.buffers s.bashInput o }) hself fun bp hbp => (ho bp hbp).2.1
  refine ⟨.of_unread ⟨h.files, fun q hq => ?_, fun q bp hbp => ?_, fun q bp hbp hq => ?_,
    fun bp hbp => ?_⟩ hzero hzero' rfl, rfl, rfl⟩
  · by_cases heq : q = s.bashInput
    · rw [heq] at hq ⊢
      exact hself.trans (hopen hq)
    · exact (hother q heq).trans (h.records q hq)
  · by_cases heq : q = s.bashInput
    · rw [heq] at hbp
      exact (ho bp (hself.symm.trans hbp)).1
    · exact Nat.lt_of_lt_of_le (h.allocated q bp ((hother q heq).symm.trans hbp)) hcount
  · exact h.shared q bp ((hother q hq).symm.trans hbp) hq
  · obtain ⟨-, hinputp, hheap⟩ := ho bp (hself.symm.trans hbp)
    refine ⟨Nat.le_of_eq hinputp, hheap, fun hlt => ?_⟩
    rw [hinputp] at hlt
    exact absurd hlt (Nat.lt_irrefl _)

/-- A stream that does not own its buffer is put beside the input's. -/
theorem Good.carries_setStream (h : Good s) (hne : fd ≠ s.bashInput) {o : Option BufferedStream}
    (hopen : s.table.file fd = none → o = none)
    (ho : ∀ bp, o = some bp → bp.buffer < s.heapCount ∧ bp.shared = true) :
    Carries s (s.setStream fd o) := by
  have hself : (s.setStream fd o).buffers fd = o := Function.update_self ..
  have hother : ∀ q, q ≠ fd → (s.setStream fd o).buffers q = s.buffers q := fun q hq =>
    Function.update_of_ne hq ..
  have hunread : (s.setStream fd o).unread = s.unread := unread_congr (hother _ hne.symm)
  refine ⟨⟨⟨h.files, fun q hq => ?_, fun q bp hbp => ?_, fun q bp hbp hq => ?_, fun bp hbp => ?_⟩,
    Nat.le_refl _, fun _ _ => rfl, fun f => ?_, unread_or rfl hunread⟩, rfl, rfl⟩
  · by_cases heq : q = fd
    · rw [heq] at hq ⊢
      exact hself.trans (hopen hq)
    · exact (hother q heq).trans (h.records q hq)
  · by_cases heq : q = fd
    · rw [heq] at hbp
      exact (ho bp (hself.symm.trans hbp)).1
    · exact h.allocated q bp ((hother q heq).symm.trans hbp)
  · by_cases heq : q = fd
    · rw [heq] at hbp
      exact (ho bp (hself.symm.trans hbp)).2
    · exact h.shared q bp ((hother q heq).symm.trans hbp) hq
  · have hlive := h.input bp ((hother _ hne.symm).symm.trans hbp)
    exact ⟨hlive.inputp_le, hlive.heap, hlive.text⟩
  · unfold position
    rw [hunread]
    rfl

/-! ## `sync_buffered_stream` -/

theorem seekBack_eq (s : State) (fd : Int) (n : Nat) :
    ∃ files, s.seekBack fd n = { s with files := files } := by
  unfold seekBack
  cases s.table.file fd with
  | none => exact ⟨s.files, rfl⟩
  | some f =>
    dsimp only
    split
    · exact ⟨s.files, rfl⟩
    · exact ⟨_, rfl⟩

/-- Only the record and the offsets change. -/
theorem sync_eq (s : State) (fd : Int) :
    ∃ files, s.syncBufferedStream fd = { s with
      files := files
      buffers := Function.update s.buffers fd
        ((s.buffers fd).map fun bp => { bp with used := 0, inputp := 0 }) } := by
  unfold syncBufferedStream
  cases hbp : s.buffers fd with
  | none =>
    refine ⟨s.files, ?_⟩
    rw [Option.map_none, Function.update_eq_self_iff.mpr hbp.symm]
  | some bp =>
    dsimp only
    split
    · exact ⟨s.files, rfl⟩
    · obtain ⟨files, hfiles⟩ := s.seekBack_eq fd (bp.used - bp.inputp)
      rw [hfiles]
      exact ⟨files, rfl⟩

theorem unread_sync (s : State) : (s.syncBufferedStream s.bashInput).unread = 0 := by
  obtain ⟨files, hsync⟩ := s.sync_eq s.bashInput
  rw [hsync]
  refine unread_update (Function.update_self ..) fun bp hbp => ?_
  obtain ⟨bp', -, rfl⟩ := Option.map_eq_some_iff.mp hbp
  rfl

/-- The offset of the input's open file is set back to the position of the input. -/
theorem Good.carries_seek (h : Good s) (hbp : s.buffers s.bashInput = some bp) {f : Nat}
    (hf : s.table.file s.bashInput = some f) (hused : bp.used ≤ (s.file f).offset) :
    Carries s ((s.setOffset f ((s.file f).offset - (bp.used - bp.inputp))).setStream s.bashInput
      (some { bp with used := 0, inputp := 0 })) := by
  have hlt := h.files _ f hf
  have hlength : (s.files.set f { s.file f with
      offset := (s.file f).offset - (bp.used - bp.inputp) }).length = s.files.length :=
    List.length_set
  have hfile := s.file_setOffset hlt ((s.file f).offset - (bp.used - bp.inputp))
  have hself : Function.update s.buffers s.bashInput (some { bp with used := 0, inputp := 0 })
      s.bashInput = some { bp with used := 0, inputp := 0 } := Function.update_self ..
  have hother : ∀ q, q ≠ s.bashInput → Function.update s.buffers s.bashInput
      (some { bp with used := 0, inputp := 0 }) q = s.buffers q := fun q hq =>
    Function.update_of_ne hq ..
  have hzero : ((s.setOffset f ((s.file f).offset - (bp.used - bp.inputp))).setStream s.bashInput
      (some { bp with used := 0, inputp := 0 })).unread = 0 :=
    unread_update hself fun _ hbp' => by
      cases hbp'
      rfl
  refine ⟨⟨⟨fun q g hg => ?_, fun q hq => ?_, fun q bp' hbp' => ?_, fun q bp' hbp' hq => ?_,
    fun bp' hbp' => ?_⟩, ?_, fun g _ => ?_, fun g => ?_, Or.inl hzero⟩, rfl, rfl⟩
  · exact hlength ▸ h.files q g hg
  · have hne : q ≠ s.bashInput := by
      rintro rfl
      cases hf.symm.trans hq
    exact (hother q hne).trans (h.records q hq)
  · by_cases heq : q = s.bashInput
    · rw [heq] at hbp'
      cases hself.symm.trans hbp'
      exact h.allocated _ bp hbp
    · exact h.allocated q bp' ((hother q heq).symm.trans hbp')
  · exact h.shared q bp' ((hother q hq).symm.trans hbp') hq
  · cases hself.symm.trans hbp'
    exact ⟨Nat.le_refl _, (h.input bp hbp).heap, fun hlt => absurd hlt (Nat.lt_irrefl _)⟩
  · exact Nat.le_of_eq hlength.symm
  · change ((s.setOffset f ((s.file f).offset - (bp.used - bp.inputp))).file g).text = _
    rw [hfile]
    split
    · rename_i heq
      rw [heq]
    · rfl
  · rw [position_of_unread hzero]
    change (((s.setOffset f ((s.file f).offset - (bp.used - bp.inputp))).file g).offset : Int) = _
    rw [hfile]
    unfold position
    rw [unread_of_buffers hbp, hf]
    split
    · rename_i heq
      rw [heq, if_pos rfl]
      dsimp only
      omega
    · rename_i hne
      rw [if_neg fun heq => hne (Option.some.inj heq).symm]
      exact (Int.sub_zero _).symm

theorem Good.carries_sync (h : Good s) : Carries s (s.syncBufferedStream s.bashInput) := by
  unfold syncBufferedStream
  cases hbp : s.buffers s.bashInput with
  | none => exact .refl h
  | some bp =>
    have hlive := h.input bp hbp
    dsimp only
    by_cases hzero : bp.used - bp.inputp = 0
    · rw [if_pos hzero]
      refine h.carries_setInput ((unread_of_buffers hbp).trans hzero) (Nat.le_refl _)
        (fun hclosed => ?_) fun bp' hbp' => ?_
      · cases hbp.symm.trans (h.records _ hclosed)
      · cases hbp'
        exact ⟨h.allocated _ bp hbp, rfl, hlive.heap⟩
    · rw [if_neg hzero]
      obtain ⟨f, data, hf, hdata, hused, -⟩ := hlive.text (by omega)
      have hback : s.seekBack s.bashInput (bp.used - bp.inputp) =
          s.setOffset f ((s.file f).offset - (bp.used - bp.inputp)) := by
        unfold seekBack
        rw [hf]
        exact if_neg (by omega)
      rw [hback]
      exact h.carries_seek hbp hf hused

/-! ## Giving up a stream -/

/-- A stream is given up, and its buffer freed if it is its own. -/
theorem release_eq (hlive : ∀ bp, s.buffers fd = some bp → bp.shared = false →
    (s.heap bp.buffer).isSome) :
    ∃ heap, s.releaseBufferedStream fd =
        .ok { s with heap := heap, buffers := Function.update s.buffers fd none } ∧
      ∀ b, heap b ≠ s.heap b → ∃ bp, s.buffers fd = some bp ∧ bp.shared = false ∧ b = bp.buffer := by
  unfold releaseBufferedStream
  cases hbp : s.buffers fd with
  | none =>
    refine ⟨s.heap, ?_, fun b hb => absurd rfl hb⟩
    rw [Function.update_eq_self_iff.mpr hbp.symm]
  | some bp =>
    dsimp only
    split
    · exact ⟨s.heap, rfl, fun b hb => absurd rfl hb⟩
    · rename_i hshared
      have hown : bp.shared = false := by simpa using hshared
      obtain ⟨data, hdata⟩ := Option.isSome_iff_exists.mp (hlive bp hbp hown)
      refine ⟨Function.update s.heap bp.buffer none, ?_, fun b hb => ⟨bp, rfl, hown, ?_⟩⟩
      · unfold freeBufferedStream
        rw [hbp]
        dsimp only
        rw [hdata]
        rfl
      · by_contra hne
        exact hb (Function.update_of_ne hne ..)

/-- Only the input's stream has a buffer of its own, and it is there. -/
theorem Good.own (h : Good s) (hbp : s.buffers fd = some bp) (hown : bp.shared = false) :
    fd = s.bashInput ∧ (s.heap bp.buffer).isSome := by
  by_cases heq : fd = s.bashInput
  · subst heq
    exact ⟨rfl, (h.input bp hbp).heap⟩
  · cases hown.symm.trans (h.shared fd bp hbp heq)

theorem Good.release (h : Good s) (hq : Quiet s fd) :
    ∃ heap, s.releaseBufferedStream fd =
        .ok { s with heap := heap, buffers := Function.update s.buffers fd none } ∧
      Carries s { s with heap := heap, buffers := Function.update s.buffers fd none } ∧
      (∀ b, heap b ≠ s.heap b → ∃ bp, s.buffers fd = some bp ∧ bp.shared = false ∧ b = bp.buffer) := by
  obtain ⟨heap, hrelease, hheap⟩ := release_eq fun _ (hbp : s.buffers fd = _) hown =>
    (h.own hbp hown).2
  refine ⟨heap, hrelease, ?_, hheap⟩
  by_cases heq : fd = s.bashInput
  · subst heq
    exact h.carries_setInput (hq rfl) (Nat.le_refl _) (fun _ => rfl) fun bp hbp => by cases hbp
  · have hsame : heap = s.heap := by
      funext b
      by_contra hne
      obtain ⟨bp, hbp, hown, -⟩ := hheap b hne
      exact heq (h.own hbp hown).1
    rw [hsame]
    exact h.carries_setStream heq (fun _ => rfl) fun bp hbp => by cases hbp

/-- `close_buffered_fd`. -/
theorem Good.closeBufferedFd (h : Good s) (hq : Quiet s fd) :
    ∃ s', s.closeBufferedFd fd = .ok s' ∧ Carries s s' := by
  unfold State.closeBufferedFd
  split
  · exact ⟨s, rfl, .refl h⟩
  · obtain ⟨heap, hrelease, hcarries, -⟩ := h.release hq
    rw [hrelease]
    exact ⟨_, rfl, hcarries.trans (hcarries.good.carries_close (Function.update_self ..))⟩

/-! ## `duplicate_buffered_stream` -/

theorem setStream_setStream (s : State) (fd : Int) (o o' : Option BufferedStream) :
    (s.setStream fd o).setStream fd o' = s.setStream fd o' := by
  unfold setStream
  rw [Function.update_idem]

theorem setStream_self (h : s.buffers fd = none) : s.setStream fd none = s := by
  unfold setStream
  rw [Function.update_eq_self_iff.mpr h.symm]

theorem Good.drop_beside (h : Good s) {fd1 fd2 : Int} (hinput : fd2 ≠ s.bashInput) :
    s.dropBufferedStream fd1 fd2 = .ok (s.setStream fd2 none) := by
  unfold dropBufferedStream
  split
  · rfl
  · unfold releaseBufferedStream
    cases hbp : s.buffers fd2 with
    | none => rw [setStream_self hbp]
    | some bp => exact if_pos (h.shared fd2 bp hbp hinput)

/-- The record of `fd1` is put on a descriptor that is not the input's. -/
theorem Good.duplicate_beside (h : Good s) {fd1 fd2 : Int} (hne : fd1 ≠ fd2)
    (hinput : fd2 ≠ s.bashInput) :
    duplicateBufferedStream maxSize s fd1 fd2 =
      .ok (s.setStream fd2 ((s.buffers fd1).map fun bp => { bp with shared := true })) := by
  have hfd1 : (s.setStream fd2 none).buffers fd1 = s.buffers fd1 := Function.update_of_ne hne ..
  have hcopy : copyBufferedStream maxSize (s.setStream fd2 none) fd1 fd2 =
      s.setStream fd2 (s.buffers fd1) := by
    unfold copyBufferedStream
    rw [hfd1, setStream_setStream]
    exact if_neg fun hand => hinput hand.1.symm
  unfold duplicateBufferedStream
  rw [if_neg hne, h.drop_beside hinput]
  change (if (copyBufferedStream maxSize (s.setStream fd2 none) fd1 fd2).bashInput = fd2 ∧
    (copyBufferedStream maxSize (s.setStream fd2 none) fd1 fd2).buffers fd2 = none then _ else _) = _
  rw [hcopy, if_neg fun hand => hinput hand.1.symm]
  unfold shareBufferedStream
  have hfd1' : (s.setStream fd2 (s.buffers fd1)).buffers fd1 = s.buffers fd1 :=
    Function.update_of_ne hne ..
  have hfd2 : (s.setStream fd2 (s.buffers fd1)).buffers fd2 = s.buffers fd1 :=
    Function.update_self ..
  rw [hfd1', hfd2]
  cases hbp : s.buffers fd1 with
  | none => rfl
  | some bp =>
    have hshared : s.bashInput = fd1 ∨ (some bp).any BufferedStream.shared = true := by
      by_cases heq : s.bashInput = fd1
      · exact Or.inl heq
      · exact Or.inr (h.shared fd1 bp hbp (Ne.symm heq))
    refine (congrArg Except.ok (if_pos hshared)).trans ?_
    rw [setStream_setStream]
    rfl

/-- Giving up the input's stream leaves the buffer of `fd1` as it is. -/
theorem Good.drop_input (h : Good s) (fd1 : Int) (hq : s.unread = 0) :
    ∃ heap, s.dropBufferedStream fd1 s.bashInput =
        .ok { s with heap := heap, buffers := Function.update s.buffers s.bashInput none } ∧
      ∀ bp, s.buffers fd1 = some bp → heap bp.buffer = s.heap bp.buffer := by
  unfold dropBufferedStream
  split
  · exact ⟨s.heap, rfl, fun _ _ => rfl⟩
  · rename_i hbuffer
    obtain ⟨heap, hrelease, -, hheap⟩ := h.release (quiet_of_unread hq s.bashInput)
    refine ⟨heap, hrelease, fun bp hbp => ?_⟩
    by_contra hne
    obtain ⟨bp', hbp', -, hsame⟩ := hheap bp.buffer hne
    apply hbuffer
    rw [hbp, hbp', Option.map_some, Option.map_some, hsame]

theorem share_eq (s : State) (fd1 fd2 : Int) : ∃ g : Bool → Bool, s.shareBufferedStream fd1 fd2 =
    s.setStream fd2 ((s.buffers fd2).map fun bp => { bp with shared := g bp.shared }) := by
  unfold shareBufferedStream
  cases hbp : s.buffers fd2 with
  | none => exact ⟨id, (setStream_self hbp).symm⟩
  | some bp =>
    dsimp only
    split
    · exact ⟨fun _ => true, rfl⟩
    · refine ⟨id, ?_⟩
      unfold setStream
      rw [Function.update_eq_self_iff.mpr]
      exact hbp.symm

/-- `fd_to_buffered_stream` on an open descriptor. -/
theorem fdToBufferedStream_eq (maxSize : Nat) (h : (s.table.file fd).isSome) :
    ∃ data size, fdToBufferedStream maxSize s fd = { s with
      heap := Function.update s.heap s.heapCount (some data)
      heapCount := s.heapCount + 1
      buffers := Function.update s.buffers fd (some ⟨s.heapCount, size, 0, 0, false, false⟩) } := by
  obtain ⟨f, hf⟩ := Option.isSome_iff_exists.mp h
  unfold fdToBufferedStream
  rw [hf]
  exact ⟨_, _, rfl⟩

/-- The record of `fd1`, or a new one, is put on the input's descriptor. -/
theorem copy_input (maxSize : Nat) {fd1 : Int}
    (hopen : (s.table.file s.bashInput).isSome) (hspent : Spent s fd1)
    (halloc : ∀ bp, s.buffers fd1 = some bp → bp.buffer < s.heapCount) :
    ∃ heap count rec, copyBufferedStream maxSize s fd1 s.bashInput = { s with
        heap := heap
        heapCount := count
        buffers := Function.update s.buffers s.bashInput (some rec) } ∧
      s.heapCount ≤ count ∧ rec.buffer < count ∧ rec.inputp = rec.used ∧
      (heap rec.buffer).isSome := by
  unfold copyBufferedStream
  cases hbp : s.buffers fd1 with
  | some bp =>
    refine ⟨s.heap, s.heapCount, bp, ?_, Nat.le_refl _, halloc bp hbp, hspent bp hbp⟩
    refine if_neg fun hand => ?_
    have hnone : Function.update s.buffers s.bashInput (some bp) s.bashInput = none := hand.2
    rw [Function.update_self] at hnone
    cases hnone
  | none =>
    have hnone : (s.setStream s.bashInput none).buffers s.bashInput = none :=
      Function.update_self ..
    dsimp only
    rw [if_pos ⟨rfl, hnone⟩]
    obtain ⟨data, size, hfd⟩ := fdToBufferedStream_eq (s := s.setStream s.bashInput none) maxSize hopen
    rw [hfd]
    refine ⟨Function.update s.heap s.heapCount (some data), s.heapCount + 1,
      ⟨s.heapCount, size, 0, 0, false, false⟩, ?_, Nat.le_succ _, Nat.lt_succ_self _, rfl,
      Option.isSome_iff_exists.mpr ⟨data, Function.update_self ..⟩⟩
    unfold setStream
    simp only [Function.update_idem]

theorem Good.duplicate_input (h : Good s) {fd1 : Int} (hne : fd1 ≠ s.bashInput)
    (hq : s.unread = 0) (hopen : (s.table.file s.bashInput).isSome) (hspent : Spent s fd1) :
    ∃ s', duplicateBufferedStream maxSize s fd1 s.bashInput = .ok s' ∧ Carries s s' ∧
      s'.table = s.table ∧ ∀ q, q ≠ s.bashInput → s'.buffers q = s.buffers q := by
  obtain ⟨heap, hdrop, hheap⟩ := h.drop_input fd1 hq
  let t : State :=
    { s with heap := heap, buffers := Function.update s.buffers s.bashInput none }
  have hfd1 : t.buffers fd1 = s.buffers fd1 := Function.update_of_ne hne ..
  have hspent' : Spent t fd1 := by
    intro bp hbp
    rw [hfd1] at hbp
    obtain ⟨hinputp, halive⟩ := hspent bp hbp
    exact ⟨hinputp, (congrArg Option.isSome (hheap bp hbp)).trans halive⟩
  obtain ⟨heap', count, rec, hcopy, hcount, hbuffer, hinputp, halive⟩ :=
    copy_input (s := t) maxSize hopen hspent' fun bp hbp =>
      h.allocated fd1 bp (hfd1.symm.trans hbp)
  let u : State :=
    { s with heap := heap', heapCount := count
             buffers := Function.update s.buffers s.bashInput (some rec) }
  have hcopy' : copyBufferedStream maxSize t fd1 s.bashInput = u := by
    refine hcopy.trans ?_
    simp only [t, u, Function.update_idem]
  have hinput : u.buffers s.bashInput = some rec := Function.update_self ..
  obtain ⟨g, hshare⟩ := u.share_eq fd1 s.bashInput
  refine ⟨u.shareBufferedStream fd1 s.bashInput, ?_, ?_, ?_, fun q hq' => ?_⟩
  · unfold duplicateBufferedStream
    rw [if_neg hne, hdrop]
    change (if (copyBufferedStream maxSize t fd1 s.bashInput).bashInput = s.bashInput ∧
      (copyBufferedStream maxSize t fd1 s.bashInput).buffers s.bashInput = none then _ else _) = _
    rw [hcopy']
    exact if_neg fun hand => by
      cases hinput.symm.trans hand.2
  · have hrec : Carries s { s with
        heap := heap'
        heapCount := count
        buffers := Function.update s.buffers s.bashInput
          (some { rec with shared := g rec.shared }) } := by
      refine h.carries_setInput hq hcount (fun hclosed => ?_) fun bp hbp => ?_
      · rw [hclosed] at hopen
        cases hopen
      · cases hbp
        exact ⟨hbuffer, hinputp, halive⟩
    rw [hshare, hinput]
    unfold setStream
    simp only [u, Function.update_idem]
    exact hrec
  · rw [hshare]
    rfl
  · rw [hshare]
    exact (Function.update_of_ne hq' ..).trans (Function.update_of_ne hq' ..)

theorem Good.duplicate (h : Good s) (maxSize : Nat) {fd1 fd2 : Int} (hne : fd1 ≠ fd2)
    (hq : Quiet s fd2) (hopen : (s.table.file fd2).isSome)
    (hspent : s.bashInput = fd2 → Spent s fd1) :
    ∃ s', duplicateBufferedStream maxSize s fd1 fd2 = .ok s' ∧ Carries s s' ∧
      s'.table = s.table ∧ ∀ q, q ≠ fd2 → s'.buffers q = s.buffers q := by
  by_cases hinput : fd2 = s.bashInput
  · subst hinput
    exact h.duplicate_input hne (hq rfl) hopen (hspent rfl)
  · refine ⟨_, h.duplicate_beside hne hinput, ?_, rfl, fun q hq => Function.update_of_ne hq ..⟩
    refine h.carries_setStream hinput (fun hclosed => ?_) fun bp hbp => ?_
    · rw [hclosed] at hopen
      cases hopen
    · obtain ⟨bp', hbp', rfl⟩ := Option.map_eq_some_iff.mp hbp
      exact ⟨h.allocated fd1 bp' hbp', rfl⟩

/-! ## `check_bash_input` -/

/-- The end of `save_bash_input`: the input goes on at `nfd`, with a buffer of its own. -/
theorem Good.reinit (h : Good s) (maxSize : Nat) {f : Nat} {nfd : Int} (hzero : s.unread = 0)
    (hf : s.table.file s.bashInput = some f) (hnfd : s.table.file nfd = none)
    (hrange : s.table.InRange nfd) :
    ∃ s', reinitBashInput maxSize (s.copyFd s.bashInput nfd) s.bashInput nfd = .ok s' ∧
      Carries s s' ∧ s'.bashInput = nfd ∧ s'.table.limit = s.table.limit ∧
      ∀ q, q ≠ s.bashInput → q ≠ nfd →
        s'.buffers q = s.buffers q ∧ s'.table.file q = s.table.file q := by
  have hne : nfd ≠ s.bashInput := by
    rintro rfl
    cases hf.symm.trans hnfd
  have hrecord := h.records nfd hnfd
  let t : State := { s.copyFd s.bashInput nfd with bashInput := nfd }
  have htfile : t.table.file nfd = some f := (Table.set_file_self hrange).trans hf
  obtain ⟨data, size, hfd⟩ := fdToBufferedStream_eq (s := t) maxSize
    (Option.isSome_iff_exists.mpr ⟨f, htfile⟩)
  let fresh : BufferedStream := ⟨s.heapCount, size, 0, 0, false, false⟩
  let u : State := { t with
    heap := Function.update s.heap s.heapCount (some data)
    heapCount := s.heapCount + 1
    buffers := Function.update s.buffers nfd (some fresh) }
  have hubuffer : u.buffers s.bashInput = s.buffers s.bashInput := Function.update_of_ne hne.symm ..
  have huheap : ∀ b, b ≠ s.heapCount → u.heap b = s.heap b := fun b hb => Function.update_of_ne hb ..
  have howned : ∀ bp, u.buffers s.bashInput = some bp → bp.shared = false →
      (u.heap bp.buffer).isSome := by
    intro bp hbp hown
    rw [hubuffer] at hbp
    rw [huheap _ (Nat.ne_of_lt (h.allocated _ bp hbp))]
    exact (h.own hbp hown).2
  obtain ⟨heap, hrelease, hheap⟩ := release_eq howned
  have hgone : Function.update u.buffers s.bashInput none s.bashInput = none :=
    Function.update_self ..
  have hself : Function.update u.buffers s.bashInput none nfd = some fresh :=
    (Function.update_of_ne hne ..).trans (Function.update_self ..)
  have hother : ∀ q, q ≠ s.bashInput → q ≠ nfd →
      Function.update u.buffers s.bashInput none q = s.buffers q := fun q hq hq' =>
    (Function.update_of_ne hq ..).trans (Function.update_of_ne hq' ..)
  have htable : ∀ q, q ≠ s.bashInput → (u.table.close s.bashInput).file q = u.table.file q :=
    fun q hq => Table.set_file_ne hq
  have hutable : ∀ q, q ≠ nfd → u.table.file q = s.table.file q := fun q hq => Table.set_file_ne hq
  have halive : (heap s.heapCount).isSome := by
    have hsame : heap s.heapCount = some data := by
      by_contra hdiff
      obtain ⟨bp, hbp, -, heq⟩ := hheap s.heapCount fun hsame =>
        hdiff (hsame.trans (Function.update_self ..))
      rw [hubuffer] at hbp
      exact Nat.ne_of_gt (h.allocated _ bp hbp) heq
    rw [hsame]
    rfl
  let w : State :=
    ({ u with heap := heap, buffers := Function.update u.buffers s.bashInput none }.close
      s.bashInput).setClexec nfd true
  have hgood : Good w := by
    refine ⟨fun q g hg => ?_, fun q hq => ?_, fun q bp hbp => ?_, fun q bp hbp hq => ?_,
      fun bp hbp => ?_⟩
    · rcases Table.eq_some_of_set hg with ⟨-, hnone⟩ | hopen
      · cases hnone
      · rcases Table.eq_some_of_set hopen with ⟨-, hcopy⟩ | hold
        · exact h.files _ g hcopy
        · exact h.files q g hold
    · by_cases heq : q = s.bashInput
      · rw [heq]
        exact hgone
      · by_cases heq' : q = nfd
        · rw [heq'] at hq
          cases (htfile.symm.trans (htable nfd hne).symm).trans hq
        · exact (hother q heq heq').trans
            (h.records q (((hutable q heq').symm.trans (htable q heq).symm).trans hq))
    · by_cases heq : q = s.bashInput
      · rw [heq] at hbp
        cases hgone.symm.trans hbp
      · by_cases heq' : q = nfd
        · rw [heq'] at hbp
          cases hself.symm.trans hbp
          exact Nat.lt_succ_self _
        · exact Nat.lt_succ_of_lt (h.allocated q bp ((hother q heq heq').symm.trans hbp))
    · by_cases heq : q = s.bashInput
      · rw [heq] at hbp
        cases hgone.symm.trans hbp
      · exact h.shared q bp ((hother q heq hq).symm.trans hbp) heq
    · cases hself.symm.trans hbp
      exact ⟨Nat.le_refl _, halive, fun hlt => absurd hlt (Nat.lt_irrefl _)⟩
  have hzero' : w.unread = 0 := unread_update hself fun bp hbp => by
    cases hbp
    rfl
  refine ⟨w, ?_, ⟨.of_unread hgood hzero hzero' rfl, rfl, rfl⟩, rfl, rfl, fun q hq hq' =>
    ⟨hother q hq hq', (htable q hq).trans (hutable q hq')⟩⟩
  have hrelease' : (s.copyFd s.bashInput nfd).releaseBufferedStream nfd =
      .ok (s.copyFd s.bashInput nfd) := by
    unfold releaseBufferedStream
    have hnone : (s.copyFd s.bashInput nfd).buffers nfd = none := hrecord
    rw [hnone]
  have hclose : u.closeBufferedFd s.bashInput =
      .ok ({ u with heap := heap, buffers := Function.update u.buffers s.bashInput none }.close
        s.bashInput) := by
    unfold State.closeBufferedFd
    have hnonneg := (Table.inRange_of_open hf).1
    rw [if_neg (by omega), hrelease]
    rfl
  unfold reinitBashInput
  rw [hrelease']
  change (do
    let s ← (fdToBufferedStream maxSize t nfd).closeBufferedFd s.bashInput
    return s.setClexec nfd true) = _
  rw [hfd]
  change (do
    let s ← u.closeBufferedFd s.bashInput
    return s.setClexec nfd true) = _
  rw [hclose]
  rfl

/-- What `check_bash_input (n)` does: the input stays where it is, or moves away from `n`. -/
structure Checked (n : Int) (s s' : State) : Prop where
  carries : Carries s s'
  quiet : Quiet s' n
  limit : s'.table.limit = s.table.limit
  beside : ∀ q, q ≠ n → (s.table.file q).isSome →
    s'.buffers q = s.buffers q ∧ s'.table.file q = s.table.file q
  stays : s'.bashInput = s.bashInput →
    s'.table = s.table ∧ s'.heap = s.heap ∧ ∀ q, q ≠ n → s'.buffers q = s.buffers q
  moves : s'.bashInput ≠ s.bashInput → s.bashInput = n ∧ s'.bashInput ≠ n ∧ (s.table.file n).isSome
  held : s'.bashInput = n → s.bashInput = n ∧ (0 < n → s.table.dupfd n 10 = none)

theorem Good.checked_self (h : Good s) {n : Int} (hq : Quiet s n)
    (hheld : s.bashInput = n → 0 < n → s.table.dupfd n 10 = none) : Checked n s s :=
  ⟨.refl h, hq, rfl, fun _ _ _ => ⟨rfl, rfl⟩, fun _ => ⟨rfl, rfl, fun _ _ => rfl⟩,
    fun hne => absurd rfl hne, fun heq => ⟨heq, hheld heq⟩⟩

/-- The input is synchronised and stays. -/
theorem Good.checked_sync (h : Good s) (hdupfd : 0 < s.bashInput →
    s.table.dupfd s.bashInput 10 = none) :
    Checked s.bashInput s (s.syncBufferedStream s.bashInput) := by
  have hcarries := h.carries_sync
  have hzero := unread_sync s
  obtain ⟨files, hsync⟩ := s.sync_eq s.bashInput
  rw [hsync] at hcarries hzero ⊢
  exact ⟨hcarries, quiet_of_unread hzero _, rfl, fun q hq _ => ⟨Function.update_of_ne hq .., rfl⟩,
    fun _ => ⟨rfl, rfl, fun q hq => Function.update_of_ne hq ..⟩, fun hne => absurd rfl hne,
    fun _ => ⟨rfl, hdupfd⟩⟩

/-- The input is synchronised and moved. -/
theorem Good.checked_save (h : Good s) (maxSize : Nat) {nfd : Int}
    (hdupfd : s.table.dupfd s.bashInput 10 = some nfd) :
    ∃ s', saveBashInput maxSize s s.bashInput = .ok s' ∧ Checked s.bashInput s s' := by
  obtain ⟨⟨f, hf⟩, hnfd, hrange⟩ := Table.dupfd_eq_some hdupfd
  have hne : nfd ≠ s.bashInput := by
    rintro rfl
    cases hf.symm.trans hnfd
  have hcarries := h.carries_sync
  have hzero := unread_sync s
  obtain ⟨files, hsync⟩ := s.sync_eq s.bashInput
  generalize ht : s.syncBufferedStream s.bashInput = t at hcarries hzero hsync
  have htable : t.table = s.table := by rw [hsync]
  have hinput : t.bashInput = s.bashInput := by rw [hsync]
  have hbuffers : ∀ q, q ≠ s.bashInput → t.buffers q = s.buffers q := fun q hq => by
    rw [hsync]
    exact Function.update_of_ne hq ..
  obtain ⟨s', hreinit, hcarries', hinput', hlimit, hbeside⟩ := hcarries.good.reinit maxSize hzero
    (by rw [htable, hinput, hf]) (by rw [htable, hnfd]) (by rw [htable]; exact hrange)
  rw [hinput] at hreinit hbeside
  rw [← hinput'] at hne
  refine ⟨s', ?_, hcarries.trans hcarries', hcarries'.quiet (quiet_of_unread hzero _),
    hlimit.trans (by rw [htable]), fun q hq hopen => ?_, fun hsame => absurd hsame hne, fun _ =>
      ⟨rfl, hne, Option.isSome_iff_exists.mpr ⟨f, hf⟩⟩, fun hheld => absurd hheld hne⟩
  · have hdupfd' : t.table.dupfd s.bashInput 10 = some nfd := by rw [htable, hdupfd]
    unfold saveBashInput
    rw [ht]
    dsimp only
    rw [hdupfd']
    exact hreinit
  · have hq' : q ≠ nfd := by
      rintro rfl
      rw [hnfd] at hopen
      cases hopen
    obtain ⟨hbuffer, hfile⟩ := hbeside q hq hq'
    exact ⟨hbuffer.trans (hbuffers q hq), hfile.trans (by rw [htable])⟩

theorem Good.check (h : Good s) (maxSize : Nat) (n : Int) :
    ∃ s', checkBashInput maxSize s n = .ok s' ∧ Checked n s s' := by
  unfold checkBashInput
  by_cases hinput : s.bashInput = n
  · subst hinput
    rw [if_pos rfl]
    split
    · cases hdupfd : s.table.dupfd s.bashInput 10 with
      | some nfd => exact h.checked_save maxSize hdupfd
      | none =>
        refine ⟨_, ?_, h.checked_sync fun _ => hdupfd⟩
        obtain ⟨files, hsync⟩ := s.sync_eq s.bashInput
        have htable : (s.syncBufferedStream s.bashInput).table = s.table := by rw [hsync]
        unfold saveBashInput
        dsimp only
        rw [htable, hdupfd]
    · rename_i hpos
      split
      · exact ⟨_, rfl, h.checked_sync fun h => absurd h hpos⟩
      · rename_i hzero
        have hclosed : s.table.file s.bashInput = none := by
          by_contra hopen
          have := s.table.bounded _ hopen
          omega
        exact ⟨s, rfl, h.checked_self (h.quiet_of_closed hclosed) fun _ h => absurd h hpos⟩
  · rw [if_neg hinput]
    exact ⟨s, rfl, h.checked_self (fun heq => absurd heq hinput) fun heq => absurd heq hinput⟩

end Basht.Input.State
