import Basht.Input.Undo

/-!
# Redirections of `exec`

An allowed redirection (`Allowed`) moves no logical position, whether it succeeds, fails and is
undone, or moves the input to another descriptor (`Good.execRedirect`).
-/

namespace Basht.Input.State

open Descriptors

variable {s s' t : State} {fd newFd n m q : Int} {ri : Instruction} {r : Redirect}

/-! ## Undo entries -/

/-- What `addUndo` may give. -/
inductive AddedUndo (s : State) (fd : Int) (ri : Instruction) : State × Bool → Prop where
  | failed : AddedUndo s fd ri (s, true)
  | saved {s' : State} {newFd : Int} (h : Saved s s' fd newFd ri) : AddedUndo s fd ri (s', false)
  | closed (h : s.table.file fd = none) : AddedUndo s fd ri (s.addUndoCloseRedirect fd, false)

theorem addUndo_cases (s : State) (fd : Int) (ri : Instruction) (base : Int) :
    AddedUndo s fd ri (s.addUndo fd ri base) := by
  unfold addUndo
  split
  · cases hsaved : s.addUndoRedirect fd ri base with
    | none => exact .failed
    | some s' =>
      obtain ⟨newFd, h⟩ := addUndoRedirect_eq_some hsaved
      exact .saved h
  · rename_i hclosed
    exact .closed (Option.not_isSome_iff_eq_none.mp hclosed)

theorem Good.keeps_addUndoClose (h : Good s) (fd : Int) : Keeps s (s.addUndoCloseRedirect fd) :=
  h.keeps_flags s.clexec _ s.execUndoList

/-- The undo list with the entries for one saved descriptor. -/
theorem Saved.undone (h : Saved s s' n newFd ri) (hundo : s.undoList = [])
    (ht : t.undoList = s'.undoList) (hnew : Quiet t newFd)
    (hzero : n = 0 → Quiet t n ∧ (t.bashInput = n → Spent t newFd))
    (hn : Quiet t n ∨ t.table.file n = t.table.file newFd) : Undone t t.undoList := by
  obtain ⟨savefd, rfl⟩ := h.entries
  rw [ht]
  change Undone t (_ :: _ :: s.undoList)
  rw [hundo]
  refine ⟨?_, fun e he => ?_⟩
  · by_cases hstdin : n = 0
    · refine Or.inr (Or.inr ⟨if_pos hstdin, (hzero hstdin).1, (hzero hstdin).2⟩)
    · rcases hn with hq | hsame
      · exact Or.inl ⟨Or.inr (if_neg hstdin), hq⟩
      · exact Or.inr (Or.inl ⟨if_neg hstdin, hsame⟩)
  · rw [List.mem_singleton.mp he]
    exact ⟨Or.inl rfl, hnew⟩

/-- The list that is left of a redirection that succeeds. -/
theorem Saved.harmless (h : Saved s s' n newFd ri) (hexec : ∀ e ∈ s.execUndoList, Harmless t e)
    (hnew : Quiet t newFd) (hn : ri ≠ .closeThis → Quiet t n) :
    ∀ e ∈ s'.execUndoList, Harmless t e := by
  obtain ⟨savefd, rfl⟩ := h.entries
  intro e he
  have hcloser : ∀ e ∈ (⟨newFd, .closeThis, 0, [], true, false, false⟩ : Redirect) :: s.execUndoList,
      Harmless t e := by
    intro e he
    rcases List.mem_cons.mp he with rfl | he
    · exact ⟨Or.inl rfl, hnew⟩
    · exact hexec e he
  change e ∈ (if _ then _ :: _ :: s.execUndoList else _ :: s.execUndoList) at he
  split at he
  · rename_i hrestore
    rcases List.mem_cons.mp he with rfl | he
    · exact ⟨Or.inr rfl, hn hrestore.2.1⟩
    · exact hcloser e he
  · exact hcloser e he

/-- What the redirection of an `exec` gives: an undo list for each of its ends. -/
structure Redirected (s s' : State) (b : Bool) : Prop where
  keeps : Keeps s s'
  failed : b = true → Undone s' s'.undoList
  succeeded : b = false → ∀ e ∈ s'.execUndoList, Harmless s' e

/-! ## `N<&-` -/

theorem Good.redirectClose (h : Good s) (maxSize : Nat) (hundo : s.undoList = [])
    (hexec : s.execUndoList = []) (hri : r.instruction = .closeThis)
    (hallowed : (s.addUndo r.redirector .closeThis (-1)).2 = true → s.buffers r.redirector = none) :
    ∃ s' b, redirectClose maxSize true s r = .ok (s', b) ∧ Redirected s s' b := by
  have hclose : ∀ {t : State}, Keeps s t →
      (∀ {u : State}, Keeps t u → ∀ e ∈ t.execUndoList, Harmless u e) →
      ∃ s' b, (do
        let s ← checkBashInput maxSize t r.redirector
        let s ← s.closeBufferedFd r.redirector
        return (s, false)) = Except.ok (s', b) ∧ Redirected s s' b := by
    intro t ht hlist
    obtain ⟨u, hcheck, hchecked⟩ := ht.good.check maxSize r.redirector
    obtain ⟨s', hclosed, hcarries⟩ := hchecked.carries.good.closeBufferedFd hchecked.quiet
    have hcarries' := hchecked.carries.trans hcarries
    refine ⟨s', false, ?_, ht.trans hcarries'.toKeeps, nofun, fun _ => ?_⟩
    · rw [hcheck]
      change (do
        let s ← u.closeBufferedFd r.redirector
        return (s, false)) = _
      rw [hclosed]
      rfl
    · rw [hcarries'.execUndoList]
      exact hlist hcarries'.toKeeps
  unfold State.redirectClose
  rw [if_pos rfl, hri]
  have hadded := addUndo_cases s r.redirector .closeThis (-1)
  generalize s.addUndo r.redirector .closeThis (-1) = p at hadded hallowed
  cases hadded with
  | failed =>
    have hcarries := h.carries_close (hallowed rfl)
    refine ⟨_, true, rfl, hcarries.toKeeps, fun _ => ?_, nofun⟩
    rw [hcarries.undoList, hundo]
    trivial
  | @saved t newFd hsaved =>
    have hkeeps := hsaved.keeps h
    refine hclose hkeeps fun hu => ?_
    exact hsaved.harmless (by simp [hexec])
      (hu.quiet (hkeeps.quiet (h.quiet_of_closed hsaved.fresh))) fun hne => absurd rfl hne
  | closed hclosed =>
    refine hclose (h.keeps_addUndoClose _) fun hu => ?_
    change ∀ e ∈ s.execUndoList, _
    simp [hexec]

/-! ## `N<FILE` -/

/-- After the check of the input a redirection that fails can be undone. -/
theorem Checked.undone {u : State} (h : Checked n s' u) (hgood : Good s)
    (hsaved : Saved s s' n newFd ri) (hundo : s.undoList = []) (hu : Carries u t)
    (hbuffers : t.buffers = u.buffers) : Undone t t.undoList := by
  have hnew : Quiet t newFd := hu.quiet (h.carries.quiet ((hsaved.keeps hgood).quiet
    (hgood.quiet_of_closed hsaved.fresh)))
  have hq := hu.quiet h.quiet
  refine hsaved.undone hundo (hu.undoList.trans h.carries.undoList) hnew (fun _ => ⟨hq, fun _ => ?_⟩)
    (Or.inl hq)
  intro bp hbp
  have hopen : (s'.table.file newFd).isSome := by
    rw [hsaved.file_new]
    exact hsaved.opened
  rw [hbuffers, (h.beside newFd hsaved.ne.symm hopen).1, hsaved.buffers,
    hgood.records newFd hsaved.fresh] at hbp
  cases hbp

/-- The open file on `fd`, which has no stream, is put on the redirector. -/
theorem Good.moveFileOnto (h : Good s) (maxSize : Nat) (hq : Quiet s r.redirector)
    (hrecord : fd ≠ r.redirector → s.buffers fd = none) :
    ∃ s' b, moveFileOnto maxSize s r fd = .ok (s', b) ∧ Carries s s' ∧
      (b = true → s'.buffers = s.buffers) := by
  unfold State.moveFileOnto
  split
  · exact ⟨s, false, rfl, .refl h, nofun⟩
  · rename_i hne
    replace hrecord := hrecord hne
    cases hdup2 : s.dup2 fd r.redirector with
    | none => exact ⟨s.close fd, true, rfl, h.carries_close hrecord, fun _ => rfl⟩
    | some t =>
      obtain ⟨rfl, hopen, hrange⟩ := dup2_eq_some hdup2
      obtain ⟨f, hf⟩ := Option.isSome_iff_exists.mp hopen
      have hcopy := h.carries_copyFd hf (Or.inl hq)
      have hfile : (s.copyFd fd r.redirector).table.file r.redirector = some f :=
        (Table.set_file_self hrange).trans hf
      obtain ⟨u, hu, hcarries, -, hbuffers⟩ := hcopy.good.duplicate maxSize hne (hcopy.quiet hq)
        (Option.isSome_iff_exists.mpr ⟨f, hfile⟩) fun _ bp hbp => by
          cases hrecord.symm.trans hbp
      obtain ⟨s', hclosed, hcarries'⟩ := hcarries.good.closeBufferedFd
        (quiet_of_buffers ((hbuffers fd hne).trans hrecord))
      refine ⟨s', false, ?_, (hcopy.trans hcarries).trans hcarries', nofun⟩
      dsimp only
      rw [hu]
      change (do
        let s ← u.closeBufferedFd fd
        return (s, false)) = _
      rw [hclosed]
      rfl

/-- `N<FILE` from the check of the input on, with the file open on `fd`. -/
theorem Good.checkAndMove (h : Good s) (maxSize : Nat)
    (hrecord : fd ≠ r.redirector → s.buffers fd = none)
    (hopen : (s.table.file fd).isSome)
    (hfailed : ∀ u t, Checked r.redirector s u → Carries u t → t.buffers = u.buffers →
      Undone t t.undoList)
    (hsucceeded : ∀ t, Keeps s t → Quiet t r.redirector → ∀ e ∈ s.execUndoList, Harmless t e) :
    ∃ s' b, (do
      let s ← checkBashInput maxSize s r.redirector
      State.moveFileOnto maxSize s r fd) = Except.ok (s', b) ∧ Redirected s s' b := by
  obtain ⟨u, hcheck, hchecked⟩ := h.check maxSize r.redirector
  obtain ⟨s', b, hmove, hcarries, hbuffers⟩ := hchecked.carries.good.moveFileOnto maxSize
    hchecked.quiet fun hne => (hchecked.beside fd hne hopen).1.trans (hrecord hne)
  have hall := hchecked.carries.trans hcarries
  refine ⟨s', b, ?_, hall.toKeeps, fun hb => hfailed u s' hchecked hcarries (hbuffers hb),
    fun _ => ?_⟩
  · rw [hcheck]
    exact hmove
  · rw [hall.execUndoList]
    exact hsucceeded s' hall.toKeeps (hcarries.quiet hchecked.quiet)

theorem Redirected.after {b : Bool} (h : Redirected s s' b) (hkeeps : Keeps t s) :
    Redirected t s' b :=
  ⟨hkeeps.trans h.keeps, h.failed, h.succeeded⟩

/-- A redirection with the undo entry that closes the redirector. -/
theorem Checked.undone_close {u : State} (h : Checked n (s.addUndoCloseRedirect n) u)
    (hundo : s.undoList = []) (hu : Carries u t) : Undone t t.undoList := by
  rw [hu.undoList, h.carries.undoList]
  change Undone t (_ :: s.undoList)
  rw [hundo]
  exact ⟨Or.inl ⟨Or.inl rfl, hu.quiet h.quiet⟩, by simp⟩

theorem Good.redirectFile (h : Good s) (maxSize : Nat) (hundo : s.undoList = [])
    (hexec : s.execUndoList = []) :
    ∃ s' b, redirectFile maxSize true s r = .ok (s', b) ∧ Redirected s s' b := by
  unfold State.redirectFile
  cases hfree : s.table.free 0 with
  | none =>
    refine ⟨s, true, rfl, .refl h, fun _ => ?_, nofun⟩
    rw [hundo]
    trivial
  | some fd =>
    obtain ⟨hclosed, hrange⟩ := Table.free_eq_some hfree
    have hopened := h.carries_openFile hclosed r.text
    have hrecord : (s.openFile fd r.text).buffers fd = none := h.records fd hclosed
    have hfd : ((s.openFile fd r.text).table.file fd).isSome := by
      have : (s.openFile fd r.text).table.file fd = some s.files.length :=
        Table.set_file_self hrange
      rw [this]
      rfl
    dsimp only
    rw [if_pos rfl]
    generalize s.openFile fd r.text = t at hopened hrecord hfd ⊢
    have htundo := hopened.undoList.trans hundo
    have htexec := hopened.execUndoList.trans hexec
    have hclosing : ∃ s' b, (do
        let s ← checkBashInput maxSize (t.addUndoCloseRedirect r.redirector) r.redirector
        State.moveFileOnto maxSize s r fd) = Except.ok (s', b) ∧ Redirected s s' b := by
      have hkeeps := hopened.good.keeps_addUndoClose r.redirector
      obtain ⟨s', b, hresult, hredirected⟩ := hkeeps.good.checkAndMove (r := r) maxSize
        (fun _ => hrecord) hfd (fun u v hu hv _ => hu.undone_close htundo hv) fun v _ _ => by
          change ∀ e ∈ t.execUndoList, _
          simp [htexec]
      exact ⟨s', b, hresult, hredirected.after (hopened.toKeeps.trans hkeeps)⟩
    by_cases hne : fd = r.redirector
    · have hsave : t.saveForFile r fd = (t.addUndoCloseRedirect r.redirector, false) :=
        if_neg fun hdiff => hdiff hne
      rw [hsave]
      exact hclosing
    · have hsave : t.saveForFile r fd = t.addUndo r.redirector r.instruction (-1) := if_pos hne
      rw [hsave]
      have hadded := addUndo_cases t r.redirector r.instruction (-1)
      generalize t.addUndo r.redirector r.instruction (-1) = p at hadded
      cases hadded with
      | failed =>
        have hcarries := hopened.good.carries_close hrecord
        refine ⟨_, true, rfl, hopened.toKeeps.trans hcarries.toKeeps, fun _ => ?_, nofun⟩
        rw [hcarries.undoList, htundo]
        trivial
      | @saved u newFd hsaved =>
        have hkeeps := hsaved.keeps hopened.good
        have hnew := hkeeps.quiet (hopened.good.quiet_of_closed hsaved.fresh)
        obtain ⟨s', b, hresult, hredirected⟩ := hkeeps.good.checkAndMove (r := r) maxSize
          (fun _ => by rw [hsaved.buffers, hrecord]) (by rw [hsaved.file hfd]; exact hfd)
          (fun v w hv hw hbuffers => hv.undone hopened.good hsaved htundo hw hbuffers)
          fun v hv hq => hsaved.harmless (by simp [htexec]) (hv.quiet hnew) fun _ => hq
        exact ⟨s', b, hresult, hredirected.after (hopened.toKeeps.trans hkeeps)⟩
      | closed => exact hclosing

/-! ## `N<&M` and `N<&M-` -/

/-- What has been saved, where `check_bash_input` comes next. -/
structure Prepared (s t : State) (r : Redirect) : Prop where
  keeps : Keeps s t
  buffers : t.buffers = s.buffers
  heap : t.heap = s.heap
  bashInput : t.bashInput = s.bashInput
  moving : r.instruction = .moveInput →
    (t.table.file r.dest).isSome ∨ t.table.file r.redirector = none
  failed : ∀ u, Checked r.redirector t u → u.dup2 r.dest r.redirector = none → Undone u u.undoList
  succeeded : ∀ u, Keeps t u → Quiet u r.redirector → ∀ e ∈ t.execUndoList, Harmless u e

theorem dup2_isSome (hfd : (s.table.file fd).isSome) (hq : s.table.InRange q) :
    s.dup2 fd q ≠ none := by
  unfold dup2
  rw [if_neg]
  · exact Option.some_ne_none _
  · rw [not_or, not_not]
    exact ⟨by rw [Option.isNone_iff_eq_none]; exact Option.isSome_iff_ne_none.mp hfd, hq⟩

/-- Both descriptors of `N<&M-` have been saved. -/
theorem Saved.prepared_move {newFd' : Int} (hgood : Good s)
    (hsaved : Saved s s' r.redirector newFd ri) (hsaved' : Saved s' t r.dest newFd' .closeThis)
    (hne : r.dest ≠ r.redirector) (hexec : s.execUndoList = []) : Prepared s t r := by
  have hkeeps := hsaved.keeps hgood
  have hkeeps' := hsaved'.keeps hkeeps.good
  have hn : (s'.table.file r.redirector).isSome := by
    rw [hsaved.file hsaved.opened]
    exact hsaved.opened
  have hm : (t.table.file r.dest).isSome := by
    rw [hsaved'.file hsaved'.opened]
    exact hsaved'.opened
  refine ⟨hkeeps.trans hkeeps', hsaved'.buffers.trans hsaved.buffers,
    hsaved'.heap.trans hsaved.heap, hsaved'.bashInput.trans hsaved.bashInput, fun _ => Or.inl hm,
    fun u hu hdup2 => ?_, fun u hu hq => ?_⟩
  · have hfile := (hu.beside r.dest hne hm).2
    refine absurd hdup2 (dup2_isSome (hfile ▸ hm) ?_)
    obtain ⟨f, hf⟩ := Option.isSome_iff_exists.mp hn
    obtain ⟨hlower, hupper⟩ := Table.inRange_of_open hf
    refine ⟨hlower, ?_⟩
    rw [hu.limit, hsaved'.table]
    exact hupper
  · refine hsaved'.harmless ?_ (hu.quiet (hkeeps'.quiet (hkeeps.good.quiet_of_closed hsaved'.fresh)))
      fun hclose => absurd rfl hclose
    exact hsaved.harmless (by simp [hexec])
      (hu.quiet (hkeeps'.quiet (hkeeps.quiet (hgood.quiet_of_closed hsaved.fresh)))) fun _ => hq

theorem Saved.prepared (hgood : Good s) (hsaved : Saved s t r.redirector newFd ri)
    (hundo : s.undoList = []) (hexec : s.execUndoList = []) (hmove : r.instruction ≠ .moveInput) :
    Prepared s t r := by
  have hkeeps := hsaved.keeps hgood
  refine ⟨hkeeps, hsaved.buffers, hsaved.heap, hsaved.bashInput, fun h => absurd h hmove,
    fun u hu _ => hu.undone hgood hsaved hundo (.refl hu.carries.good) rfl, fun u hu hq => ?_⟩
  exact hsaved.harmless (by simp [hexec])
    (hu.quiet (hkeeps.quiet (hgood.quiet_of_closed hsaved.fresh))) fun _ => hq

theorem Good.prepared_close (h : Good s) (hclosed : s.table.file r.redirector = none)
    (hundo : s.undoList = []) (hexec : s.execUndoList = []) :
    Prepared s (s.addUndoCloseRedirect r.redirector) r := by
  refine ⟨h.keeps_addUndoClose _, rfl, rfl, rfl, fun _ => Or.inr hclosed,
    fun u hu _ => hu.undone_close hundo (.refl hu.carries.good), fun u _ _ => ?_⟩
  change ∀ e ∈ s.execUndoList, _
  simp [hexec]

/-- What `saveForDuplicate` may give. A first descriptor that is saved while the second is not
can be restored, unless it is the input and there is unread text. -/
theorem Good.saveForDuplicate (h : Good s) (hne : r.dest ≠ r.redirector)
    (hundo : s.undoList = []) (hexec : s.execUndoList = []) :
    (s.saveForDuplicate r).2 = false ∧ Prepared s (s.saveForDuplicate r).1 r ∨
    (s.saveForDuplicate r).2 = true ∧ Keeps s (s.saveForDuplicate r).1 ∧
      ((s.saveForDuplicate r).1.undoList = [] ∨ (r.redirector = 0 → Quiet s 0) →
        Undone (s.saveForDuplicate r).1 (s.saveForDuplicate r).1.undoList) := by
  unfold State.saveForDuplicate
  have hadded := addUndo_cases s r.redirector r.instruction r.dest
  generalize s.addUndo r.redirector r.instruction r.dest = p at hadded
  dsimp only
  cases hadded with
  | failed =>
    rw [if_neg fun hand => by cases hand.1]
    refine Or.inr ⟨rfl, .refl h, fun _ => ?_⟩
    rw [hundo]
    trivial
  | closed hclosed =>
    have hnone : ¬((s.addUndoCloseRedirect r.redirector).table.file r.redirector).isSome := by
      change ¬(s.table.file r.redirector).isSome
      simp [hclosed]
    rw [if_neg fun hand => hnone hand.2.2]
    exact Or.inl ⟨rfl, h.prepared_close hclosed hundo hexec⟩
  | @saved t newFd hsaved =>
    by_cases hmove : r.instruction = .moveInput
    · have hopen : (t.table.file r.redirector).isSome := by
        rw [hsaved.file hsaved.opened]
        exact hsaved.opened
      rw [if_pos ⟨rfl, hmove, hopen⟩]
      cases hsaved' : t.addUndoRedirect r.dest .closeThis (-1) with
      | some u =>
        obtain ⟨newFd', hsaved'⟩ := addUndoRedirect_eq_some hsaved'
        exact Or.inl ⟨rfl, hsaved.prepared_move h hsaved' hne hexec⟩
      | none =>
        have hkeeps := hsaved.keeps h
        refine Or.inr ⟨rfl, hkeeps, fun hor => ?_⟩
        rcases hor with hnil | hq
        · replace hnil : t.undoList = [] := hnil
          exact undone_of_harmless (by simp [hnil])
        · refine hsaved.undone hundo rfl (hkeeps.quiet (h.quiet_of_closed hsaved.fresh))
            (fun hzero => ⟨?_, fun _ bp hbp => ?_⟩) (Or.inr ?_)
          · rw [hzero]
            exact hkeeps.quiet (hq hzero)
          · rw [hsaved.buffers, h.records newFd hsaved.fresh] at hbp
            cases hbp
          · rw [hsaved.file_new, hsaved.file hsaved.opened]
    · rw [if_neg fun hand => hmove hand.2.1]
      exact Or.inl ⟨rfl, hsaved.prepared h hundo hexec hmove⟩

/-- From the check of the input on. -/
theorem Prepared.redirected (h : Prepared s t r) (maxSize : Nat) (hne : r.dest ≠ r.redirector)
    (hspent : s.bashInput = r.redirector →
      (0 < r.redirector → t.table.dupfd r.redirector 10 = none) → Spent s r.dest)
    (hmove : r.instruction = .moveInput → s.buffers r.dest = none) :
    ∃ s' b, (do
      let s ← checkBashInput maxSize t r.redirector
      State.duplicateOnto maxSize s r) = Except.ok (s', b) ∧ Redirected s s' b := by
  obtain ⟨u, hcheck, hchecked⟩ := h.keeps.good.check maxSize r.redirector
  have hspent' : u.bashInput = r.redirector → Spent u r.dest := by
    intro hinput bp hbp
    obtain ⟨hheld, hdupfd⟩ := hchecked.held hinput
    obtain ⟨-, hheap, hbuffers⟩ := hchecked.stays (hinput.trans hheld.symm)
    rw [hbuffers r.dest hne, h.buffers] at hbp
    rw [hheap, h.heap]
    exact hspent (h.bashInput.symm.trans hheld) hdupfd bp hbp
  have hmove' : r.instruction = .moveInput → u.buffers r.dest = none := by
    intro hri
    have hnone : t.buffers r.dest = none := (congrFun h.buffers _).trans (hmove hri)
    rcases h.moving hri with hopen | hclosed
    · exact ((hchecked.beside r.dest hne hopen).1).trans hnone
    · by_cases hstays : u.bashInput = t.bashInput
      · exact ((hchecked.stays hstays).2.2 r.dest hne).trans hnone
      · obtain ⟨-, -, hopen⟩ := hchecked.moves hstays
        rw [hclosed] at hopen
        cases hopen
  obtain ⟨s', b, hresult, hcarries, hfailed⟩ := hchecked.carries.good.duplicateOnto maxSize hne
    (Or.inl hchecked.quiet) (fun _ => hspent') hmove'
  have hall := hchecked.carries.trans hcarries
  refine ⟨s', b, ?_, h.keeps.trans hall.toKeeps, fun hb => ?_, fun _ => ?_⟩
  · rw [hcheck]
    exact hresult
  · obtain ⟨rfl, hdup2⟩ := hfailed hb
    exact h.failed s' hchecked hdup2
  · rw [hall.execUndoList]
    exact h.succeeded s' hall.toKeeps (hcarries.quiet hchecked.quiet)

theorem Good.redirectDuplicateUndoable (h : Good s) (maxSize : Nat) (hundo : s.undoList = [])
    (hexec : s.execUndoList = [])
    (hrestore : r.dest ≠ r.redirector → (s.saveForDuplicate r).2 = true →
      (s.saveForDuplicate r).1.undoList = [] ∨ (r.redirector = 0 → Quiet s 0))
    (hspent : r.dest ≠ r.redirector → (s.saveForDuplicate r).2 = false →
      s.bashInput = r.redirector → (0 < r.redirector →
        (s.saveForDuplicate r).1.table.dupfd r.redirector 10 = none) → Spent s r.dest)
    (hmove : r.dest ≠ r.redirector → (s.saveForDuplicate r).2 = false →
      r.instruction = .moveInput → s.buffers r.dest = none) :
    ∃ s' b, State.redirectDuplicate maxSize true s r = .ok (s', b) ∧ Redirected s s' b := by
  unfold State.redirectDuplicate
  by_cases hne : r.dest = r.redirector
  · rw [if_pos hne]
    refine ⟨s, false, rfl, .refl h, nofun, fun _ => ?_⟩
    simp [hexec]
  · rw [if_neg hne, if_pos rfl]
    dsimp only
    rcases h.saveForDuplicate hne hundo hexec with ⟨hok, hprepared⟩ | ⟨hfailed, hkeeps, hundone⟩
    · rw [hok]
      exact hprepared.redirected maxSize hne (hspent hne hok) (hmove hne hok)
    · rw [if_pos hfailed]
      exact ⟨_, _, rfl, hkeeps, fun _ => hundone (hrestore hne hfailed), fun hb => by
        cases hfailed.symm.trans hb⟩

/-! ## `exec` -/

/-- The state in which a redirection of `exec` begins. -/
def atStart (s : State) : State := { s with undoList := [], execUndoList := [] }

/-- The condition on `N<&M` and `N<&M-`. -/
def AllowedDuplicate (s : State) (r : Redirect) : Prop :=
  r.dest ≠ r.redirector →
    if (s.atStart.saveForDuplicate r).2 then
      (s.atStart.saveForDuplicate r).1.undoList ≠ [] → r.redirector = 0 → Quiet s 0
    else
      (r.instruction = .moveInput → s.buffers r.dest = none) ∧
        (s.bashInput = r.redirector → (0 < r.redirector →
          (s.atStart.saveForDuplicate r).1.table.dupfd r.redirector 10 = none) → Spent s r.dest)

/-- Where `exec` handles streams as it should. The descriptor that `N<&M-` closes has no stream,
nor has the one that is closed when it cannot be saved. A stream of another descriptor that the
input gets is spent; and the input is not restored from a copy while there is unread text. -/
def Allowed (s : State) (r : Redirect) : Prop :=
  match r.instruction with
  | .inputDirection => True
  | .closeThis =>
    (s.atStart.addUndo r.redirector .closeThis (-1)).2 = true → s.buffers r.redirector = none
  | .duplicatingInput => AllowedDuplicate s r
  | .duplicatingOutput => AllowedDuplicate s r
  | .moveInput => AllowedDuplicate s r

theorem atStart_eq (hundo : s.undoList = []) (hexec : s.execUndoList = []) : s.atStart = s := by
  cases s
  cases hundo
  cases hexec
  rfl

theorem AllowedDuplicate.redirected (hallowed : AllowedDuplicate s r) (h : Good s)
    (maxSize : Nat) (hundo : s.undoList = []) (hexec : s.execUndoList = []) :
    ∃ s' b, State.redirectDuplicate maxSize true s r = .ok (s', b) ∧ Redirected s s' b := by
  unfold AllowedDuplicate at hallowed
  rw [atStart_eq hundo hexec] at hallowed
  refine h.redirectDuplicateUndoable maxSize hundo hexec (fun hne hfailed => ?_)
    (fun hne hok => ?_) fun hne hok => ?_
  · have hrestore := hallowed hne
    rw [if_pos hfailed] at hrestore
    exact or_iff_not_imp_left.mpr hrestore
  · have hboth := hallowed hne
    rw [if_neg (by simp [hok])] at hboth
    exact hboth.2
  · have hboth := hallowed hne
    rw [if_neg (by simp [hok])] at hboth
    exact hboth.1

theorem Good.doRedirectionInternal (h : Good s) (maxSize : Nat) (hundo : s.undoList = [])
    (hexec : s.execUndoList = []) (hallowed : Allowed s r) :
    ∃ s' b, doRedirectionInternal maxSize true s r = .ok (s', b) ∧ Redirected s s' b := by
  unfold Allowed at hallowed
  unfold State.doRedirectionInternal
  cases hri : r.instruction with
  | inputDirection => exact h.redirectFile maxSize hundo hexec
  | closeThis =>
    rw [hri, atStart_eq hundo hexec] at hallowed
    exact h.redirectClose maxSize hundo hexec hri hallowed
  | duplicatingInput =>
    rw [hri] at hallowed
    exact AllowedDuplicate.redirected hallowed h maxSize hundo hexec
  | duplicatingOutput =>
    rw [hri] at hallowed
    exact AllowedDuplicate.redirected hallowed h maxSize hundo hexec
  | moveInput =>
    rw [hri] at hallowed
    exact AllowedDuplicate.redirected hallowed h maxSize hundo hexec

/-- An allowed redirection of `exec` succeeds or is undone, and moves no position. -/
theorem Good.execRedirect (h : Good s) (maxSize : Nat) (hallowed : Allowed s r) :
    ∃ s', execRedirect maxSize s r = .ok s' ∧ Keeps s s' := by
  have hstart : Keeps s s.atStart := h.keeps_flags s.clexec [] []
  obtain ⟨t, b, hresult, hredirected⟩ :=
    hstart.good.doRedirectionInternal (r := r) maxSize rfl rfl hallowed
  have hkeeps := hstart.trans hredirected.keeps
  unfold State.execRedirect
  rw [← atStart, hresult]
  cases b with
  | true =>
    have hlists := hkeeps.good.keeps_flags t.clexec t.undoList []
    obtain ⟨s', hundone, hkeeps'⟩ := hlists.good.undoPartialRedirects maxSize
      (hredirected.failed rfl)
    exact ⟨s', hundone, (hkeeps.trans hlists).trans hkeeps'⟩
  | false =>
    have hlists := hkeeps.good.keeps_flags t.clexec t.execUndoList []
    obtain ⟨s', hundone, hkeeps'⟩ := hlists.good.undoPartialRedirects maxSize
      (undone_of_harmless fun e he => hlists.harmless (hredirected.succeeded rfl e he))
    exact ⟨s', hundone, (hkeeps.trans hlists).trans hkeeps'⟩

end Basht.Input.State
