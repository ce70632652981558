import Basht.Input.Positions

/-!
# Saved descriptors

A redirection of `exec` saves the descriptor that it changes on a new one. If the redirection
fails, this is undone; if it succeeds, the new descriptor is closed. Neither moves the logical
position of an open file, where the entries of the lists are `Harmless`.
-/

namespace Basht.Input.State

open Descriptors

variable {s s' t : State} {fd newFd n m q : Int} {ri : Instruction} {r : Redirect}

/-! ## `add_undo_redirect` -/

/-- The open descriptor `fd` has been saved on `newFd`. -/
structure Saved (s s' : State) (fd newFd : Int) (ri : Instruction) : Prop where
  opened : (s.table.file fd).isSome
  fresh : s.table.file newFd = none
  range : s.table.InRange newFd
  entries : ∃ savefd, s' = (s.copyFd fd newFd).addUndoEntries fd newFd ri savefd

theorem dupfd_eq_some {base : Int} (h : s.dupfd fd base = some (t, newFd)) :
    t = s.copyFd fd newFd ∧ (s.table.file fd).isSome ∧ s.table.file newFd = none ∧
      s.table.InRange newFd := by
  obtain ⟨q, hq, heq⟩ := Option.map_eq_some_iff.mp h
  cases heq
  obtain ⟨⟨f, hf⟩, hfresh, hrange⟩ := Table.dupfd_eq_some hq
  exact ⟨rfl, Option.isSome_iff_exists.mpr ⟨f, hf⟩, hfresh, hrange⟩

theorem addUndoRedirect_eq_some {base : Int} (h : s.addUndoRedirect fd ri base = some s') :
    ∃ newFd, Saved s s' fd newFd ri := by
  unfold addUndoRedirect at h
  split at h
  · rename_i t newFd hdupfd
    cases h
    obtain hdupfd | ⟨-, hdupfd⟩ := Option.or_eq_some_iff.mp hdupfd
    · obtain ⟨rfl, hopen, hfresh, hrange⟩ := dupfd_eq_some hdupfd
      exact ⟨newFd, hopen, hfresh, hrange, false, rfl⟩
    · obtain ⟨rfl, hopen, hfresh, hrange⟩ := dupfd_eq_some hdupfd
      exact ⟨newFd, hopen, hfresh, hrange, false, rfl⟩
  · split at h
    · rename_i t newFd hdupfd
      cases h
      obtain ⟨rfl, hopen, hfresh, hrange⟩ := dupfd_eq_some hdupfd
      exact ⟨newFd, hopen, hfresh, hrange, true, rfl⟩
    · cases h

namespace Saved

variable (h : Saved s s' fd newFd ri)
include h

theorem buffers : s'.buffers = s.buffers := by
  obtain ⟨savefd, rfl⟩ := h.entries
  rfl

theorem heap : s'.heap = s.heap := by
  obtain ⟨savefd, rfl⟩ := h.entries
  rfl

theorem bashInput : s'.bashInput = s.bashInput := by
  obtain ⟨savefd, rfl⟩ := h.entries
  rfl

theorem table : s'.table = s.table.set newFd (s.table.file fd) := by
  obtain ⟨savefd, rfl⟩ := h.entries
  rfl

theorem ne : fd ≠ newFd := by
  rintro rfl
  have hopen := h.opened
  rw [h.fresh] at hopen
  cases hopen

theorem file_new : s'.table.file newFd = s.table.file fd := by
  rw [h.table]
  exact Table.set_file_self h.range

/-- Open descriptors stay as they are. -/
theorem file (hq : (s.table.file q).isSome) : s'.table.file q = s.table.file q := by
  rw [h.table]
  refine Table.set_file_ne ?_
  rintro rfl
  rw [h.fresh] at hq
  cases hq

theorem keeps (hgood : Good s) : Keeps s s' := by
  obtain ⟨f, hf⟩ := Option.isSome_iff_exists.mp h.opened
  obtain ⟨savefd, rfl⟩ := h.entries
  have hcopy := hgood.carries_copyFd hf (Or.inl (hgood.quiet_of_closed h.fresh))
  exact hcopy.toKeeps.trans (hcopy.good.keeps_flags _ _ _)

end Saved

/-! ## Undoing -/

/-- The entry closes `redirector`, or puts an open file on it, where no unread text is lost. -/
def Harmless (s : State) (r : Redirect) : Prop :=
  (r.instruction = .closeThis ∨ r.instruction = .duplicatingOutput) ∧ Quiet s r.redirector

theorem Keeps.harmless (h : Keeps s s') (hr : Harmless s r) : Harmless s' r :=
  ⟨hr.1, h.quiet hr.2⟩

/-- The entry may also restore the descriptor of the input. -/
def Undoable (s : State) (r : Redirect) : Prop :=
  Harmless s r ∨
    r.instruction = .duplicatingOutput ∧ s.table.file r.redirector = s.table.file r.dest ∨
    r.instruction = .duplicatingInput ∧ Quiet s r.redirector ∧
      (s.bashInput = r.redirector → Spent s r.dest)

theorem Good.carries_duplicateClexec (h : Good s) (r : Redirect) :
    Carries s (s.duplicateClexec r) := by
  have hset : ∀ (p : Prop) [Decidable p] {t : State}, Good t → ∀ b,
      Carries t (if p then t.setClexec r.redirector b else t) := by
    intro p _ t ht b
    split
    · exact ht.carries_setClexec b
    · exact .refl ht
  unfold duplicateClexec
  have hfirst := hset ((s.clexec r.dest = true ∨ (r.dest < 2 ∧ r.internal = true)) ∧
    2 < r.redirector) h true
  exact hfirst.trans (hset _ hfirst.good false)

theorem duplicateClexec_buffers (s : State) (r : Redirect) :
    (s.duplicateClexec r).buffers = s.buffers := by
  have hset : ∀ (p : Prop) [Decidable p] (t : State) b,
      (if p then t.setClexec r.redirector b else t).buffers = t.buffers := by
    intro p _ t b
    split
    · rfl
    · rfl
  unfold duplicateClexec
  exact (hset _ _ _).trans (hset _ _ _)

theorem dup2_eq_some (h : s.dup2 fd q = some t) :
    t = s.copyFd fd q ∧ (s.table.file fd).isSome ∧ s.table.InRange q := by
  unfold dup2 at h
  split at h
  · cases h
  · rename_i hor
    cases h
    rw [not_or, not_not] at hor
    exact ⟨rfl, Option.isSome_iff_ne_none.mpr fun hnone => hor.1 (by rw [hnone]; rfl), hor.2⟩

/-- A descriptor is copied onto `redirector`, with its stream if it is an input redirection. -/
theorem Good.duplicateOnto (h : Good s) (maxSize : Nat) (hne : r.dest ≠ r.redirector)
    (hquiet : Quiet s r.redirector ∨ r.instruction = .duplicatingOutput ∧
      s.table.file r.redirector = s.table.file r.dest)
    (hspent : r.instruction ≠ .duplicatingOutput → s.bashInput = r.redirector → Spent s r.dest)
    (hmove : r.instruction = .moveInput → s.buffers r.dest = none) :
    ∃ s' b, duplicateOnto maxSize s r = .ok (s', b) ∧ Carries s s' ∧
      (b = true → s' = s ∧ s.dup2 r.dest r.redirector = none) := by
  unfold State.duplicateOnto
  cases hdup2 : s.dup2 r.dest r.redirector with
  | none => exact ⟨s, true, rfl, .refl h, fun _ => ⟨rfl, rfl⟩⟩
  | some t =>
    obtain ⟨rfl, hopen, hrange⟩ := dup2_eq_some hdup2
    obtain ⟨f, hf⟩ := Option.isSome_iff_exists.mp hopen
    have hcopy : Carries s (s.copyFd r.dest r.redirector) :=
      h.carries_copyFd hf (hquiet.imp_right fun hsame => hsame.2.trans hf)
    have hfile : (s.copyFd r.dest r.redirector).table.file r.redirector = some f :=
      (Table.set_file_self hrange).trans hf
    have hstream : ∃ u, (∀ k : State → Except HeapFault (State × Bool),
        (if r.instruction = .duplicatingOutput then Except.ok (s.copyFd r.dest r.redirector) >>= k
        else duplicateBufferedStream maxSize (s.copyFd r.dest r.redirector) r.dest r.redirector >>= k) =
          k u) ∧ Carries s u ∧ u.buffers r.dest = s.buffers r.dest := by
      by_cases hout : r.instruction = .duplicatingOutput
      · exact ⟨_, fun k => if_pos hout, hcopy, rfl⟩
      · have hq : Quiet s r.redirector := hquiet.resolve_right fun hand => hout hand.1
        obtain ⟨u, hu, hcarries, -, hbuffers⟩ := hcopy.good.duplicate maxSize hne (hcopy.quiet hq)
          (Option.isSome_iff_exists.mpr ⟨f, hfile⟩) (hspent hout)
        refine ⟨u, fun k => ?_, hcopy.trans hcarries, hbuffers _ hne⟩
        rw [if_neg hout, hu]
        rfl
    obtain ⟨u, hu, hcarries, hbuffers⟩ := hstream
    dsimp only
    rw [hu]
    have hclexec := hcarries.trans (hcarries.good.carries_duplicateClexec r)
    have hbuffers' : (u.duplicateClexec r).buffers r.dest = s.buffers r.dest :=
      (congrFun (duplicateClexec_buffers u r) _).trans hbuffers
    refine ⟨_, false, rfl, ?_, fun hb => by cases hb⟩
    split
    · rename_i hmoves
      exact hclexec.trans (hclexec.good.carries_close (hbuffers'.trans (hmove hmoves)))
    · exact hclexec

/-- The redirection without an undo entry. -/
theorem Good.redirectDuplicate (h : Good s) (maxSize : Nat)
    (hquiet : Quiet s r.redirector ∨ r.instruction = .duplicatingOutput ∧
      s.table.file r.redirector = s.table.file r.dest)
    (hspent : r.instruction ≠ .duplicatingOutput → s.bashInput = r.redirector → Spent s r.dest)
    (hmove : r.instruction = .moveInput → s.buffers r.dest = none) :
    ∃ s' b, redirectDuplicate maxSize false s r = .ok (s', b) ∧ Carries s s' := by
  unfold State.redirectDuplicate
  split
  · exact ⟨s, false, rfl, .refl h⟩
  · rename_i hne
    obtain ⟨s', b, hresult, hcarries, -⟩ := h.duplicateOnto maxSize hne hquiet hspent hmove
    exact ⟨s', b, hresult, hcarries⟩

/-- An entry of the undo list. -/
theorem Good.undo (h : Good s) (maxSize : Nat) (hr : Undoable s r) :
    ∃ s' b, doRedirectionInternal maxSize false s r = .ok (s', b) ∧ Carries s s' := by
  unfold doRedirectionInternal
  obtain ⟨hclose | hout, hq⟩ | ⟨hout, hsame⟩ | ⟨hin, hq, hspent⟩ := hr
  · obtain ⟨s', hresult, hcarries⟩ := h.closeBufferedFd hq
    rw [hclose]
    dsimp only
    unfold redirectClose
    refine ⟨s', false, ?_, hcarries⟩
    simp only [Bool.false_eq_true, if_false, hresult]
    rfl
  · have hresult := h.redirectDuplicate maxSize (r := r) (Or.inl hq) (fun hne => absurd hout hne)
      fun hmove => by cases hout.symm.trans hmove
    rw [hout]
    exact hresult
  · have hresult := h.redirectDuplicate maxSize (r := r) (Or.inr ⟨hout, hsame⟩)
      (fun hne => absurd hout hne) fun hmove => by cases hout.symm.trans hmove
    rw [hout]
    exact hresult
  · have hresult := h.redirectDuplicate maxSize (r := r) (Or.inl hq) (fun _ => hspent)
      fun hmove => by cases hin.symm.trans hmove
    rw [hin]
    exact hresult

theorem Good.undoAll (h : Good s) (maxSize : Nat) {list : List Redirect}
    (hlist : ∀ r ∈ list, Harmless s r) :
    ∃ s' b, doRedirections maxSize s list = .ok (s', b) ∧ Carries s s' := by
  induction list generalizing s with
  | nil => exact ⟨s, false, rfl, .refl h⟩
  | cons r list ih =>
    obtain ⟨t, b, hresult, hcarries⟩ := h.undo maxSize (Or.inl (hlist r (by simp)))
    unfold doRedirections
    rw [hresult]
    cases b with
    | true => exact ⟨t, true, rfl, hcarries⟩
    | false =>
      obtain ⟨s', b, hrest, hcarries'⟩ := ih hcarries.good fun e he =>
        hcarries.harmless (hlist e (List.mem_cons_of_mem r he))
      exact ⟨s', b, hrest, hcarries.trans hcarries'⟩

/-- The list can be undone: only its first entry may restore the descriptor of the input. -/
def Undone (s : State) : List Redirect → Prop
  | [] => True
  | r :: list => Undoable s r ∧ ∀ e ∈ list, Harmless s e

theorem undone_of_harmless {list : List Redirect} (h : ∀ r ∈ list, Harmless s r) :
    Undone s list := by
  cases list with
  | nil => trivial
  | cons r list => exact ⟨Or.inl (h r (by simp)), fun e he => h e (List.mem_cons_of_mem r he)⟩

/-- `undo_partial_redirects`. -/
theorem Good.undoPartialRedirects (h : Good s) (maxSize : Nat) (hlist : Undone s s.undoList) :
    ∃ s', undoPartialRedirects maxSize s = .ok s' ∧ Keeps s s' := by
  have hall : ∃ t b, doRedirections maxSize s s.undoList = .ok (t, b) ∧ Carries s t := by
    cases hundo : s.undoList with
    | nil => exact ⟨s, false, rfl, .refl h⟩
    | cons r list =>
      rw [hundo] at hlist
      obtain ⟨t, b, hresult, hcarries⟩ := h.undo maxSize hlist.1
      unfold doRedirections
      rw [hresult]
      cases b with
      | true => exact ⟨t, true, rfl, hcarries⟩
      | false =>
        obtain ⟨s', b, hrest, hcarries'⟩ := hcarries.good.undoAll maxSize fun e he =>
          hcarries.harmless (hlist.2 e he)
        exact ⟨s', b, hrest, hcarries.trans hcarries'⟩
  obtain ⟨t, b, hresult, hcarries⟩ := hall
  refine ⟨{ t with undoList := [] }, ?_, hcarries.toKeeps.trans
    (hcarries.good.keeps_flags t.clexec [] t.execUndoList)⟩
  unfold State.undoPartialRedirects
  rw [hresult]
  rfl

end Basht.Input.State
