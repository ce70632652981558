import Basht.Redir.Redirections

/-!
# Redirections are undone

The undo list that a redirection adds brings back the table that the redirection has found
(`Reverts`), also behind its error; so does the whole list. Three redirections are excepted
(`Undoable`): an `&>` whose descriptor 2 cannot be saved, an `N<&M-` that closes `M` unsaved,
and an `N<&-` that closes `N` behind the error of `add_undo_redirect`.
-/

namespace Basht.Redir

open Descriptors

variable {F : Type} {s s₁ s₂ : State F} {t : Table F} {u : List (Redirect F)} {f g : F}
  {o : Option F} {fd x base : Int}

@[simp] theorem State.setTable_table : (s.setTable t).table = t := rfl

@[simp] theorem State.setTable_undoList : (s.setTable t).undoList = s.undoList := rfl

/-! ## Undo lists -/

theorem redirectionLoop_append {undoable : Bool} {list list' : List (Redirect F)}
    (h : redirectionLoop undoable s list = (s₁, false)) :
    redirectionLoop undoable s (list ++ list') = redirectionLoop undoable s₁ list' := by
  induction list generalizing s with
  | nil =>
    obtain rfl : s = s₁ := congrArg Prod.fst h
    rfl
  | cons r list ih =>
    rw [redirectionLoop] at h
    rw [List.cons_append, redirectionLoop]
    split at h
    · cases h
    · exact ih h

/-- What is added to the undo list brings the table of `s` back. -/
def Reverts (s s₁ : State F) : Prop :=
  ∃ e, s₁.undoList = e ++ s.undoList ∧
    redirectionLoop false ⟨s₁.table, []⟩ e = (⟨s.table, []⟩, false)

theorem Reverts.refl (s : State F) : Reverts s s := ⟨[], rfl, rfl⟩

theorem Reverts.trans (h₁ : Reverts s s₁) (h₂ : Reverts s₁ s₂) : Reverts s s₂ := by
  obtain ⟨e₁, hlist₁, hloop₁⟩ := h₁
  obtain ⟨e₂, hlist₂, hloop₂⟩ := h₂
  refine ⟨e₂ ++ e₁, ?_, ?_⟩
  · rw [hlist₂, hlist₁, List.append_assoc]
  · rw [redirectionLoop_append hloop₂]
    exact hloop₁

/-- The entry of a descriptor that was closed. -/
theorem Reverts.fresh (hclosed : t.file fd = none) :
    Reverts ⟨t, u⟩ (addUndoCloseRedirect ⟨t.set fd o, u⟩ fd) := by
  refine ⟨[⟨fd, .closeThis, 0, none, none⟩], rfl, ?_⟩
  have hback : (t.set fd o).close fd = t := by
    rw [Table.close, Table.set_set, Table.set_self hclosed]
  exact congrArg (fun t => ((⟨t, []⟩ : State F), false)) hback

/-- The entries of a descriptor whose file is saved on `x`. -/
theorem Reverts.saved (hopen : t.file fd = some g) (hx : t.file x = none) (hrange : t.InRange x) :
    Reverts ⟨t, u⟩ ⟨(t.set x (some g)).set fd o,
      [⟨fd, if fd = 0 then .duplicatingInput else .duplicatingOutput, x, none, none⟩,
        ⟨x, .closeThis, 0, none, none⟩] ++ u⟩ := by
  refine ⟨_, rfl, ?_⟩
  have hne : x ≠ fd := by
    intro heq
    rw [heq, hopen] at hx
    cases hx
  have hcopy : ((t.set x (some g)).set fd o).file x = some g := by
    rw [Table.set_file_ne hne, Table.set_file_self hrange]
  have hdup : duplicate false (⟨(t.set x (some g)).set fd o, []⟩ : State F) fd x false =
      (⟨t.set x (some g), []⟩, false) := by
    have hback : ((t.set x (some g)).set fd o).set fd (some g) = t.set x (some g) := by
      rw [Table.set_set, Table.set_self]
      rw [Table.set_file_ne hne.symm, hopen]
    have hfd : ((t.set x (some g)).set fd o).InRange fd := by
      rw [Table.set_inRange, Table.set_inRange]
      exact Table.inRange_of_open hopen
    simp only [duplicate, if_neg hne, Table.dup2, hcopy, hback, hfd, Option.isNone_some,
      Bool.false_and, Bool.false_eq_true, not_true_eq_false, or_self, if_false]
    rfl
  have hclose : doRedirectionInternal false (⟨t.set x (some g), []⟩ : State F)
      ⟨x, .closeThis, 0, none, none⟩ = (⟨t, []⟩, false) := by
    have hback : (t.set x (some g)).close x = t := by
      rw [Table.close, Table.set_set, Table.set_self hx]
    exact congrArg (fun t => ((⟨t, []⟩ : State F), false)) hback
  have hfirst : doRedirectionInternal false (⟨(t.set x (some g)).set fd o, []⟩ : State F)
      ⟨fd, if fd = 0 then .duplicatingInput else .duplicatingOutput, x, none, none⟩ =
      (⟨t.set x (some g), []⟩, false) := by
    split <;> exact hdup
  simp only [redirectionLoop, hfirst, hclose]

/-! ## Saving -/

theorem addUndoRedirect_eq_some (h : addUndoRedirect s fd base = some s₁) :
    ∃ g x, s.table.file fd = some g ∧ s.table.file x = none ∧ s.table.InRange x ∧
      s₁ = ⟨s.table.set x (some g),
        [⟨fd, if fd = 0 then .duplicatingInput else .duplicatingOutput, x, none, none⟩,
          ⟨x, .closeThis, 0, none, none⟩] ++ s.undoList⟩ := by
  rw [addUndoRedirect] at h
  split at h
  · cases h
  · rename_i x hx
    have hdup : ∃ b, s.table.dupfd fd b = some x := by
      rcases Option.or_eq_some_iff.mp hx with hx | ⟨-, hx⟩
      · exact ⟨_, hx⟩
      · rcases Option.or_eq_some_iff.mp hx with hx | ⟨-, hx⟩
        · exact ⟨_, hx⟩
        · exact ⟨_, hx⟩
    obtain ⟨b, hdup⟩ := hdup
    obtain ⟨⟨g, hopen⟩, hfree, hrange⟩ := Table.dupfd_eq_some hdup
    refine ⟨g, x, hopen, hfree, hrange, ?_⟩
    rw [← hopen]
    exact (Option.some.inj h).symm

/-- If no descriptor is left behind the file's, `redirector` cannot be saved; else 2 is open. -/
def ErrUndoable (t : Table F) (redirector : Int) (opened : Option (Int × F)) : Prop :=
  ∀ fd f, redirOpen t opened = some (fd, f) →
    if (t.set fd (some f)).free 0 = none then t.file redirector ≠ none else t.file 2 ≠ none

/-- What is undone: all but the three exceptions. -/
def Undoable (t : Table F) (r : Redirect F) : Prop :=
  match r.instruction with
  | .errAndOut | .appendErrAndOut => ErrUndoable t r.redirector r.opened
  | .moveInput | .moveOutput =>
    r.dest = r.redirector ∨ t.file r.redirector ≠ none ∨ t.file r.dest = none ∨
      ¬t.InRange r.redirector
  | .closeThis => t.file r.redirector = none ∨ t.free 0 ≠ none
  | _ => True

end Basht.Redir
