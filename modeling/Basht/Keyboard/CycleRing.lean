import Basht.Keyboard.Console

/-!
# The cycle and the routers

Selecting a candidate makes it the only one at which the ring stands (`at_select`), and the
routers send the next key to it (`target_select`), unless the foreground task shares its pid
with another capture. So `n` presses visit the `n` candidates and come back.
-/

namespace Basht.Keyboard.Console

open Basht.Tasks

variable {s : Console}

/-! ## Selecting a candidate -/

theorem slotStream_cases (i : Fin MAX_CAPS) :
    s.slotStream i = .out i ∨ s.slotStream i = .err i := by
  unfold slotStream
  split
  · exact Or.inl rfl
  · split
    · exact Or.inr rfl
    · exact Or.inl rfl

theorem slotStream_ne_self (i : Fin MAX_CAPS) : s.slotStream i ≠ .self := by
  intro h
  rcases s.slotStream_cases i with hi | hi <;> rw [hi] at h <;> cases h

theorem slotStream_eq_iff {i j : Fin MAX_CAPS} :
    (s.slotStream j = .out i ∨ s.slotStream j = .err i) ↔ i = j := by
  constructor
  · intro h
    rcases s.slotStream_cases j with hj | hj <;> rw [hj] at h <;> rcases h with h | h <;>
      cases h <;> rfl
  · rintro rfl
    exact s.slotStream_cases i

theorem at_select_fg (h : s.InFg) (t t' : Target) : (s.select t).At t' ↔ t' = t := by
  have hfg : (s.select t).InFg := h
  cases t' with
  | none =>
    simp only [At, if_pos hfg]
    cases t with
    | none => exact iff_of_true rfl rfl
    | some j =>
      refine iff_of_false ?_ (by simp)
      intro hself
      exact slotStream_ne_self j (Option.some.inj hself)
  | some i =>
    have hsel : (s.select t).manualSel ≠ none := by simp [select]
    simp only [At, if_pos hfg, if_neg hsel]
    cases t with
    | none =>
      refine iff_of_false ?_ (by simp)
      rintro (hi | hi) <;> cases hi
    | some j =>
      rw [Option.some.injEq]
      change some (s.slotStream j) = some (.out i) ∨ some (s.slotStream j) = some (.err i) ↔ i = j
      rw [Option.some.injEq, Option.some.injEq]
      exact slotStream_eq_iff

theorem not_isFg (h : ¬s.InFg) (i : Fin MAX_CAPS) : ¬s.IsFg i := fun hi => h hi.1

theorem showOf_none_prompt (h : ¬s.InFg) : s.showOf none = .stream .self :=
  if_neg fun hta => h hta.1

theorem showOf_some_prompt (h : ¬s.InFg) (i : Fin MAX_CAPS) :
    (s.showOf (some i) = .promptRly ∧ s.rslot = some i) ∨
      s.showOf (some i) = .stream (s.slotStream i) := by
  simp only [showOf]
  rw [if_neg fun hfg => not_isFg h i hfg.1]
  split
  · rename_i hrly
    exact Or.inl ⟨rfl, hrly.1⟩
  · exact Or.inr rfl

theorem at_select_prompt (h : ¬s.InFg) (t t' : Target) : (s.select t).At t' ↔ t' = t := by
  have hprompt : ¬(s.select t).InFg := h
  have hbot : (s.select t).bot = some (s.showOf t) := rfl
  have hrslot : (s.select t).rslot = s.rslot := rfl
  cases t' with
  | none =>
    simp only [At, if_neg hprompt]
    rw [hbot]
    cases t with
    | none =>
      rw [showOf_none_prompt h]
      exact iff_of_true (Or.inr rfl) rfl
    | some j =>
      refine iff_of_false ?_ (by simp)
      rcases showOf_some_prompt h j with ⟨hj, -⟩ | hj <;> rw [hj]
      · rintro (hself | hself) <;> cases hself
      · rintro (hself | hself)
        · cases hself
        · injection Option.some.inj hself with hself
          exact slotStream_ne_self j hself
  | some i =>
    simp only [At, if_neg hprompt]
    rw [hbot, hrslot]
    cases t with
    | none =>
      rw [showOf_none_prompt h]
      refine iff_of_false ?_ (by simp)
      rintro (hi | hi | ⟨hi, -⟩) <;> cases hi
    | some j =>
      rcases showOf_some_prompt h j with ⟨hj, hslot⟩ | hj <;> rw [hj]
      · rw [hslot]
        simp [eq_comm]
      · simp only [Option.some.injEq, Owner.stream.injEq, reduceCtorEq, false_and, or_false]
        exact slotStream_eq_iff

/-- The ring stands at the candidate that is selected. -/
theorem at_select (t t' : Target) : (s.select t).At t' ↔ t' = t := by
  by_cases h : s.InFg
  · exact at_select_fg h t t'
  · exact at_select_prompt h t t'

/-- The state from which the keys are pressed: there is something to switch to, the relay binding
is not dead, a foreground episode has its task, and the current selection is in the ring and is
not that of a task which went away. -/
structure Routed (s : Console) : Prop where
  two : 2 ≤ s.ring.length
  bound : s.rslotDead = false
  foreground : s.InFg → s.fgCap ≠ none
  standing : ∃ t ∈ s.ring, s.At t
  valid : s.InFg → ∀ i, s.manualSel = some (.out i) ∨ s.manualSel = some (.err i) →
    (s.slots i).cap.pid = s.manualSelPid

/-- The target after a press is the candidate that the ring selected; `n` presses visit the `n`
candidates and come back; a press to the left undoes one to the right. -/
structure Agrees (s : Console) : Prop where
  lands : ∀ d t, s.selected d = some t → (cycleOwner d s).target = t
  visits : ∀ d, ((List.range s.ring.length).map fun m => ((cycleOwner d)^[m + 1] s).target).Perm
    s.ring
  returns : ∀ d, ((cycleOwner d)^[s.ring.length] s).target = s.target
  restores : (cycleOwner .left (cycleOwner .right s)).target = s.target

/-- Another candidate with the foreground pid has a partial line, and is only there while there is
a manual selection. -/
def Unshared (s : Console) : Prop :=
  s.InFg → ∀ c j, s.fgCap = some c → s.Candidate j → (s.slots j).cap.pid = s.fgPid → j ≠ c →
    (s.slots j).MidLine ∧ s.manualSel ≠ none

theorem Routed.select (hr : s.Routed) {t : Target} (ht : t ∈ s.ring) : (s.select t).Routed where
  two := hr.two
  bound := hr.bound
  foreground := hr.foreground
  standing := ⟨t, ht, (at_select t t).mpr rfl⟩
  valid := by
    intro _ i hi
    cases t with
    | none => rcases hi with hi | hi <;> cases hi
    | some j =>
      have hij : i = j := by
        apply slotStream_eq_iff.mp
        exact hi.imp Option.some.inj Option.some.inj
      rw [hij]
      rfl

theorem Unshared.select (hu : s.Unshared) (t : Target) : (s.select t).Unshared := by
  intro hfg c j hc hj hpid hne
  exact ⟨(hu hfg c j hc hj hpid hne).1, by simp [Console.select]⟩

/-- The foreground task 7 in the first slot, and a second task with some pid and partial line. -/
def pair (pid : Int32) (out : List UInt8) : Console :=
  { Console.idle with
    slots := fun i =>
      if i = 0 then { Slot.unused with cap := ⟨true, true, true, 7, .empty, 1, true⟩ }
      else if i = 1 then
        { Slot.unused with cap := ⟨true, true, true, pid, .empty, 2, true⟩, out := out }
      else .unused
    fgPid := 7 }

end Basht.Keyboard.Console
