import Basht.Traps.Pending

/-!
# Trapped signals are delivered

In every `Careful` run an entry of `pending_traps` that is not zero has `catch_flag` set, or a
call of `run_pending_traps` has still to look at it (`Covered`); and a signal whose action was
not started since it arrived is pending, or its action is about to start (`Kept`).
-/

namespace Basht.Traps

variable {trapped : Nat → Bool} {s s' : Shell} {l : Label} {ls ls₀ : List Label} {t : Nat}
  {f f' : Frame} {rest : List Frame}

/-! ## What a run must not do -/

/-- The call does not set the entry of its signal to zero any more. -/
def Pc.Cleared : Pc → Prop
  | .chldLoop _ | .chldAction _ => True
  | _ => False

/-- The call looks at `t` later, or has taken it up. -/
def Frame.Covers (f : Frame) (t : Nat) : Prop := f.sig < t ∨ f.sig = t ∧ ¬f.pc.Cleared

def ChldIn (calls : List Frame) : Prop := ∃ f ∈ calls, f.pc.InChld

/-- A call covers `t`; one inside of the trap of `SIGCHLD` does not cover `SIGCHLD`. -/
def Ahead : List Frame → Nat → Prop
  | [], _ => False
  | f :: rest, t => f.Covers t ∧ (t = sigchld → ¬ChldIn rest) ∨ Ahead rest t

/-- The action of `t` was not started since `t` arrived last. -/
def Owed (t : Nat) (ls : List Label) : Prop :=
  ∃ l₁ l₂, ls = l₁ ++ .arrive t :: l₂ ∧ .start t ∉ l₂

/-- No step loses what is pending: where the flag is cleared, a call still covers every pending
signal; where an entry is cleared for the last time, the signal did not arrive since its action
was started; where an action returns from the function, the flag is set or the calls around it
cover every pending signal, and it is not the action of `SIGCHLD`. -/
def Careful (ls : List Label) (s : Shell) : Label → Prop
  | .clearFlag => ∀ t, s.pendingTraps t ≠ 0 → Ahead s.calls t
  | .clearPending sig => ¬Owed sig ls
  | .leave => (∀ f ∈ s.calls.head?, ¬f.pc.InChld) ∧
      ∀ t, s.pendingTraps t ≠ 0 → s.catchFlag = true ∨ Ahead s.calls.tail t
  | _ => True

/-- Runs with the labels so far. -/
inductive Reach (trapped : Nat → Bool) : List Label → Shell → Prop
  | initial : Reach trapped [] .initial
  | step (ls : List Label) (s s' : Shell) (l : Label) (hreach : Reach trapped ls s)
      (hstep : Step trapped s l s') (hcareful : Careful ls s l) : Reach trapped (ls ++ [l]) s'

theorem owed_append : Owed t (ls ++ [l]) ↔ l = .arrive t ∨ Owed t ls ∧ l ≠ .start t := by
  constructor
  · rintro ⟨l₁, l₂, heq, hstart⟩
    rcases List.eq_nil_or_concat l₂ with rfl | ⟨l₃, l', rfl⟩
    · left
      exact (List.append_inj' heq rfl).2 |> List.head_eq_of_cons_eq
    · right
      rw [List.concat_eq_append] at heq hstart
      rw [← List.cons_append, ← List.append_assoc] at heq
      obtain ⟨hls, hl⟩ := List.append_inj' heq rfl
      obtain rfl : l = l' := List.head_eq_of_cons_eq hl
      rw [List.mem_append, not_or] at hstart
      refine ⟨⟨l₁, l₃, hls, hstart.1⟩, ?_⟩
      intro hl'
      exact hstart.2 (List.mem_singleton.mpr hl'.symm)
  · rintro (rfl | ⟨⟨l₁, l₂, rfl, hstart⟩, hl⟩)
    · exact ⟨ls, [], rfl, nofun⟩
    · refine ⟨l₁, l₂ ++ [l], by simp, ?_⟩
      rw [List.mem_append, List.mem_singleton, not_or]
      exact ⟨hstart, Ne.symm hl⟩

/-! ## The calls are nested -/

/-- The signal of a branch. -/
def Frame.Fits (trapped : Nat → Bool) (f : Frame) : Prop :=
  1 ≤ f.sig ∧ f.sig ≤ nsig ∧
    match f.pc with
    | .enter => f.sig = 1
    | .test => True
    | .intClear | .interruptClear | .interruptFlag | .interruptStart | .interruptAction =>
      f.sig = sigint ∧ trapped f.sig = true
    | .chldRead | .chldLoop _ | .chldAction _ => f.sig = sigchld
    | .chldClear x => f.sig = sigchld ∧ x ≠ 0
    | .clear | .start | .action | .finish => f.sig < nsig

/-- Only the innermost call is outside of an action, and only one is in the branch of
`SIGCHLD`. -/
def Nested (trapped : Nat → Bool) : List Frame → Prop
  | [] => True
  | f :: rest => f.Fits trapped ∧ (∀ g ∈ rest, g.pc.InAction) ∧
      (f.pc.InChld → ¬ChldIn rest) ∧ Nested trapped rest

structure WellFormed (trapped : Nat → Bool) (s : Shell) : Prop where
  pending : ∀ t, s.pendingTraps t ≠ 0 → trapped t = true ∧ 1 ≤ t ∧ t < nsig
  nested : Nested trapped s.calls
  progress : s.inProgress = true ↔ ChldIn s.calls
  impossible : s.impossible = true → s.inProgress = true
  read : ∀ f ∈ s.calls.head?, f.pc = .chldRead → s.pendingTraps sigchld ≠ 0

theorem chldIn_cons : ChldIn (f :: rest) ↔ f.pc.InChld ∨ ChldIn rest := by
  constructor
  · rintro ⟨g, hg, hchld⟩
    rcases List.mem_cons.mp hg with rfl | hg
    · exact Or.inl hchld
    · exact Or.inr ⟨g, hg, hchld⟩
  · rintro (hchld | ⟨g, hg, hchld⟩)
    · exact ⟨f, List.mem_cons_self, hchld⟩
    · exact ⟨g, List.mem_cons_of_mem f hg, hchld⟩

/-! ## Steps -/

/-- The entry is cleared, and the action comes next. -/
def Pc.StartsSoon : Pc → Prop
  | .interruptClear | .interruptFlag | .interruptStart | .chldLoop (_ + 1) | .start => True
  | _ => False

def Frame.Soon (f : Frame) (t : Nat) : Prop := f.sig = t ∧ f.pc.StartsSoon

/-- The call has not started the action of its signal. -/
def Pc.NotStarted : Pc → Prop
  | .interruptAction | .chldLoop 0 | .chldAction _ | .action | .finish => False
  | _ => True

/-- The call has not come to the action of `t`. -/
def Frame.Before (f : Frame) (t : Nat) : Prop := f.sig < t ∨ f.sig = t ∧ f.pc.NotStarted

/-- The innermost call goes on. -/
structure Move (trapped : Nat → Bool) (s : Shell) (l : Label) (s' : Shell) (f f' : Frame)
    (rest : List Frame) : Prop where
  calls : s.calls = f :: rest
  calls' : s'.calls = f' :: rest
  pending : ∀ t, s'.pendingTraps t = s.pendingTraps t ∨ s'.pendingTraps t = 0
  flag : l ≠ .clearFlag → s'.catchFlag = s.catchFlag
  fits : f'.Fits trapped
  chld : f'.pc.InChld → ¬ChldIn rest
  progress : s'.inProgress = true ↔ f'.pc.InChld ∨ ChldIn rest
  impossible : s'.impossible = true → s'.inProgress = true
  read : f'.pc = .chldRead → s'.pendingTraps sigchld ≠ 0
  covers : ∀ t, s'.pendingTraps t ≠ 0 → f.Covers t → (t = sigchld → ¬ChldIn rest) → f'.Covers t
  keeps : ∀ t, l ≠ .start t → l ≠ .clearPending t → s.pendingTraps t ≠ 0 ∨ f.Soon t →
    s'.pendingTraps t ≠ 0 ∨ f'.Soon t
  before : ∀ t, l ≠ .start t → s.pendingTraps t ≠ 0 ∨ f.Soon t → rest = [] → f.Before t →
    f'.Before t
  running : rest = [] → f.oldRunning = 0 → f'.oldRunning = 0 ∧
    (f'.pc = .enter ∨ f'.pc = .test →
      s'.runningTrap = 0 ∨ s'.runningTrap = s.runningTrap ∧ (f.pc = .enter ∨ f.pc = .test))

/-- What a step can do. -/
inductive StepCases (trapped : Nat → Bool) (s : Shell) (l : Label) (s' : Shell) : Prop
  | arrive (sig n : Nat) (hl : l = .arrive sig) (hn : 0 < n)
      (hsig : trapped sig = true ∧ 1 ≤ sig ∧ sig < nsig) (hs' : s' = s.queue sig n)
  | refuse (hl : l = .refuse) (hs' : s' = s)
      (hflag : s.catchFlag = false ∨
        s.runningTrap = sigwinch + 1 ∧ s.pendingTraps sigwinch ≠ 0)
  | call (hl : l = .call) (htop : ∀ f ∈ s.calls.head?, f.pc.InAction)
      (hs' : s' = s.setCalls (⟨1, s.runningTrap, .enter⟩ :: s.calls))
  | return (old : Nat) (rest : List Frame) (hl : l = .return)
      (hcalls : s.calls = ⟨nsig, old, .test⟩ :: rest) (hs' : s' = s.setCalls rest)
  | leave (f : Frame) (rest : List Frame) (hl : l = .leave) (hcalls : s.calls = f :: rest)
      (hpending : s'.pendingTraps = s.pendingTraps) (hflag : s'.catchFlag = s.catchFlag)
      (hcalls' : s'.calls = rest) (hpc : f.pc.InAction)
      (hmodes : ¬f.pc.InChld → s'.inProgress = s.inProgress ∧ s'.impossible = s.impossible ∧
        s'.runningTrap = f.oldRunning)
  | move (f f' : Frame) (rest : List Frame) (hmove : Move trapped s l s' f f' rest)

variable {sig old x : Nat} {pc pc' : Pc}

/-- The call stays at its signal. -/
theorem Move.same (hcalls : s.calls = ⟨sig, old, pc⟩ :: rest)
    (hcalls' : s'.calls = ⟨sig, old, pc'⟩ :: rest)
    (hpending : s'.pendingTraps = s.pendingTraps ∨
      s'.pendingTraps = Function.update s.pendingTraps sig 0)
    (hflag : l ≠ .clearFlag → s'.catchFlag = s.catchFlag)
    (hfits : Frame.Fits trapped ⟨sig, old, pc'⟩) (hchld : pc'.InChld → ¬ChldIn rest)
    (hprogress : s'.inProgress = true ↔ pc'.InChld ∨ ChldIn rest)
    (himpossible : s'.impossible = true → s'.inProgress = true)
    (hread : pc' = .chldRead → s'.pendingTraps sigchld ≠ 0)
    (hcleared : pc'.Cleared → pc.Cleared ∨ s'.pendingTraps sig = 0)
    (hkeeps : l = .start sig ∨ (s.pendingTraps sig ≠ 0 ∨ pc.StartsSoon →
      s'.pendingTraps sig ≠ 0 ∨ pc'.StartsSoon))
    (hstarted : l = .start sig ∨ (pc.NotStarted → pc'.NotStarted))
    (hrunning : pc' = .enter ∨ pc' = .test →
      s'.runningTrap = 0 ∨ s'.runningTrap = s.runningTrap ∧ (pc = .enter ∨ pc = .test)) :
    Move trapped s l s' ⟨sig, old, pc⟩ ⟨sig, old, pc'⟩ rest where
  calls := hcalls
  calls' := hcalls'
  pending t := by
    rcases hpending with heq | heq
    · rw [heq]
      exact Or.inl rfl
    · rw [heq, Function.update_apply]
      split
      · exact Or.inr rfl
      · exact Or.inl rfl
  flag := hflag
  fits := hfits
  chld := hchld
  progress := hprogress
  impossible := himpossible
  read := hread
  covers t ht hcovers _ := by
    rcases hcovers with hlt | ⟨rfl, hpc⟩
    · exact Or.inl hlt
    · refine Or.inr ⟨rfl, ?_⟩
      intro hpc'
      rcases hcleared hpc' with h | h
      · exact hpc h
      · exact ht h
  keeps t hstart _ h := by
    by_cases ht : sig = t
    · subst ht
      rcases hkeeps with hl | hkeeps
      · exact absurd hl hstart
      · rcases hkeeps (h.imp_right fun hsoon => hsoon.2) with h' | h'
        · exact Or.inl h'
        · exact Or.inr ⟨rfl, h'⟩
    · left
      rcases h with h | h
      · rcases hpending with heq | heq
        · rw [heq]
          exact h
        · rw [heq, Function.update_of_ne (Ne.symm ht)]
          exact h
      · exact absurd h.1 ht
  before t hstart _ _ h := by
    rcases h with hlt | ⟨rfl, hpc⟩
    · exact Or.inl hlt
    · rcases hstarted with hl | hstarted
      · exact absurd hl hstart
      · exact Or.inr ⟨rfl, hstarted hpc⟩
  running _ hold := ⟨hold, hrunning⟩

/-- The call goes on to the next signal. -/
theorem Move.next (hcalls : s.calls = ⟨sig, old, pc⟩ :: rest)
    (hcalls' : s'.calls = ⟨sig + 1, old, .test⟩ :: rest)
    (hpending : s'.pendingTraps = s.pendingTraps ∨
      s'.pendingTraps = Function.update s.pendingTraps sig 0)
    (hflag : s'.catchFlag = s.catchFlag) (hsig : sig < nsig)
    (hprogress : s'.inProgress = true ↔ ChldIn rest)
    (himpossible : s'.impossible = true → s'.inProgress = true)
    (hcovers : s'.pendingTraps sig = 0 ∨ pc.Cleared ∨ sig = sigchld ∧ ChldIn rest)
    (hsoon : ¬pc.StartsSoon)
    (hkeeps : s'.pendingTraps = s.pendingTraps ∨ l = .clearPending sig)
    (hstarted : ¬pc.NotStarted ∨ s.pendingTraps sig = 0 ∨ ChldIn rest)
    (hrunning : rest = [] → old = 0 →
      s'.runningTrap = 0 ∨ s'.runningTrap = s.runningTrap ∧ (pc = .enter ∨ pc = .test)) :
    Move trapped s l s' ⟨sig, old, pc⟩ ⟨sig + 1, old, .test⟩ rest where
  calls := hcalls
  calls' := hcalls'
  pending t := by
    rcases hpending with heq | heq
    · rw [heq]
      exact Or.inl rfl
    · rw [heq, Function.update_apply]
      split
      · exact Or.inr rfl
      · exact Or.inl rfl
  flag _ := hflag
  fits := ⟨Nat.le_add_left 1 sig, hsig, trivial⟩
  chld := False.elim
  progress := hprogress.trans (false_or _).symm.to_iff
  impossible := himpossible
  read h := by cases h
  covers t ht hf hchld := by
    rcases hf with hlt | ⟨rfl, hpc⟩
    · rcases Nat.lt_or_eq_of_le hlt with hlt | heq
      · exact Or.inl hlt
      · exact Or.inr ⟨heq, id⟩
    · rcases hcovers with hzero | hcleared | ⟨hsig, hrest⟩
      · exact absurd hzero ht
      · exact absurd hcleared hpc
      · exact absurd hrest (hchld hsig)
  keeps t _ hclear h := by
    left
    rcases h with h | ⟨rfl, h⟩
    · rcases hkeeps with heq | hl
      · rw [heq]
        exact h
      · rcases hpending with heq | heq
        · rw [heq]
          exact h
        · rw [heq, Function.update_of_ne]
          · exact h
          · intro ht
            exact hclear (hl.trans (congrArg Label.clearPending ht.symm))
    · exact absurd h hsoon
  before t _ hkept hrest h := by
    rcases h with hlt | ⟨rfl, hpc⟩
    · rcases Nat.lt_or_eq_of_le hlt with hlt | heq
      · exact Or.inl hlt
      · exact Or.inr ⟨heq, trivial⟩
    · rcases hstarted with hstarted | hzero | hchld
      · exact absurd hpc hstarted
      · rcases hkept with hkept | hkept
        · exact absurd hzero hkept
        · exact absurd hkept.2 hsoon
      · obtain ⟨g, hg, -⟩ := hchld
        rw [hrest] at hg
        cases hg
  running hrest hold := ⟨hold, fun _ => hrunning hrest hold⟩

/-- A pending signal is trapped, and the trap of `SIGCHLD` is set where it does not run. -/
theorem ofSignal_cases (hwf : WellFormed trapped s)
    (hpending : s.pendingTraps sig ≠ 0) (hin : sig = sigchld → s.inProgress = false) :
    sig = sigint ∧ Pc.ofSignal trapped s sig = .intClear ∨
      sig = sigchld ∧ Pc.ofSignal trapped s sig = .chldRead ∧ s.impossible = false ∨
      sig ≠ sigchld ∧ Pc.ofSignal trapped s sig = .clear := by
  have htrapped := (hwf.pending sig hpending).1
  rw [Pc.ofSignal]
  by_cases hint : sig = sigint
  · left
    exact ⟨hint, if_pos hint⟩
  rw [if_neg hint]
  by_cases hchld : sig = sigchld
  · right
    left
    have himp : s.impossible = false := by
      by_contra himp
      have htrue := hwf.impossible (Bool.not_eq_false _ ▸ himp)
      exact Bool.false_ne_true ((hin hchld).symm.trans htrue)
    refine ⟨hchld, if_pos ⟨hchld, ?_, ?_⟩, himp⟩
    · rw [himp]
      exact Bool.false_ne_true
    · rw [hin hchld]
      exact Bool.false_ne_true
  · right
    right
    refine ⟨hchld, ?_⟩
    rw [if_neg (fun h => hchld h.1), if_neg]
    rintro (h | h)
    · rw [htrapped] at h
      cases h
    · exact hchld h.1

theorem step_cases (hwf : WellFormed trapped s) (hstep : Step trapped s l s') :
    StepCases trapped s l s' := by
  have hnested := hwf.nested
  have hprogress := hwf.progress
  have hread := hwf.read
  cases hstep with
  | trapHandler sig hsig htrapped => exact .arrive sig 1 rfl Nat.one_pos ⟨htrapped, hsig⟩ rfl
  | queueSigchldTrap n hn htrapped =>
    exact .arrive sigchld n rfl hn ⟨htrapped, by decide, by decide⟩ rfl
  | refuse htop hflag => exact .refuse rfl rfl hflag
  | call htop => exact .call rfl htop rfl
  | done old rest hcalls => exact .return old rest rfl hcalls rfl
  | leave sig old pc rest hcalls hpc =>
    refine .leave ⟨sig, old, pc⟩ rest rfl hcalls rfl rfl rfl ?_ fun _ => ⟨rfl, rfl, rfl⟩
    rcases hpc with rfl | rfl <;> exact trivial
  | chldLeave sig old x rest hcalls =>
    exact .leave ⟨sig, old, .chldAction x⟩ rest rfl hcalls rfl rfl rfl trivial
      fun h => absurd trivial h
  | enter sig old rest hcalls =>
    rw [hcalls] at hnested hprogress
    obtain ⟨⟨hle, hsig, -⟩, -⟩ := hnested
    exact .move _ _ rest (.same hcalls rfl (Or.inl rfl) (fun h => absurd rfl h)
      ⟨hle, hsig, trivial⟩ False.elim (hprogress.trans (chldIn_cons.trans Iff.rfl))
      hwf.impossible nofun False.elim (Or.inr (Or.imp_right False.elim)) (Or.inr id)
      fun _ => Or.inr ⟨rfl, Or.inl rfl⟩)
  | skip sig old rest hcalls hsig hpending =>
    rw [hcalls] at hnested hprogress
    exact .move _ _ rest (.next hcalls rfl (Or.inl rfl) rfl hsig
      (hprogress.trans (chldIn_cons.trans (or_iff_right id))) hwf.impossible (Or.inl hpending) id
      (Or.inl rfl) (Or.inr (Or.inl hpending)) fun _ _ => Or.inr ⟨rfl, Or.inr rfl⟩)
  | chldSkip old rest hcalls hpending hin =>
    rw [hcalls] at hnested hprogress
    have hrest : ChldIn rest := (or_iff_right id).mp (chldIn_cons.mp (hprogress.mp hin))
    exact .move _ _ rest (.next hcalls rfl (Or.inl rfl) rfl (by decide)
      (hprogress.trans (chldIn_cons.trans (or_iff_right id))) hwf.impossible
      (Or.inr (Or.inr ⟨rfl, hrest⟩)) id (Or.inl rfl) (Or.inr (Or.inr hrest))
      fun _ _ => Or.inl rfl)
  | found sig old rest hcalls hsig hpending hin =>
    rw [hcalls] at hnested hprogress
    obtain ⟨htrapped, hle, -⟩ := hwf.pending sig hpending
    have hother : sig ≠ sigchld → (s.inProgress || (sig = sigchld && !s.impossible)) =
        s.inProgress := by
      intro hne
      rw [decide_eq_false hne, Bool.false_and, Bool.or_false]
    rcases ofSignal_cases hwf hpending hin with ⟨rfl, hpc⟩ | ⟨rfl, hpc, himp⟩ | ⟨hne, hpc⟩
    · rw [hpc, hother (by decide)]
      exact .move _ _ rest (.same hcalls rfl (Or.inl rfl) (fun _ => rfl)
        ⟨hle, Nat.le_of_lt hsig, rfl, htrapped⟩ False.elim (hprogress.trans chldIn_cons)
        hwf.impossible
        nofun False.elim (Or.inr fun _ => Or.inl hpending) (Or.inr id) nofun)
    · have hrest : ¬ChldIn rest := by
        intro hrest
        have htrue := hprogress.mpr (chldIn_cons.mpr (Or.inr hrest))
        exact Bool.false_ne_true ((hin rfl).symm.trans htrue)
      rw [hpc]
      refine .move _ _ rest (.same hcalls rfl (Or.inl rfl) (fun _ => rfl)
        ⟨hle, Nat.le_of_lt hsig, rfl⟩ (fun _ => hrest) ⟨fun _ => Or.inl trivial, fun _ => ?_⟩
        (fun _ => ?_)
        (fun _ => hpending) False.elim (Or.inr fun _ => Or.inl hpending) (Or.inr id) nofun)
      · simp [himp]
      · simp [himp]
    · rw [hpc, hother hne]
      exact .move _ _ rest (.same hcalls rfl (Or.inl rfl) (fun _ => rfl)
        ⟨hle, Nat.le_of_lt hsig, hsig⟩ False.elim (hprogress.trans chldIn_cons) hwf.impossible
        nofun False.elim (Or.inr fun _ => Or.inl hpending) (Or.inr id) nofun)
  | intClear sig old rest hcalls =>
    rw [hcalls] at hnested hprogress
    obtain ⟨hfits, -⟩ := hnested
    exact .move _ _ rest (.same hcalls rfl (Or.inr rfl) (fun _ => rfl) hfits False.elim
      (hprogress.trans chldIn_cons) hwf.impossible nofun False.elim
      (Or.inr fun _ => Or.inr trivial) (Or.inr id) nofun)
  | interruptClear sig old rest hcalls =>
    rw [hcalls] at hnested hprogress
    obtain ⟨hfits, -⟩ := hnested
    obtain rfl : sig = sigint := hfits.2.2.1
    exact .move _ _ rest (.same hcalls rfl (Or.inr rfl) (fun _ => rfl) hfits False.elim
      (hprogress.trans chldIn_cons) hwf.impossible nofun False.elim
      (Or.inr fun _ => Or.inr trivial) (Or.inr id) nofun)
  | interruptFlag sig old rest hcalls =>
    rw [hcalls] at hnested hprogress
    obtain ⟨hfits, -⟩ := hnested
    exact .move _ _ rest (.same hcalls rfl (Or.inl rfl) (fun h => absurd rfl h) hfits False.elim
      (hprogress.trans chldIn_cons) hwf.impossible nofun False.elim
      (Or.inr fun _ => Or.inr trivial) (Or.inr id) nofun)
  | interruptStart sig old rest hcalls htrapped =>
    rw [hcalls] at hnested hprogress
    obtain ⟨hfits, -⟩ := hnested
    obtain rfl : sig = sigint := hfits.2.2.1
    exact .move _ _ rest (.same hcalls rfl (Or.inl rfl) (fun _ => rfl) hfits False.elim
      (hprogress.trans chldIn_cons) hwf.impossible nofun False.elim (Or.inl rfl) (Or.inl rfl)
      nofun)
  | interruptUntrapped sig old rest hcalls htrapped =>
    rw [hcalls] at hnested
    obtain ⟨⟨-, -, rfl, htrapped'⟩, -⟩ := hnested
    exact absurd (htrapped.symm.trans htrapped') Bool.false_ne_true
  | interruptEnd sig old rest hcalls =>
    rw [hcalls] at hnested hprogress
    obtain ⟨⟨hle, hle', rfl, -⟩, -⟩ := hnested
    have hsig : sigint < nsig := by decide
    exact .move _ _ rest (.same hcalls rfl (Or.inl rfl) (fun _ => rfl)
      ⟨hle, hle', hsig⟩ False.elim (hprogress.trans chldIn_cons) hwf.impossible nofun
      False.elim (Or.inr (Or.imp_right False.elim)) (Or.inr False.elim) nofun)
  | chldRead sig old rest hcalls =>
    rw [hcalls] at hnested hprogress hread
    obtain ⟨⟨hle, hle', rfl⟩, -, hchld, -⟩ := hnested
    exact .move _ _ rest (.same hcalls rfl (Or.inl rfl) (fun _ => rfl)
      ⟨hle, hle', rfl, hread _ rfl rfl⟩ (fun _ => hchld trivial) (hprogress.trans chldIn_cons)
      hwf.impossible nofun False.elim (Or.inr (Or.imp_right False.elim)) (Or.inr id) nofun)
  | chldClear sig old x rest hcalls =>
    rw [hcalls] at hnested hprogress
    obtain ⟨⟨hle, hle', rfl, hx⟩, -, hchld, -⟩ := hnested
    obtain ⟨n, rfl⟩ := Nat.exists_eq_succ_of_ne_zero hx
    have hin : s.inProgress = true := hprogress.mpr (chldIn_cons.mpr (Or.inl trivial))
    have hzero : (s.setPending sigchld 0).pendingTraps sigchld = 0 :=
      Function.update_self sigchld 0 s.pendingTraps
    exact .move _ _ rest (.same hcalls rfl (Or.inr rfl) (fun _ => rfl)
      ⟨hle, hle', rfl⟩ (fun _ => hchld trivial) (hprogress.trans chldIn_cons)
      (fun _ => hin) nofun (fun _ => Or.inr hzero)
      (Or.inr fun _ => Or.inr trivial) (Or.inr id) nofun)
  | chldStart sig old x rest hcalls =>
    rw [hcalls] at hnested hprogress
    obtain ⟨⟨hle, hle', rfl⟩, -, hchld, -⟩ := hnested
    exact .move _ _ rest (.same hcalls rfl (Or.inl rfl) (fun _ => rfl)
      ⟨hle, hle', rfl⟩ (fun _ => hchld trivial) (hprogress.trans chldIn_cons)
      hwf.impossible nofun (fun _ => Or.inl trivial) (Or.inl rfl) (Or.inl rfl) nofun)
  | chldEnd sig old x rest hcalls =>
    rw [hcalls] at hnested hprogress
    obtain ⟨⟨hle, hle', rfl⟩, -, hchld, -⟩ := hnested
    exact .move _ _ rest (.same hcalls rfl (Or.inl rfl) (fun _ => rfl)
      ⟨hle, hle', rfl⟩ (fun _ => hchld trivial) (hprogress.trans chldIn_cons)
      hwf.impossible nofun (fun _ => Or.inl trivial) (Or.inr (Or.imp_right False.elim))
      (Or.inr False.elim) nofun)
  | chldDone sig old rest hcalls =>
    rw [hcalls] at hnested hprogress
    obtain ⟨⟨hle, hle', rfl⟩, -, hchld, -⟩ := hnested
    exact .move _ _ rest (.next hcalls rfl (Or.inl rfl) rfl (by decide)
      ⟨nofun, fun h => absurd h (hchld trivial)⟩ nofun (Or.inr (Or.inl trivial)) id
      (Or.inl rfl) (Or.inl id) fun _ _ => Or.inl rfl)
  | clear sig old rest hcalls =>
    rw [hcalls] at hnested hprogress
    obtain ⟨hfits, -⟩ := hnested
    exact .move _ _ rest (.same hcalls rfl (Or.inr rfl) (fun _ => rfl) hfits False.elim
      (hprogress.trans chldIn_cons) hwf.impossible nofun False.elim
      (Or.inr fun _ => Or.inr trivial) (Or.inr id) nofun)
  | start sig old rest hcalls =>
    rw [hcalls] at hnested hprogress
    obtain ⟨hfits, -⟩ := hnested
    exact .move _ _ rest (.same hcalls rfl (Or.inl rfl) (fun _ => rfl) hfits False.elim
      (hprogress.trans chldIn_cons) hwf.impossible nofun False.elim (Or.inl rfl) (Or.inl rfl)
      nofun)
  | actionEnd sig old rest hcalls =>
    rw [hcalls] at hnested hprogress
    obtain ⟨hfits, -⟩ := hnested
    exact .move _ _ rest (.same hcalls rfl (Or.inl rfl) (fun _ => rfl) hfits False.elim
      (hprogress.trans chldIn_cons) hwf.impossible nofun False.elim
      (Or.inr (Or.imp_right False.elim)) (Or.inr False.elim) nofun)
  | finish sig old rest hcalls =>
    rw [hcalls] at hnested hprogress
    obtain ⟨⟨-, -, hsig⟩, -⟩ := hnested
    exact .move _ _ rest (.next hcalls rfl (Or.inr rfl) rfl hsig
      (hprogress.trans (chldIn_cons.trans (or_iff_right id))) hwf.impossible
      (Or.inl (Function.update_self ..)) id (Or.inr rfl) (Or.inl id) fun _ hold => Or.inl hold)

/-! ## What every step keeps -/

theorem queue_pending {sig n : Nat} (hn : 0 < n) (ht : s.pendingTraps t ≠ 0 ∨ t = sig) :
    (s.queue sig n).pendingTraps t ≠ 0 := by
  change Function.update s.pendingTraps sig (s.pendingTraps sig + n) t ≠ 0
  rw [Function.update_apply]
  split
  · omega
  · rename_i hne
    exact ht.resolve_right hne

theorem queue_pending_ne {sig n : Nat} (ht : (s.queue sig n).pendingTraps t ≠ 0) :
    s.pendingTraps t ≠ 0 ∨ t = sig := by
  by_cases hne : t = sig
  · exact Or.inr hne
  · left
    have heq : (s.queue sig n).pendingTraps t = s.pendingTraps t := Function.update_of_ne hne _ _
    rw [← heq]
    exact ht

theorem not_soon_of_inAction {pc : Pc} (haction : pc.InAction) (hsoon : pc.StartsSoon) :
    False := by
  cases pc <;> first | exact haction | exact hsoon

theorem wellFormed_step (hwf : WellFormed trapped s) (hstep : Step trapped s l s')
    (hcareful : Careful ls s l) : WellFormed trapped s' := by
  cases step_cases hwf hstep with
  | arrive sig n hl hn hsig hs' =>
    subst hs'
    refine ⟨?_, hwf.nested, hwf.progress, hwf.impossible, ?_⟩
    · intro t ht
      rcases queue_pending_ne ht with ht | rfl
      · exact hwf.pending t ht
      · exact hsig
    · intro f hf hpc
      exact queue_pending hn (Or.inl (hwf.read f hf hpc))
  | refuse hl hs' =>
    subst hs'
    exact hwf
  | call hl htop hs' =>
    subst hs'
    have hall : ∀ g ∈ s.calls, g.pc.InAction := by
      have hnested := hwf.nested
      cases hcalls : s.calls with
      | nil => exact nofun
      | cons f rest =>
        rw [hcalls] at hnested htop
        intro g hg
        rcases List.mem_cons.mp hg with rfl | hg
        · exact htop g rfl
        · exact hnested.2.1 g hg
    have hfirst : 1 ≤ nsig := by decide
    refine ⟨hwf.pending, ⟨⟨Nat.le_refl 1, hfirst, rfl⟩, hall, False.elim, hwf.nested⟩, ?_,
      hwf.impossible, ?_⟩
    · exact hwf.progress.trans (chldIn_cons.trans (or_iff_right id)).symm
    · intro f hf hpc
      obtain rfl := Option.some.inj hf
      cases hpc
  | «return» old rest hl hcalls hs' =>
    subst hs'
    obtain ⟨hpending, hnested, hprogress, himpossible, -⟩ := hwf
    rw [hcalls] at hnested hprogress
    refine ⟨hpending, hnested.2.2.2, ?_, himpossible, ?_⟩
    · exact hprogress.trans (chldIn_cons.trans (or_iff_right id))
    · intro f hf hpc
      have haction := hnested.2.1 f (List.mem_of_mem_head? hf)
      rw [hpc] at haction
      exact haction.elim
  | leave f rest hl hcalls hpending hflag hcalls' hpc hmodes =>
    subst hl
    obtain ⟨hp, hnested, hprogress, himpossible, -⟩ := hwf
    obtain ⟨hchld, -⟩ := hcareful
    rw [hcalls] at hnested hprogress hchld
    obtain ⟨hin, himp, -⟩ := hmodes (hchld f rfl)
    refine ⟨?_, ?_, ?_, ?_, ?_⟩
    · rw [hpending]
      exact hp
    · rw [hcalls']
      exact hnested.2.2.2
    · rw [hin, hcalls']
      exact hprogress.trans (chldIn_cons.trans (or_iff_right (hchld f rfl)))
    · rw [hin, himp]
      exact himpossible
    · rw [hcalls']
      intro g hg hread
      have haction := hnested.2.1 g (List.mem_of_mem_head? hg)
      rw [hread] at haction
      exact haction.elim
  | move f f' rest hmove =>
    have hnested := hwf.nested
    rw [hmove.calls] at hnested
    refine ⟨?_, ?_, ?_, hmove.impossible, ?_⟩
    · intro t ht
      apply hwf.pending
      rcases hmove.pending t with heq | hzero
      · rw [← heq]
        exact ht
      · exact absurd hzero ht
    · rw [hmove.calls']
      exact ⟨hmove.fits, hnested.2.1, hmove.chld, hnested.2.2.2⟩
    · rw [hmove.calls']
      exact hmove.progress.trans chldIn_cons.symm
    · rw [hmove.calls']
      intro g hg hread
      obtain rfl := Option.some.inj hg
      exact hmove.read hread

/-- Every pending signal has the flag set, or a call still looks at it. -/
def Covered (s : Shell) : Prop :=
  ∀ t, s.pendingTraps t ≠ 0 → s.catchFlag = true ∨ Ahead s.calls t

theorem covered_step (hwf : WellFormed trapped s) (hcovered : Covered s)
    (hstep : Step trapped s l s') (hcareful : Careful ls s l) : Covered s' := by
  intro t ht
  cases step_cases hwf hstep with
  | arrive sig n hl hn hsig hs' =>
    subst hs'
    exact Or.inl rfl
  | refuse hl hs' =>
    subst hs'
    exact hcovered t ht
  | call hl htop hs' =>
    subst hs'
    exact (hcovered t ht).imp_right Or.inr
  | «return» old rest hl hcalls hs' =>
    subst hs'
    refine (hcovered t ht).imp_right ?_
    rw [hcalls]
    rintro (⟨hcovers, -⟩ | hrest)
    · -- All signals are behind this call.
      have hlt := (hwf.pending t ht).2.2
      rcases hcovers with hcovers | ⟨hcovers, -⟩
      · exact absurd hcovers (Nat.lt_asymm hlt)
      · exact absurd hcovers.symm (Nat.ne_of_lt hlt)
    · exact hrest
  | leave f rest hl hcalls hpending hflag hcalls' hpc hmodes =>
    subst hl
    obtain ⟨-, hcareful⟩ := hcareful
    rw [hpending] at ht
    rw [hflag, hcalls']
    have hleft := hcareful t ht
    rw [hcalls] at hleft
    exact hleft
  | move f f' rest hmove =>
    have ht' : s.pendingTraps t ≠ 0 := by
      rcases hmove.pending t with heq | hzero
      · rw [← heq]
        exact ht
      · exact absurd hzero ht
    have hahead : Ahead s.calls t → Ahead s'.calls t := by
      rw [hmove.calls, hmove.calls']
      rintro (⟨hcovers, hchld⟩ | hrest)
      · exact Or.inl ⟨hmove.covers t ht hcovers hchld, hchld⟩
      · exact Or.inr hrest
    by_cases hl : l = .clearFlag
    · subst hl
      exact Or.inr (hahead (hcareful t ht'))
    · rw [hmove.flag hl]
      exact (hcovered t ht').imp_right hahead

/-- An owed signal is pending, or its action is about to start. -/
def Kept (ls : List Label) (s : Shell) : Prop :=
  ∀ t, Owed t ls → s.pendingTraps t ≠ 0 ∨ ∃ f ∈ s.calls.head?, f.Soon t

theorem kept_step (hwf : WellFormed trapped s) (hkept : Kept ls s) (hstep : Step trapped s l s')
    (hcareful : Careful ls s l) : Kept (ls ++ [l]) s' := by
  intro t howed
  rw [owed_append] at howed
  cases step_cases hwf hstep with
  | arrive sig n hl hn hsig hs' =>
    subst hs' hl
    rcases howed with heq | ⟨howed, -⟩
    · left
      exact queue_pending hn (Or.inr (Label.arrive.inj heq).symm)
    · exact (hkept t howed).imp_left fun h => queue_pending hn (Or.inl h)
  | refuse hl hs' =>
    subst hs' hl
    rcases howed with heq | ⟨howed, -⟩
    · cases heq
    · exact hkept t howed
  | call hl htop hs' =>
    subst hs' hl
    rcases howed with heq | ⟨howed, -⟩
    · cases heq
    · rcases hkept t howed with h | ⟨f, hf, -, hsoon⟩
      · exact Or.inl h
      · exact (not_soon_of_inAction (htop f hf) hsoon).elim
  | «return» old rest hl hcalls hs' =>
    subst hs' hl
    rcases howed with heq | ⟨howed, -⟩
    · cases heq
    · rcases hkept t howed with h | ⟨f, hf, -, hsoon⟩
      · exact Or.inl h
      · rw [hcalls] at hf
        obtain rfl := Option.some.inj hf
        exact hsoon.elim
  | leave f rest hl hcalls hpending hflag hcalls' hpc hmodes =>
    subst hl
    rcases howed with heq | ⟨howed, -⟩
    · cases heq
    · rw [hpending]
      rcases hkept t howed with h | ⟨g, hg, -, hsoon⟩
      · exact Or.inl h
      · rw [hcalls] at hg
        obtain rfl := Option.some.inj hg
        exact (not_soon_of_inAction hpc hsoon).elim
  | move f f' rest hmove =>
    rcases howed with rfl | ⟨howed, hstart⟩
    · left
      cases hstep with
      | trapHandler => exact queue_pending Nat.one_pos (Or.inr rfl)
      | queueSigchldTrap n hn => exact queue_pending hn (Or.inr rfl)
    · have hclear : l ≠ .clearPending t := by
        rintro rfl
        exact hcareful howed
      have hbefore : s.pendingTraps t ≠ 0 ∨ f.Soon t := by
        refine (hkept t howed).imp_right ?_
        rintro ⟨g, hg, hsoon⟩
        rw [hmove.calls] at hg
        obtain rfl := Option.some.inj hg
        exact hsoon
      refine (hmove.keeps t hstart hclear hbefore).imp_right ?_
      intro hsoon
      rw [hmove.calls']
      exact ⟨f', rfl, hsoon⟩

/-- Where the outermost call is not running, neither is a trap. -/
structure Outermost (s : Shell) : Prop where
  idle : s.calls = [] → s.runningTrap = 0
  old : ∀ f ∈ s.calls.getLast?, f.oldRunning = 0
  test : ∀ f, s.calls = [f] → f.pc = .enter ∨ f.pc = .test → s.runningTrap = 0

theorem getLast?_of_rest {g : Frame} (hg : g ∈ rest.getLast?) : g ∈ (f :: rest).getLast? := by
  rw [Option.mem_def] at hg ⊢
  rw [List.getLast?_cons, hg]
  rfl

theorem outermost_step (hwf : WellFormed trapped s) (hout : Outermost s)
    (hstep : Step trapped s l s') (hcareful : Careful ls s l) : Outermost s' := by
  cases step_cases hwf hstep with
  | arrive sig n hl hn hsig hs' =>
    subst hs'
    exact ⟨hout.idle, hout.old, hout.test⟩
  | refuse hl hs' =>
    subst hs'
    exact hout
  | call hl htop hs' =>
    subst hs'
    refine ⟨nofun, ?_, ?_⟩
    · intro f hf
      cases hcalls : s.calls with
      | nil =>
        have hf' : f = ⟨1, s.runningTrap, .enter⟩ := by
          rw [Shell.setCalls, hcalls] at hf
          exact (Option.some.inj hf).symm
        rw [hf']
        exact hout.idle hcalls
      | cons g rest =>
        apply hout.old
        rw [hcalls]
        rw [Shell.setCalls, hcalls] at hf
        exact hf
    · intro f hf _
      exact hout.idle (List.cons.inj hf).2
  | «return» old rest hl hcalls hs' =>
    subst hs'
    have hnested := hwf.nested
    rw [hcalls] at hnested
    obtain ⟨-, hold, htest⟩ := hout
    rw [hcalls] at hold htest
    refine ⟨?_, ?_, ?_⟩
    · intro hrest
      exact htest _ (congrArg _ hrest) (Or.inr rfl)
    · intro f hf
      exact hold f (getLast?_of_rest hf)
    · intro f hf hpc
      change rest = [f] at hf
      have haction := hnested.2.1 f (hf ▸ List.mem_singleton_self f)
      rcases hpc with hpc | hpc
      · rw [hpc] at haction
        exact haction.elim
      · rw [hpc] at haction
        exact haction.elim
  | leave f rest hl hcalls hpending hflag hcalls' hpc hmodes =>
    subst hl
    obtain ⟨hchld, -⟩ := hcareful
    have hnested := hwf.nested
    obtain ⟨-, hold, -⟩ := hout
    rw [hcalls] at hnested hold hchld
    obtain ⟨-, -, hrunning⟩ := hmodes (hchld f rfl)
    refine ⟨?_, ?_, ?_⟩
    · intro hrest
      rw [hcalls'] at hrest
      rw [hrunning]
      exact hold f (by rw [hrest]; rfl)
    · intro g hg
      rw [hcalls'] at hg
      exact hold g (getLast?_of_rest hg)
    · intro g hg hpc
      rw [hcalls'] at hg
      have haction := hnested.2.1 g (hg ▸ List.mem_singleton_self g)
      rcases hpc with hpc | hpc
      · rw [hpc] at haction
        exact haction.elim
      · rw [hpc] at haction
        exact haction.elim
  | move f f' rest hmove =>
    obtain ⟨-, hold, htest⟩ := hout
    rw [hmove.calls] at hold htest
    refine ⟨?_, ?_, ?_⟩
    · intro hnil
      rw [hmove.calls'] at hnil
      cases hnil
    · intro g hg
      rw [hmove.calls'] at hg
      cases rest with
      | nil =>
        obtain rfl := Option.some.inj hg
        exact (hmove.running rfl (hold f rfl)).1
      | cons h rest =>
        apply hold
        rw [List.getLast?_cons_cons] at hg ⊢
        exact hg
    · intro g hg hpc
      rw [hmove.calls'] at hg
      obtain ⟨rfl, rfl⟩ := List.cons.inj hg
      rcases (hmove.running rfl (hold f rfl)).2 hpc with hzero | ⟨heq, hpc'⟩
      · exact hzero
      · rw [heq]
        exact htest f rfl hpc'

/-! ## Runs -/

theorem reach_invariant (hreach : Reach trapped ls s) :
    WellFormed trapped s ∧ Covered s ∧ Kept ls s ∧ Outermost s := by
  induction hreach with
  | initial =>
    refine ⟨⟨?_, trivial, ?_, nofun, nofun⟩, ?_, ?_, ⟨fun _ => rfl, nofun, nofun⟩⟩
    · intro t ht
      exact absurd rfl ht
    · constructor
      · nofun
      · rintro ⟨f, hf, -⟩
        cases hf
    · intro t ht
      exact absurd rfl ht
    · rintro t ⟨l₁, l₂, heq, -⟩
      have hlen := congrArg List.length heq
      rw [List.length_append, List.length_cons, List.length_nil] at hlen
      omega
  | step ls s s' l hreach hstep hcareful ih =>
    obtain ⟨hwf, hcovered, hkept, hout⟩ := ih
    exact ⟨wellFormed_step hwf hstep hcareful, covered_step hwf hcovered hstep hcareful,
      kept_step hwf hkept hstep hcareful, outermost_step hwf hout hstep hcareful⟩

/-- A call from outside of all calls, begun behind `ls`, is active; `m` are the labels since. -/
inductive During (trapped : Nat → Bool) (ls : List Label) : List Label → Shell → Prop
  | call (s s' : Shell) (hreach : Reach trapped ls s) (hcalls : s.calls = [])
      (hstep : Step trapped s .call s') : During trapped ls [.call] s'
  | step (m : List Label) (s s' : Shell) (l : Label) (hduring : During trapped ls m s)
      (hstep : Step trapped s l s') (hcareful : Careful (ls ++ m) s l) (hcalls : s'.calls ≠ []) :
      During trapped ls (m ++ [l]) s'

/-- Such a call was made and has returned. -/
inductive Completes (trapped : Nat → Bool) (ls : List Label) : List Label → Prop
  | refuse (s s' : Shell) (hreach : Reach trapped ls s) (hcalls : s.calls = [])
      (hstep : Step trapped s .refuse s') : Completes trapped ls [.refuse]
  | return (m : List Label) (s s' : Shell) (hduring : During trapped ls m s)
      (hstep : Step trapped s .return s') (hcalls : s'.calls = []) :
      Completes trapped ls (m ++ [.return])

theorem During.reach {m : List Label} (h : During trapped ls m s) : Reach trapped (ls ++ m) s := by
  induction h with
  | call s s' hreach hcalls hstep => exact .step ls s s' .call hreach hstep trivial
  | step m s s' l hduring hstep hcareful hcalls ih =>
    rw [← List.append_assoc]
    exact .step _ s s' l ih hstep hcareful

/-- While an earlier arrival is owed, the outermost call has not come to its action. -/
theorem During.before {m l₁ l₂ : List Label} (h : During trapped ls m s)
    (hls : ls = l₁ ++ .arrive t :: l₂) (hstart : .start t ∉ l₂ ++ m) :
    ∃ f ∈ s.calls.getLast?, f.Before t := by
  induction h with
  | call s s' hreach hcalls hstep =>
    obtain ⟨hwf, -, hkept, -⟩ := reach_invariant hreach
    have howed : Owed t ls := ⟨l₁, l₂, hls, fun h => hstart (List.mem_append_left _ h)⟩
    have hpending : s.pendingTraps t ≠ 0 := by
      rcases hkept t howed with h | ⟨f, hf, -⟩
      · exact h
      · rw [hcalls] at hf
        cases hf
    obtain ⟨-, hle, -⟩ := hwf.pending t hpending
    cases hstep with
    | call htop hflag hwinch =>
      rw [Shell.setCalls, hcalls]
      refine ⟨_, rfl, ?_⟩
      rcases Nat.lt_or_eq_of_le hle with hlt | heq
      · exact Or.inl hlt
      · exact Or.inr ⟨heq, trivial⟩
  | step m s s' l hduring hstep hcareful hcalls ih =>
    rw [← List.append_assoc, List.mem_append, not_or, List.mem_singleton] at hstart
    obtain ⟨hstart, hl⟩ := hstart
    obtain ⟨f, hf, hbefore⟩ := ih hstart
    obtain ⟨hwf, -, hkept, -⟩ := reach_invariant hduring.reach
    have howed : Owed t (ls ++ m) := by
      refine ⟨l₁, l₂ ++ m, ?_, hstart⟩
      rw [hls, List.append_assoc]
      rfl
    cases step_cases hwf hstep with
    | arrive sig n hl hn hsig hs' =>
      subst hs'
      exact ⟨f, hf, hbefore⟩
    | refuse hl hs' =>
      subst hs'
      exact ⟨f, hf, hbefore⟩
    | call hl htop hs' =>
      subst hs'
      exact ⟨f, getLast?_of_rest hf, hbefore⟩
    | «return» old rest hl hcalls' hs' =>
      subst hs'
      have hrest : rest ≠ [] := hcalls
      refine ⟨f, ?_, hbefore⟩
      rw [hcalls', List.getLast?_cons_of_ne_nil hrest] at hf
      exact hf
    | leave g rest hl hcalls' hpending hflag hrest hpc hmodes =>
      rw [hrest] at hcalls ⊢
      refine ⟨f, ?_, hbefore⟩
      rw [hcalls', List.getLast?_cons_of_ne_nil hcalls] at hf
      exact hf
    | move g g' rest hmove =>
      rw [hmove.calls'] at hcalls ⊢
      rw [hmove.calls] at hf
      cases rest with
      | nil =>
        obtain rfl := Option.some.inj hf
        have hkept' : s.pendingTraps t ≠ 0 ∨ g.Soon t := by
          refine (hkept t howed).imp_right ?_
          rintro ⟨h, hh, hsoon⟩
          rw [hmove.calls] at hh
          obtain rfl := Option.some.inj hh
          exact hsoon
        exact ⟨g', rfl, hmove.before t (Ne.symm hl) hkept' rfl hbefore⟩
      | cons h rest =>
        rw [List.getLast?_cons_cons] at hf ⊢
        exact ⟨f, hf, hbefore⟩

/-- In a careful run, a pending signal has the flag set where no call is active, and a call that
is completed has started the action of every signal that arrived before it. -/
theorem traps_delivered (trapped : Nat → Bool) :
    (∀ ls s, Reach trapped ls s → s.calls = [] → ∀ sig, s.pendingTraps sig ≠ 0 →
      s.catchFlag = true) ∧
    ∀ ls m, Completes trapped ls m → ∀ sig l₁ l₂, ls = l₁ ++ .arrive sig :: l₂ →
      .start sig ∈ l₂ ++ m := by
  have hflag : ∀ ls s, Reach trapped ls s → s.calls = [] → ∀ sig, s.pendingTraps sig ≠ 0 →
      s.catchFlag = true := by
    intro ls s hreach hcalls sig hpending
    rcases (reach_invariant hreach).2.1 sig hpending with h | h
    · exact h
    · rw [hcalls] at h
      exact h.elim
  refine ⟨hflag, ?_⟩
  intro ls m hcompletes sig l₁ l₂ hls
  by_contra hstart
  cases hcompletes with
  | refuse s s' hreach hcalls hstep =>
    obtain ⟨hwf, -, hkept, hout⟩ := reach_invariant hreach
    have howed : Owed sig ls := ⟨l₁, l₂, hls, fun h => hstart (List.mem_append_left _ h)⟩
    have hpending : s.pendingTraps sig ≠ 0 := by
      rcases hkept sig howed with h | ⟨f, hf, -⟩
      · exact h
      · rw [hcalls] at hf
        cases hf
    have hset := hflag ls s hreach hcalls sig hpending
    cases hstep with
    | refuse htop hrefuse =>
      rcases hrefuse with hclear | ⟨hrunning, -⟩
      · rw [hset] at hclear
        cases hclear
      · rw [hout.idle hcalls] at hrunning
        cases hrunning
  | «return» m s s' hduring hstep hcalls =>
    rw [← List.append_assoc, List.mem_append, not_or] at hstart
    obtain ⟨f, hf, hbefore⟩ := hduring.before hls hstart.1
    obtain ⟨hwf, -, hkept, -⟩ := reach_invariant hduring.reach
    have howed : Owed sig (ls ++ m) := by
      refine ⟨l₁, l₂ ++ m, ?_, hstart.1⟩
      rw [hls, List.append_assoc]
      rfl
    cases hstep with
    | done old rest hcalls' =>
      obtain rfl : rest = [] := hcalls
      rw [hcalls'] at hf
      obtain rfl := Option.some.inj hf
      rcases hkept sig howed with hpending | ⟨g, hg, -, hsoon⟩
      · have hlt := (hwf.pending sig hpending).2.2
        rcases hbefore with hlt' | ⟨heq, -⟩
        · exact Nat.lt_asymm hlt hlt'
        · exact Nat.ne_of_lt hlt heq.symm
      · rw [hcalls'] at hg
        obtain rfl := Option.some.inj hg
        exact hsoon

theorem During.skip {m : List Label} {sig old : Nat} (n : Nat) (h : During trapped ls m s)
    (hcalls : s.calls = ⟨sig, old, .test⟩ :: rest)
    (hzero : ∀ i, sig ≤ i → i < sig + n → s.pendingTraps i = 0) (hle : sig + n ≤ nsig) :
    During trapped ls (m ++ List.replicate n .silent)
      (s.setCalls (⟨sig + n, old, .test⟩ :: rest)) := by
  induction n generalizing s sig m with
  | zero =>
    have hsame : s.setCalls (⟨sig + 0, old, .test⟩ :: rest) = s := by
      rw [Nat.add_zero, ← hcalls]
      rfl
    rw [hsame, List.replicate_zero, List.append_nil]
    exact h
  | succ n ih =>
    have hnext := During.step m s _ .silent h (.skip s sig old rest hcalls (by omega)
      (hzero sig (Nat.le_refl sig) (by omega))) trivial nofun
    have hrest := ih hnext rfl (fun i hi hlt => hzero i (by omega) (by omega))
      (by omega)
    rw [Nat.add_assoc, Nat.add_comm 1 n, List.append_assoc] at hrest
    exact hrest

theorem queue_zero {sig n i : Nat} (hi : i ≠ sig) (hzero : s.pendingTraps i = 0) :
    (s.queue sig n).pendingTraps i = 0 :=
  (Function.update_of_ne hi _ _).trans hzero

theorem setPending_zero {sig i : Nat} (hzero : i ≠ sig → s.pendingTraps i = 0) :
    (s.setPending sig 0).pendingTraps i = 0 := by
  change Function.update s.pendingTraps sig 0 i = 0
  rw [Function.update_apply]
  split
  · rfl
  · rename_i hi
    exact hzero hi

/-- Signal 15 arrives once. -/
theorem traps_delivered_once :
    ∃ m, Completes (fun _ => true) [.arrive 15] m ∧ .start 15 ∈ [] ++ m := by
  have harrive : Reach (fun _ => true) [.arrive 15] (Shell.initial.queue 15 1) :=
    .step [] .initial _ (.arrive 15) .initial (.trapHandler _ 15 (by decide) rfl nofun) trivial
  have hcall := During.call _ _ harrive rfl (.call _ nofun rfl (by decide))
  have henter := During.step _ _ _ _ hcall (.enter _ _ _ _ rfl) ?_ nofun
  · have hskip := During.skip 14 henter rfl (fun i _ hi => queue_zero (by omega) rfl) (by decide)
    have hfound := During.step _ _ _ _ hskip
      (.found _ _ _ _ rfl (by decide) (by decide) nofun) trivial nofun
    have hclear := During.step _ _ _ _ hfound (.clear _ _ _ _ rfl) trivial nofun
    have hstart := During.step _ _ _ _ hclear (.start _ _ _ _ rfl) trivial nofun
    have hend := During.step _ _ _ _ hstart (.actionEnd _ _ _ _ rfl) trivial nofun
    have hfinish := During.step _ _ _ _ hend (.finish _ _ _ _ rfl) ?_ nofun
    · have hlast := During.skip 49 hfinish rfl (fun i hi _ => setPending_zero fun hi' =>
        setPending_zero fun hi' => queue_zero hi' rfl) (by decide)
      have hreturn := Completes.return _ _ _ hlast (.done _ _ _ rfl) rfl
      exact ⟨_, hreturn, (traps_delivered _).2 _ _ hreturn 15 [] [] rfl⟩
    · intro howed
      rw [← List.append_assoc, owed_append, ← List.append_assoc, owed_append] at howed
      rcases howed with hl | ⟨hl | ⟨-, hl⟩, -⟩
      · cases hl
      · cases hl
      · exact hl rfl
  · intro t ht
    left
    refine ⟨?_, fun _ h => by obtain ⟨g, hg, -⟩ := h; cases hg⟩
    by_cases heq : t = 15
    · rw [heq]
      exact Or.inl (by decide : 1 < 15)
    · exact absurd (queue_zero heq rfl) ht

/-! ## Runs that lose signals -/

/-- Any run. -/
inductive Runs (trapped : Nat → Bool) : Shell → List Label → Shell → Prop
  | nil (s : Shell) : Runs trapped s [] s
  | cons (s s₁ s₂ : Shell) (l : Label) (ls : List Label) (hstep : Step trapped s l s₁)
      (hruns : Runs trapped s₁ ls s₂) : Runs trapped s (l :: ls) s₂

theorem Runs.append {s₁ s₂ : Shell} {ls₁ ls₂ : List Label} (h₁ : Runs trapped s ls₁ s₁)
    (h₂ : Runs trapped s₁ ls₂ s₂) : Runs trapped s (ls₁ ++ ls₂) s₂ := by
  induction h₁ with
  | nil s => exact h₂
  | cons s s₁ s₂ l ls hstep hruns ih => exact .cons s s₁ _ l _ hstep (ih h₂)

/-- Some run ends so. -/
def Leads (trapped : Nat → Bool) (s : Shell) (P : List Label → Shell → Prop) : Prop :=
  ∃ ls s', Runs trapped s ls s' ∧ P ls s'

variable {P : List Label → Shell → Prop}

theorem Leads.here (h : P [] s) : Leads trapped s P := ⟨[], s, .nil s, h⟩

theorem Leads.step (hstep : Step trapped s l s') (h : Leads trapped s' fun ls => P (l :: ls)) :
    Leads trapped s P := by
  obtain ⟨ls, s₁, hruns, hP⟩ := h
  exact ⟨l :: ls, s₁, .cons s s' s₁ l ls hstep hruns, hP⟩

/-- The loop passes signals that are not pending. -/
theorem Leads.skip {sig old : Nat} (n : Nat) (hcalls : s.calls = ⟨sig, old, .test⟩ :: rest)
    (hzero : ∀ i, sig ≤ i → i < sig + n → s.pendingTraps i = 0) (hle : sig + n ≤ nsig)
    (h : Leads trapped (s.setCalls (⟨sig + n, old, .test⟩ :: rest))
      fun ls => P (List.replicate n .silent ++ ls)) : Leads trapped s P := by
  induction n generalizing s sig P with
  | zero =>
    have hsame : s.setCalls (⟨sig + 0, old, .test⟩ :: rest) = s := by
      rw [Nat.add_zero, ← hcalls]
      rfl
    rw [hsame] at h
    exact h
  | succ n ih =>
    refine .step (.skip s sig old rest hcalls (by omega)
      (hzero sig (Nat.le_refl sig) (by omega))) ?_
    refine ih rfl (fun i hi hlt => hzero i (by omega) (by omega)) (by omega) ?_
    rw [Nat.add_assoc, Nat.add_comm 1 n]
    exact h

/-- Signal `sig` arrives, and the next call does not start its action. -/
def Loses (sig : Nat) : Prop :=
  Leads (fun _ => true) .initial fun ls s => s.calls = [] ∧ Owed sig ls ∧
    Leads (fun _ => true) s fun m s' => s'.calls = [] ∧
      (∃ m', m = .call :: m' ++ [.return]) ∧ .start sig ∉ m

/-- Signal `sig` is pending, with the flag clear and no call active. -/
def Strands (sig : Nat) : Prop :=
  Leads (fun _ => true) .initial fun _ s =>
    s.calls = [] ∧ s.pendingTraps sig ≠ 0 ∧ s.catchFlag = false

/-- Signal 15 arrives again while its action runs; the entry is cleared behind it. -/
theorem loses_during_action : Loses 15 := by
  refine .step (.trapHandler _ 15 (by decide) rfl nofun) ?_
  refine .step (.call _ nofun rfl (by decide)) ?_
  refine .step (.enter _ _ _ _ rfl) ?_
  refine .skip 14 rfl (fun i _ hi => queue_zero (by omega) rfl) (by decide) ?_
  refine .step (.found _ _ _ _ rfl (by decide) (by decide) nofun) ?_
  refine .step (.clear _ _ _ _ rfl) ?_
  refine .step (.start _ _ _ _ rfl) ?_
  refine .step (.trapHandler _ 15 (by decide) rfl nofun) ?_
  refine .step (.actionEnd _ _ _ _ rfl) ?_
  refine .step (.finish _ _ _ _ rfl) ?_
  refine .skip 49 rfl (fun i hi _ => setPending_zero fun hi' => queue_zero hi' <|
    setPending_zero fun hi' => queue_zero hi' rfl) (by decide) ?_
  refine .step (.done _ _ _ rfl) ?_
  refine .here ⟨rfl, ⟨.arrive 15 :: .call :: .clearFlag :: (List.replicate 14 .silent ++
    [.silent, .silent, .start 15]), _, rfl, by simp⟩, ?_⟩
  refine .step (.call _ nofun rfl (by decide)) ?_
  refine .step (.enter _ _ _ _ rfl) ?_
  refine .skip 64 rfl (fun i _ _ => setPending_zero fun hi' => queue_zero hi' <|
    setPending_zero fun hi' => queue_zero hi' rfl) (by decide) ?_
  refine .step (.done _ _ _ rfl) ?_
  exact .here ⟨rfl, ⟨.clearFlag :: List.replicate 64 .silent, rfl⟩, by simp⟩

/-- Signal 1 arrives between its test and `catch_flag = 0` of `run_interrupt_trap`. -/
theorem strands_interrupt : Strands 1 := by
  refine .step (.trapHandler _ 2 (by decide) rfl nofun) ?_
  refine .step (.call _ nofun rfl (by decide)) ?_
  refine .step (.enter _ _ _ _ rfl) ?_
  refine .skip 1 rfl (fun i _ hi => queue_zero (by omega) rfl) (by decide) ?_
  refine .step (.found _ _ _ _ rfl (by decide) (by decide) nofun) ?_
  refine .step (.intClear _ _ _ _ rfl) ?_
  refine .step (.interruptClear _ _ _ _ rfl) ?_
  refine .step (.trapHandler _ 1 (by decide) rfl nofun) ?_
  refine .step (.interruptFlag _ _ _ _ rfl) ?_
  refine .step (.interruptStart _ _ _ _ rfl rfl) ?_
  refine .step (.interruptEnd _ _ _ _ rfl) ?_
  refine .step (.finish _ _ _ _ rfl) ?_
  refine .skip 62 rfl (fun i hi _ => setPending_zero fun _ => queue_zero (by omega) <|
    setPending_zero fun _ => setPending_zero fun hi' => queue_zero hi' rfl) (by decide) ?_
  refine .step (.done _ _ _ rfl) ?_
  refine .here ⟨rfl, ?_, rfl⟩
  decide

/-- `SIGCHLD` arrives while its trap runs, and the trap calls `run_pending_traps`. -/
theorem strands_sigchld : Strands sigchld := by
  refine .step (.queueSigchldTrap _ 1 Nat.one_pos rfl) ?_
  refine .step (.call _ nofun rfl (by decide)) ?_
  refine .step (.enter _ _ _ _ rfl) ?_
  refine .skip 16 rfl (fun i _ hi => queue_zero (by unfold sigchld; omega) rfl) (by decide) ?_
  refine .step (.found _ _ _ _ rfl (by decide) (by decide) fun _ => rfl) ?_
  refine .step (.chldRead _ _ _ _ rfl) ?_
  refine .step (.chldClear _ _ _ _ _ rfl) ?_
  refine .step (.chldStart _ _ _ _ _ rfl) ?_
  refine .step (.queueSigchldTrap _ 1 Nat.one_pos rfl) ?_
  refine .step (.call _ (fun _ hf => by cases hf; exact trivial) rfl (by decide)) ?_
  refine .step (.enter _ _ _ _ rfl) ?_
  refine .skip 16 rfl (fun i _ hi => queue_zero (by unfold sigchld; omega) <|
    setPending_zero fun _ => queue_zero (by unfold sigchld; omega) rfl) (by decide) ?_
  refine .step (.chldSkip _ _ _ rfl (by decide) rfl) ?_
  refine .skip 47 rfl (fun i hi _ => queue_zero (by unfold sigchld at *; omega) <|
    setPending_zero fun _ => queue_zero (by unfold sigchld at *; omega) rfl) (by decide) ?_
  refine .step (.done _ _ _ rfl) ?_
  refine .step (.chldEnd _ _ _ _ _ rfl) ?_
  refine .step (.chldDone _ _ _ _ rfl) ?_
  refine .skip 47 rfl (fun i hi _ => queue_zero (by unfold sigchld at *; omega) <|
    setPending_zero fun _ => queue_zero (by unfold sigchld at *; omega) rfl) (by decide) ?_
  refine .step (.done _ _ _ rfl) ?_
  refine .here ⟨rfl, ?_, rfl⟩
  decide

/-- Signals 10 and 15 arrive; the action of 10 returns from the function that was interrupted. -/
theorem strands_leave : Strands 15 := by
  refine .step (.trapHandler _ 10 (by decide) rfl nofun) ?_
  refine .step (.trapHandler _ 15 (by decide) rfl nofun) ?_
  refine .step (.call _ nofun rfl (by decide)) ?_
  refine .step (.enter _ _ _ _ rfl) ?_
  refine .skip 9 rfl (fun i _ hi => queue_zero (by omega) (queue_zero (by omega) rfl))
    (by decide) ?_
  refine .step (.found _ _ _ _ rfl (by decide) (by decide) nofun) ?_
  refine .step (.clear _ _ _ _ rfl) ?_
  refine .step (.start _ _ _ _ rfl) ?_
  refine .step (.leave _ _ _ _ _ rfl (Or.inl rfl)) ?_
  refine .here ⟨rfl, ?_, rfl⟩
  decide

theorem traps_not_delivered : Loses 15 ∧ Strands 1 ∧ Strands sigchld ∧ Strands 15 :=
  ⟨loses_during_action, strands_interrupt, strands_sigchld, strands_leave⟩

end Basht.Traps
