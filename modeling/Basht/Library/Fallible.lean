import Mathlib.Data.List.Basic

/-!
# Machines that may fail

A machine reads its input one symbol at a time; a step emits a list of symbols, or fails,
and then the whole run fails.

* `exec`: a run on a whole input. It splits at any point of the input (`exec_append`).
* `Meets P s xs`: every step of the run is taken in a state that meets `P`
  (`Meets.of_invariant`: and then it meets what an invariant and `P` imply;
  `Meets.imp_of_invariant` and `Meets.congr_of_invariant` do not ask for success).
* `Passes P s xs`: some step of the run leads to a state that meets `P`.
* `exec_law`: what holds of every step and composes holds of every run; `exec_invariant`
  is the invariant rule, `exec_emits` the one for what a run emits.
* `exec_project`: a component of a machine runs on its own part of the input.
* `exec_ok_iff`: a criterion for one step to succeed becomes a criterion for whole runs;
  `forall_mem_iff_meets`: so does one for what a step emits.
-/

namespace Basht.Fallible

variable {ε σ α β : Type}

/-- A computation that has succeeded goes on with its result. -/
theorem ok_bind (a : α) (f : α → Except ε β) : (Except.ok a >>= f) = f a := rfl

/-- A second part of a run after a first one, with the output of both. -/
def andThen (r : Except ε (σ × List β)) (k : σ → Except ε (σ × List β)) :
    Except ε (σ × List β) :=
  match r with
  | .error e => .error e
  | .ok (s, ys) =>
    match k s with
    | .error e => .error e
    | .ok (s', zs) => .ok (s', ys ++ zs)

theorem andThen_eq_ok {r : Except ε (σ × List β)} {k : σ → Except ε (σ × List β)}
    {t : σ × List β} :
    andThen r k = .ok t ↔
      ∃ s ys s' zs, r = .ok (s, ys) ∧ k s = .ok (s', zs) ∧ t = (s', ys ++ zs) := by
  cases r with
  | error e => simp [andThen]
  | ok r =>
    obtain ⟨s, ys⟩ := r
    cases hk : k s with
    | error e =>
      simp only [andThen, hk, reduceCtorEq, false_iff]
      rintro ⟨_, _, _, _, hr, hs, -⟩
      cases hr
      rw [hk] at hs
      cases hs
    | ok u =>
      simp only [andThen, hk]
      constructor
      · intro h
        exact ⟨s, ys, u.1, u.2, rfl, hk, (Except.ok.inj h).symm⟩
      · rintro ⟨_, _, _, _, hr, hs, rfl⟩
        cases hr
        rw [hk] at hs
        cases hs
        rfl

@[simp] theorem andThen_ok_nil (s : σ) (k : σ → Except ε (σ × List β)) :
    andThen (.ok (s, [])) k = k s := by
  cases hk : k s <;> simp [andThen, hk]

theorem andThen_assoc (r : Except ε (σ × List β)) (k l : σ → Except ε (σ × List β)) :
    andThen (andThen r k) l = andThen r fun s => andThen (k s) l := by
  cases r with
  | error e => rfl
  | ok r =>
    cases hk : k r.1 with
    | error e => simp only [andThen, hk]
    | ok t =>
      cases hl : l t.1 with
      | error e => simp only [andThen, hk, hl]
      | ok u => simp only [andThen, hk, hl, List.append_assoc]

variable (f : σ → α → Except ε (σ × List β))

/-- The run on the input `xs`. -/
def exec : σ → List α → Except ε (σ × List β)
  | s, [] => .ok (s, [])
  | s, x :: xs => andThen (f s x) fun s' => exec s' xs

@[simp] theorem exec_nil (s : σ) : exec f s [] = .ok (s, []) := rfl

theorem exec_cons (s : σ) (x : α) (xs : List α) :
    exec f s (x :: xs) = andThen (f s x) fun s' => exec f s' xs := rfl

theorem exec_append (s : σ) (xs ys : List α) :
    exec f s (xs ++ ys) = andThen (exec f s xs) fun s' => exec f s' ys := by
  induction xs generalizing s with
  | nil => rw [List.nil_append, exec_nil, andThen_ok_nil]
  | cons x xs ih =>
    rw [List.cons_append, exec_cons, exec_cons, andThen_assoc]
    exact congrArg _ (funext fun s' => ih s')

/-- Every step of the run is taken in a state that meets `P`. -/
def Meets (P : σ → α → Prop) : σ → List α → Prop
  | _, [] => True
  | s, x :: xs => P s x ∧ ∀ s' ys, f s x = .ok (s', ys) → Meets P s' xs

@[simp] theorem meets_nil (P : σ → α → Prop) (s : σ) : Meets f P s [] := trivial

theorem meets_cons (P : σ → α → Prop) (s : σ) (x : α) (xs : List α) :
    Meets f P s (x :: xs) ↔ P s x ∧ ∀ s' ys, f s x = .ok (s', ys) → Meets f P s' xs := Iff.rfl

theorem Meets.cons {f : σ → α → Except ε (σ × List β)} {P : σ → α → Prop} {s t : σ} {x : α}
    {xs : List α} {ys : List β} (hf : f s x = .ok (t, ys)) (hx : P s x) (h : Meets f P t xs) :
    Meets f P s (x :: xs) := by
  refine ⟨hx, fun s' ys' hf' => ?_⟩
  cases hf.symm.trans hf'
  exact h

theorem meets_of_forall {P : σ → α → Prop} {xs : List α} (h : ∀ s, ∀ x ∈ xs, P s x) (s : σ) :
    Meets f P s xs := by
  induction xs generalizing s with
  | nil => trivial
  | cons x xs ih =>
    exact ⟨h s x (by simp), fun s' _ _ => ih (fun s y hy => h s y (List.mem_cons_of_mem _ hy)) s'⟩

theorem meets_true (s : σ) (xs : List α) : Meets f (fun _ _ => True) s xs :=
  meets_of_forall f (fun _ _ _ => trivial) s

/-- What is met along a run is met where its first part ends. -/
theorem Meets.at_exec {f : σ → α → Except ε (σ × List β)} {P : σ → α → Prop} {s s' : σ}
    {xs zs : List α} {x : α} {ys : List β} (h : Meets f P s (xs ++ x :: zs))
    (hrun : exec f s xs = .ok (s', ys)) : P s' x := by
  induction xs generalizing s ys with
  | nil =>
    cases hrun
    exact h.1
  | cons y xs ih =>
    obtain ⟨t, us, u, ws, hf, hrest, hr⟩ := andThen_eq_ok.1 hrun
    cases hr
    exact ih (h.2 t us hf) hrest

/-- What is met along a run is met along the rest of it. -/
theorem Meets.drop {f : σ → α → Except ε (σ × List β)} {P : σ → α → Prop} {s s' : σ}
    {xs zs : List α} {ys : List β} (h : Meets f P s (xs ++ zs))
    (hrun : exec f s xs = .ok (s', ys)) : Meets f P s' zs := by
  induction xs generalizing s ys with
  | nil =>
    cases hrun
    exact h
  | cons y xs ih =>
    obtain ⟨t, us, u, ws, hf, hrest, hr⟩ := andThen_eq_ok.1 hrun
    cases hr
    exact ih (h.2 t us hf) hrest

/-- What is met along a run is met along its first part. -/
theorem Meets.take {f : σ → α → Except ε (σ × List β)} {P : σ → α → Prop} {s : σ}
    {xs zs : List α} (h : Meets f P s (xs ++ zs)) : Meets f P s xs := by
  induction xs generalizing s with
  | nil => trivial
  | cons y xs ih => exact ⟨h.1, fun s' ys hf => ih (h.2 s' ys hf)⟩

theorem Meets.append {f : σ → α → Except ε (σ × List β)} {P : σ → α → Prop} {s s' : σ}
    {xs zs : List α} {ys : List β} (h : Meets f P s xs) (hrun : exec f s xs = .ok (s', ys))
    (hz : Meets f P s' zs) : Meets f P s (xs ++ zs) := by
  induction xs generalizing s ys with
  | nil =>
    cases hrun
    exact hz
  | cons y xs ih =>
    obtain ⟨t, us, u, ws, hf, hrest, hr⟩ := andThen_eq_ok.1 hrun
    cases hr
    exact Meets.cons hf h.1 (ih (h.2 t us hf) hrest)

/-- The run takes a step, by `x` into `t`, for which `P t x` holds. -/
def Passes (P : σ → α → Prop) (s : σ) (xs : List α) : Prop :=
  ∃ ys x zs t out, xs = ys ++ x :: zs ∧ exec f s (ys ++ [x]) = .ok (t, out) ∧ P t x

theorem not_passes_nil (P : σ → α → Prop) (s : σ) : ¬Passes f P s [] := by
  rintro ⟨ys, x, zs, t, out, hxs, -⟩
  cases ys <;> cases hxs

theorem passes_cons {f : σ → α → Except ε (σ × List β)} {P : σ → α → Prop} {s t : σ} {x : α}
    {xs : List α} {ys : List β} (hf : f s x = .ok (t, ys)) :
    Passes f P s (x :: xs) ↔ P t x ∨ Passes f P t xs := by
  constructor
  · rintro ⟨us, y, zs, u, out, hxs, hrun, hP⟩
    cases us with
    | nil =>
      cases hxs
      rw [List.nil_append, exec_cons, hf] at hrun
      cases hrun
      exact Or.inl hP
    | cons w us =>
      cases hxs
      obtain ⟨t', ys', u', zs', hf', hrest, hr⟩ := andThen_eq_ok.1 hrun
      cases hf.symm.trans hf'
      cases hr
      exact Or.inr ⟨us, y, zs, _, _, rfl, hrest, hP⟩
  · rintro (hP | ⟨us, y, zs, u, out, rfl, hrun, hP⟩)
    · refine ⟨[], x, xs, t, ys ++ [], rfl, ?_, hP⟩
      rw [List.nil_append, exec_cons, hf]
      rfl
    · refine ⟨x :: us, y, zs, u, ys ++ out, rfl, ?_, hP⟩
      rw [List.cons_append, exec_cons, hf]
      exact andThen_eq_ok.2 ⟨t, ys, u, out, rfl, hrun, rfl⟩

section Laws

variable {f}

/-- What holds of every step, and composes, holds of every run. -/
theorem exec_law {Q : σ → List β → σ → Prop} (hnil : ∀ s, Q s [] s)
    (happ : ∀ s ys t zs u, Q s ys t → Q t zs u → Q s (ys ++ zs) u) {s s' : σ} {xs : List α}
    {ys : List β} (hstep : ∀ x ∈ xs, ∀ s s' ys, f s x = .ok (s', ys) → Q s ys s')
    (hrun : exec f s xs = .ok (s', ys)) : Q s ys s' := by
  induction xs generalizing s ys with
  | nil =>
    cases hrun
    exact hnil _
  | cons x xs ih =>
    obtain ⟨t, us, u, zs, hf, hrest, ht⟩ := andThen_eq_ok.1 hrun
    cases ht
    exact happ s us t zs _ (hstep x (by simp) s t us hf)
      (ih (fun x hx => hstep x (List.mem_cons_of_mem _ hx)) hrest)

/-- The component `π` of a machine is a machine `g` of its own. It reads the part of the input
that `sel` picks, and emits the part `out` of the output. -/
theorem exec_project {τ α' β' : Type} {g : τ → α' → Except ε (τ × List β')} (π : σ → τ)
    {sel : α → Option α'} {out : List β → List β'} (hnil : out [] = [])
    (happ : ∀ ys zs, out (ys ++ zs) = out ys ++ out zs)
    (hstep : ∀ s x s' ys, f s x = .ok (s', ys) →
      exec g (π s) (sel x).toList = .ok (π s', out ys))
    {s s' : σ} {xs : List α} {ys : List β} (hrun : exec f s xs = .ok (s', ys)) :
    exec g (π s) (xs.filterMap sel) = .ok (π s', out ys) := by
  induction xs generalizing s ys with
  | nil =>
    cases hrun
    rw [hnil]
    rfl
  | cons x xs ih =>
    obtain ⟨t, us, u, zs, hf, hrest, ht⟩ := andThen_eq_ok.1 hrun
    cases ht
    have hsel : (x :: xs).filterMap sel = (sel x).toList ++ xs.filterMap sel := by
      cases hx : sel x <;> simp [hx]
    rw [hsel, exec_append, happ]
    exact andThen_eq_ok.2 ⟨π t, out us, _, out zs, hstep s x t us hf, ih hrest, rfl⟩

/-- If the steps that meet `P` succeed and keep the invariant, a run that meets `P` succeeds
and meets all that the invariant and `P` imply. -/
theorem Meets.of_invariant {I : σ → Prop} {P Q : σ → α → Prop}
    (hstep : ∀ s x, I s → P s x → ∃ s' ys, f s x = .ok (s', ys) ∧ I s')
    (hQ : ∀ s x, I s → P s x → Q s x) {s : σ} (h : I s) {xs : List α} (hP : Meets f P s xs) :
    (∃ r, exec f s xs = .ok r) ∧ Meets f Q s xs := by
  induction xs generalizing s with
  | nil => exact ⟨⟨_, rfl⟩, trivial⟩
  | cons x xs ih =>
    obtain ⟨t, ys, hf, ht⟩ := hstep s x h hP.1
    obtain ⟨⟨⟨u, zs⟩, hrest⟩, hmeets⟩ := ih ht (hP.2 t ys hf)
    refine ⟨⟨_, andThen_eq_ok.2 ⟨t, ys, u, zs, hf, hrest, rfl⟩⟩, hQ s x h hP.1,
      fun t' ys' hf' => ?_⟩
    cases hf.symm.trans hf'
    exact hmeets

/-- If the steps that meet `P` succeed, keep the invariant and obey a law that composes, so does
a run that meets `P`. -/
theorem Meets.law {I : σ → Prop} {P : σ → α → Prop} {Q : σ → List β → σ → Prop}
    (hnil : ∀ s, Q s [] s) (happ : ∀ s ys t zs u, Q s ys t → Q t zs u → Q s (ys ++ zs) u)
    (hstep : ∀ s x, I s → P s x → ∃ s' ys, f s x = .ok (s', ys) ∧ I s' ∧ Q s ys s') {s : σ}
    (h : I s) {xs : List α} (hP : Meets f P s xs) :
    ∃ s' ys, exec f s xs = .ok (s', ys) ∧ I s' ∧ Q s ys s' := by
  induction xs generalizing s with
  | nil => exact ⟨s, [], rfl, h, hnil s⟩
  | cons x xs ih =>
    obtain ⟨t, ys, hf, ht, hq⟩ := hstep s x h hP.1
    obtain ⟨u, zs, hrest, hu, hq'⟩ := ih ht (hP.2 t ys hf)
    exact ⟨u, ys ++ zs, andThen_eq_ok.2 ⟨t, ys, u, zs, hf, hrest, rfl⟩, hu, happ _ _ _ _ _ hq hq'⟩

/-- In a run that meets `A`, to meet `P` is to meet `Q`, if they agree in states of the
invariant and the steps that meet both `A` and `Q` keep it. -/
theorem Meets.congr_of_invariant {I : σ → Prop} {A P Q : σ → α → Prop}
    (hstep : ∀ s x s' ys, I s → A s x → Q s x → f s x = .ok (s', ys) → I s')
    (hPQ : ∀ s x, I s → A s x → (P s x ↔ Q s x)) {s : σ} (h : I s) {xs : List α}
    (hA : Meets f A s xs) : Meets f P s xs ↔ Meets f Q s xs := by
  induction xs generalizing s with
  | nil => exact Iff.rfl
  | cons x xs ih =>
    rw [meets_cons, meets_cons, hPQ s x h hA.1]
    exact and_congr_right fun hQ => forall_congr' fun s' => forall_congr' fun ys =>
      forall_congr' fun hf => ih (hstep s x s' ys h hA.1 hQ hf) (hA.2 s' ys hf)

/-- What `P` implies in states of an invariant that the steps meeting `P` keep. -/
theorem Meets.imp_of_invariant {I : σ → Prop} {P Q : σ → α → Prop}
    (hstep : ∀ s x s' ys, I s → P s x → f s x = .ok (s', ys) → I s')
    (hPQ : ∀ s x, I s → P s x → Q s x) {s : σ} (h : I s) {xs : List α} (hP : Meets f P s xs) :
    Meets f Q s xs :=
  (Meets.congr_of_invariant (Q := fun _ _ => True)
    (fun s x s' ys hs hx _ hf => hstep s x s' ys hs hx hf)
    (fun s x hs hx => iff_true_intro (hPQ s x hs hx)) h hP).mpr (meets_true f s xs)

end Laws

section Invariant

variable {f} {I : σ → Prop} (hstep : ∀ s x s' ys, I s → f s x = .ok (s', ys) → I s')
include hstep

/-- The invariant rule. -/
theorem exec_invariant {s s' : σ} {xs : List α} {ys : List β} (h : I s)
    (hrun : exec f s xs = .ok (s', ys)) : I s' :=
  exec_law (Q := fun s _ s' => I s → I s') (fun _ h => h) (fun _ _ _ _ _ h h' hs => h' (h hs))
    (fun x _ s s' ys hf hs => hstep s x s' ys hs hf) hrun h

omit hstep in
/-- What every step from a state of the invariant emits, a run emits. -/
theorem exec_emits {P : β → Prop}
    (hstep : ∀ s x s' ys, I s → f s x = .ok (s', ys) → I s' ∧ ∀ y ∈ ys, P y) {s s' : σ}
    {xs : List α} {ys : List β} (h : I s) (hrun : exec f s xs = .ok (s', ys)) :
    I s' ∧ ∀ y ∈ ys, P y := by
  refine exec_law (Q := fun s ys s' => I s → I s' ∧ ∀ y ∈ ys, P y) (fun s hs => ⟨hs, by simp⟩) ?_
    (fun x _ s s' ys hf hs => hstep s x s' ys hs hf) hrun h
  intro s ys t zs u h₁ h₂ hs
  obtain ⟨ht, hys⟩ := h₁ hs
  obtain ⟨hu, hzs⟩ := h₂ ht
  exact ⟨hu, List.forall_mem_append.mpr ⟨hys, hzs⟩⟩

theorem meets_congr {P Q : σ → α → Prop} (hPQ : ∀ s x, I s → (P s x ↔ Q s x)) {s : σ} (h : I s)
    (xs : List α) : Meets f P s xs ↔ Meets f Q s xs :=
  Meets.congr_of_invariant (A := fun _ _ => True)
    (fun s x s' ys hs _ _ hf => hstep s x s' ys hs hf) (fun s x hs _ => hPQ s x hs) h
    (meets_true f s xs)

/-- If, in states of the invariant, a step succeeds exactly when it meets `P`, a run
succeeds exactly when all its steps meet `P`. -/
theorem exec_ok_iff {P : σ → α → Prop} (hok : ∀ s x, I s → ((∃ r, f s x = .ok r) ↔ P s x))
    {s : σ} (h : I s) (xs : List α) : (∃ r, exec f s xs = .ok r) ↔ Meets f P s xs := by
  induction xs generalizing s with
  | nil => simp
  | cons x xs ih =>
    rw [exec_cons, meets_cons, ← hok s x h]
    constructor
    · rintro ⟨r, hr⟩
      obtain ⟨t, us, u, zs, hf, hrest, -⟩ := andThen_eq_ok.1 hr
      refine ⟨⟨_, hf⟩, fun s' ys hf' => ?_⟩
      cases hf.symm.trans hf'
      exact (ih (hstep s x _ _ h hf)).mp ⟨_, hrest⟩
    · rintro ⟨⟨⟨t, us⟩, hf⟩, hmeets⟩
      obtain ⟨⟨u, zs⟩, hrest⟩ := (ih (hstep s x t us h hf)).mpr (hmeets t us hf)
      exact ⟨_, andThen_eq_ok.2 ⟨t, us, u, zs, hf, hrest, rfl⟩⟩

/-- If, in states of the invariant, what a step emits meets `P` exactly when the step meets
`Q`, the output of a run meets `P` exactly when all its steps meet `Q`. -/
theorem forall_mem_iff_meets {P : β → Prop} {Q : σ → α → Prop}
    (hout : ∀ s x s' ys, I s → f s x = .ok (s', ys) → ((∀ y ∈ ys, P y) ↔ Q s x)) {s s' : σ}
    {xs : List α} {ys : List β} (h : I s) (hrun : exec f s xs = .ok (s', ys)) :
    (∀ y ∈ ys, P y) ↔ Meets f Q s xs := by
  induction xs generalizing s ys with
  | nil =>
    cases hrun
    simp
  | cons x xs ih =>
    obtain ⟨t, us, u, zs, hf, hrest, ht⟩ := andThen_eq_ok.1 hrun
    cases ht
    rw [List.forall_mem_append, meets_cons, hout s x t us h hf,
      ih (hstep s x t us h hf) hrest]
    refine and_congr_right fun _ => ⟨fun hmeets s' ys' hf' => ?_, fun hmeets => hmeets t us hf⟩
    cases hf.symm.trans hf'
    exact hmeets

end Invariant

end Basht.Fallible
