import Basht.Execute.Refines

/-!
# What `set -e` does, and fuel

A run is compared with one that has at least as much fuel and where `set -e` is on in fewer states.
They are the same, unless the fuel of the first has run out or `set -e` has ended it at a command
that has failed; where `set -e` is ignored there is no such command (`Cut`).
-/

namespace Basht.Execute

variable {σ A R V : Type}

/-! ## Another `set -e` -/

section WithErrexit

variable (env : Env σ A R V) (lenient : σ → Bool)

/-- The environment where `set -e` is on in other states. -/
def Env.withErrexit : Env σ A R V := { env with errexit := lenient }

@[simp] theorem withErrexit_simple : (env.withErrexit lenient).simple = env.simple := rfl

@[simp] theorem withErrexit_redirect : (env.withErrexit lenient).redirect = env.redirect := rfl

@[simp] theorem withErrexit_words : (env.withErrexit lenient).words = env.words := rfl

@[simp] theorem withErrexit_selectWords :
    (env.withErrexit lenient).selectWords = env.selectWords := rfl

@[simp] theorem withErrexit_bind : (env.withErrexit lenient).bind = env.bind := rfl

@[simp] theorem withErrexit_arith : (env.withErrexit lenient).arith = env.arith := rfl

@[simp] theorem withErrexit_query : (env.withErrexit lenient).query = env.query := rfl

@[simp] theorem withErrexit_strmatch : (env.withErrexit lenient).strmatch = env.strmatch := rfl

theorem withErrexit_self : env.withErrexit env.errexit = env := rfl

variable {env}

theorem Env.Regular.withErrexit (h : env.Regular) : (env.withErrexit lenient).Regular :=
  ⟨h.bodies, h.selects⟩

end WithErrexit

/-! ## Outcomes -/

/-- The first outcome is the second, or the fuel or `set -e` has ended it before. -/
inductive Cut (errexit lenient : σ → Bool) (ignored : Bool) (x y : Eval σ (Done σ)) : Prop
  | same (h : x = y)
  | fuel (h : x = .error .fuel)
  | ended {user : σ} {value : Nat} (h : x = .error (.errexit user value)) (hi : ignored = false)
      (hon : errexit user = true ∧ lenient user = false) (hv : value ≠ 0)

namespace Cut

variable {errexit lenient : σ → Bool} {i : Bool} {x y : Eval σ (Done σ)}

theorem refl (x : Eval σ (Done σ)) : Cut errexit lenient i x x := .same rfl

theorem of_ignored (h : Cut errexit lenient true x y) : Cut errexit lenient i x y := by
  cases h with
  | same h => exact .same h
  | fuel h => exact .fuel h
  | ended h hi => cases hi

theorem of_or {j : Bool} (h : Cut errexit lenient (i || j) x y) : Cut errexit lenient i x y := by
  cases h with
  | same h => exact .same h
  | fuel h => exact .fuel h
  | ended h hi hon hv => exact .ended h (Bool.or_eq_false_iff.1 hi).1 hon hv

theorem bind {f g : Done σ → Eval σ (Done σ)} (h : Cut errexit lenient i x y)
    (hk : ∀ d, Cut errexit lenient i (f d) (g d)) :
    Cut errexit lenient i (x >>= f) (y >>= g) := by
  cases h with
  | same h =>
    subst h
    cases x with
    | ok d => exact hk d
    | error e => exact .refl _
  | fuel h =>
    subst h
    exact .fuel rfl
  | ended h hi hon hv =>
    subst h
    exact .ended rfl hi hon hv

theorem andThen {f g : Store σ → Eval σ (Done σ)}
    (hk : ∀ t, Cut errexit lenient i (f t) (g t)) (d : Done σ) :
    Cut errexit lenient i (andThen d f) (andThen d g) := by
  unfold Execute.andThen
  split
  · exact hk d.store
  · exact .refl _

theorem functionLeft (h : Cut errexit lenient i x y) (popContext : σ → σ) :
    Cut errexit lenient i (functionLeft popContext x) (functionLeft popContext y) := by
  cases h with
  | same h => exact .same (congrArg _ h)
  | fuel h =>
    subst h
    exact .fuel rfl
  | ended h hi hon hv =>
    subst h
    exact .ended rfl hi hon hv

theorem undone (h : Cut errexit lenient i x y) (undo : σ → σ) :
    Cut errexit lenient i (undone undo x) (undone undo y) := by
  cases h with
  | same h => exact .same (congrArg _ h)
  | fuel h =>
    subst h
    exact .fuel rfl
  | ended h hi hon hv =>
    subst h
    exact .ended rfl hi hon hv

end Cut

/-! ## Commands -/

section Values

variable {env : Env σ A R V} {lenient : σ → Bool}
  {eval eval' : Place → Command A R → Store σ → Eval σ (Done σ)}

theorem unlessErrexit_cut (hle : ∀ u, lenient u = true → env.errexit u = true) (p : Place)
    (d : Done σ) :
    Cut env.errexit lenient p.ignored (unlessErrexit env p d)
      (unlessErrexit (env.withErrexit lenient) p d) := by
  unfold unlessErrexit
  by_cases hon : env.errexit d.store.user = true
  · by_cases hl : lenient d.store.user = true
    · refine .same ?_
      simp only [hon, Env.withErrexit, hl]
    · have hl : lenient d.store.user = false := Bool.eq_false_iff.2 hl
      simp only [hon, Env.withErrexit, hl]
      split
      · rename_i hc
        exact .ended rfl hc.1 ⟨hon, hl⟩ hc.2.2
      · rename_i hc
        simpa using Cut.refl (.ok d)
  · have hl : ¬ lenient d.store.user = true := fun hl => hon (hle _ hl)
    refine .same ?_
    simp only [hon, Env.withErrexit, hl]

variable (h : ∀ p c t, Cut env.errexit lenient p.ignored (eval p c t) (eval' p c t)) (p : Place)
include h

theorem condition_cut (c : Command A R) (t : Store σ) :
    Cut env.errexit lenient p.ignored (eval (p.ignoring true) c t)
      (eval' (p.ignoring true) c t) := by
  have hi : (p.ignoring true).ignored = true := Bool.or_true p.ignored
  have := h (p.ignoring true) c t
  rw [hi] at this
  exact this.of_ignored

theorem whileMeans_cut (isUntil : Bool) (test action : Command A R) {n m : Nat} (hnm : n ≤ m)
    (bodyStatus : Nat) (t : Store σ) :
    Cut env.errexit lenient p.ignored (whileMeans eval p isUntil test action n bodyStatus t)
      (whileMeans eval' p isUntil test action m bodyStatus t) := by
  induction n generalizing m bodyStatus t with
  | zero => exact .fuel rfl
  | succ n ih =>
    obtain ⟨m, rfl⟩ := Nat.exists_eq_add_of_lt (Nat.lt_of_succ_le hnm)
    rw [whileMeans, whileMeans]
    refine (condition_cut h p test t).bind fun d => ?_
    split
    · exact .refl _
    · refine (Cut.andThen (h p action) d).bind fun b => ?_
      split
      · exact ih (Nat.le_add_right n m) b.result b.store
      · exact .refl _

theorem forMeans_cut (a : A) (action : Command A R) (list : List V) (retval : Nat)
    (t : Store σ) :
    Cut env.errexit lenient p.ignored (forMeans env eval p a action list retval t)
      (forMeans (env.withErrexit lenient) eval' p a action list retval t) := by
  induction list generalizing retval t with
  | nil => exact .refl _
  | cons w list ih =>
    rw [forMeans, forMeans, withErrexit_bind]
    cases env.bind a w t.user with
    | error user => exact .refl _
    | ok user =>
      refine (h p action _).bind fun b => ?_
      split
      · exact ih b.result b.store
      · exact .refl _

theorem arithForMeans_cut (test step : A) (action : Command A R) {n m : Nat} (hnm : n ≤ m)
    (expok : Bool) (bodyStatus : Nat) (t : Store σ) :
    Cut env.errexit lenient p.ignored
      (arithForMeans env eval p test step action n expok bodyStatus t)
      (arithForMeans (env.withErrexit lenient) eval' p test step action m expok bodyStatus t) := by
  induction n generalizing m expok bodyStatus t with
  | zero => exact .fuel rfl
  | succ n ih =>
    obtain ⟨m, rfl⟩ := Nat.exists_eq_add_of_lt (Nat.lt_of_succ_le hnm)
    rw [arithForMeans, arithForMeans, withErrexit_arith]
    dsimp only
    split_ifs with _ _ _
    · exact .refl _
    · exact .refl _
    · exact .refl _
    · refine (h p action _).bind fun b => ?_
      split
      · exact ih (Nat.le_add_right n m) _ b.result _
      · exact .refl _

theorem selectMeans_cut (a : A) (list : List V) (action : Command A R) {n m : Nat} (hnm : n ≤ m)
    (t : Store σ) :
    Cut env.errexit lenient p.ignored (selectMeans env eval p a list action n t)
      (selectMeans (env.withErrexit lenient) eval' p a list action m t) := by
  induction n generalizing m t with
  | zero => exact .fuel rfl
  | succ n ih =>
    obtain ⟨m, rfl⟩ := Nat.exists_eq_add_of_lt (Nat.lt_of_succ_le hnm)
    rw [selectMeans, selectMeans, withErrexit_query, withErrexit_bind]
    obtain ⟨user, _ | selection⟩ := env.query a list t.user
    · exact .refl _
    · dsimp only
      cases env.bind a selection user with
      | error user => exact .refl _
      | ok user =>
        refine (h p action _).bind fun b => ?_
        split
        · exact ih (Nat.le_add_right n m) b.store
        · exact .refl _

theorem clausesMean_cut (word : V) (matched : Bool) (clauses : Clauses A R) (d : Done σ) :
    Cut env.errexit lenient p.ignored (clausesMean env eval p word matched clauses d)
      (clausesMean (env.withErrexit lenient) eval' p word matched clauses d) := by
  match clauses with
  | .nil => exact .refl _
  | .cons patterns fallthrough testnext action next =>
    rw [clausesMean, clausesMean, withErrexit_strmatch]
    generalize (if matched = true then (d.store.user, true)
      else env.strmatch patterns word d.store.user) = m
    dsimp only
    split
    · refine (Cut.andThen (h p action) _).bind fun b => ?_
      split
      · exact clausesMean_cut word fallthrough next b
      · exact .refl _
    · exact clausesMean_cut word false next _

theorem connectionMeans_cut (connector : Connector) (first second : Command A R) (t : Store σ) :
    Cut env.errexit lenient p.ignored (connectionMeans eval p connector first second t)
      (connectionMeans eval' p connector first second t) := by
  cases connector with
  | semicolon => exact (h p first t).bind (Cut.andThen (h p second))
  | andAnd | orOr =>
    refine (condition_cut h p first t).bind fun r => ?_
    split
    · exact Cut.andThen (h p second) r
    · exact .refl _

theorem simpleMeans_cut (a : A) (t : Store σ) :
    Cut env.errexit lenient p.ignored (simpleMeans env eval p a t)
      (simpleMeans (env.withErrexit lenient) eval' p a t) := by
  rw [simpleMeans, simpleMeans, withErrexit_simple]
  cases env.simple a t.user with
  | run | break_ | continue_ | return_ | exit => exact .refl _
  | call user body popContext =>
    exact (h { p with
      loops := if 43 < env.shellCompatibilityLevel then 0 else p.loops, returns := true }
      body _).functionLeft popContext

theorem valueMeans_cut (hle : ∀ u, lenient u = true → env.errexit u = true) {n m : Nat}
    (hnm : n ≤ m) (t : Store σ) (v : Value A R) :
    Cut env.errexit lenient p.ignored (valueMeans env eval n p t v)
      (valueMeans (env.withErrexit lenient) eval' m p t v) := by
  cases v with
  | simple flags a => exact (simpleMeans_cut h p a t).bind (unlessErrexit_cut hle p)
  | pipeline a => exact unlessErrexit_cut hle p _
  | misc a => exact unlessErrexit_cut hle p _
  | forIn flags a action =>
    rw [valueMeans, valueMeans, withErrexit_words]
    cases env.words a t.user with
    | error user => exact .refl _
    | ok list => exact forMeans_cut h p.inLoop a action list.2 0 _
  | arithFor flags init test step action =>
    exact arithForMeans_cut h p.inLoop test step action hnm _ 0 _
  | select flags a action =>
    rw [valueMeans, valueMeans, withErrexit_selectWords]
    cases env.selectWords a t.user with
    | error user => exact .refl _
    | ok list =>
      dsimp only
      split
      · exact .refl _
      · exact selectMeans_cut h p.inLoop a list.2 action hnm _
  | caseIn flags a clauses => exact clausesMean_cut h p _ false clauses _
  | while_ flags isUntil test action =>
    exact whileMeans_cut h p.inLoop isUntil test action hnm 0 t
  | if_ flags test trueCase falseCase =>
    exact (condition_cut h p test t).bind fun d => Cut.andThen (h p _) d
  | group command => exact h p command t
  | connection connector first second => exact connectionMeans_cut h p connector first second t

end Values

theorem means_cut (env : Env σ A R V) (lenient : σ → Bool)
    (hle : ∀ u, lenient u = true → env.errexit u = true) {n m : Nat} (hnm : n ≤ m) (p : Place)
    (c : Command A R) (t : Store σ) :
    Cut env.errexit lenient p.ignored (means env n p c t)
      (means (env.withErrexit lenient) m p c t) := by
  induction n generalizing m p c t with
  | zero => exact .fuel rfl
  | succ n ih =>
    obtain ⟨m, rfl⟩ := Nat.exists_eq_add_of_lt (Nat.lt_of_succ_le hnm)
    cases c with
    | null => exact .refl _
    | subshell h a => exact (unlessErrexit_cut hle (p.ignoring h.invertReturn) _).of_or
    | mk h value =>
      rw [means, means, withErrexit_redirect]
      cases env.redirect h.redirects t.user with
      | error user => exact (unlessErrexit_cut hle (p.ignoring h.invertReturn) _).of_or
      | ok redirected =>
        exact ((valueMeans_cut (ih (Nat.le_add_right n m)) (p.ignoring h.invertReturn) hle
          (Nat.le_add_right n m) _ value).undone _).of_or.bind fun d => .refl _

/-! ## The executor -/

theorem Agrees.of_fuel {T : Type} {P : T → Prop} {loops : Nat} {s : State σ} {x : Run σ (Ran σ T)}
    {y : Eval σ (Done σ)} (h : Agrees P loops s x y) (hy : y = .error .fuel) :
    x = .error .fuel := by
  cases h with
  | fuel => rfl
  | ok | exit | errexit | return_ => cases hy

section Executed

variable {env : Env σ A R V} {s : State σ}

/-- With more fuel, an execution that has ended ends in the same way. -/
theorem executeCommandInternal_fuel (henv : env.Regular) {c : Command A R} (hc : c.Parsed)
    (hs : s.Calm) {n m : Nat} (hnm : n ≤ m)
    (hn : executeCommandInternal env n c s ≠ .error .fuel) :
    observed Ran.done (executeCommandInternal env m c s) =
      observed Ran.done (executeCommandInternal env n c s) := by
  have hagrees := agrees_means henv hc.held_false hs n
  have hcut := means_cut env env.errexit (fun _ h => h) hnm (s.place false) c s.store
  rw [withErrexit_self] at hcut
  rw [hagrees.observed_eq, (agrees_means henv hc.held_false hs m).observed_eq]
  cases hcut with
  | same h => exact h.symm
  | fuel h => exact absurd (hagrees.of_fuel h) hn
  | ended h hi hon hv => cases hon.1.symm.trans hon.2

theorem executeCommandInternal_fuel_downLoop :
    executeCommandInternal countdown 9 downLoop ⟨1, 0, 0, 0, 0, 0⟩ ≠ .error .fuel ∧
      observed Ran.done (executeCommandInternal countdown 20 downLoop ⟨1, 0, 0, 0, 0, 0⟩) =
        observed Ran.done (executeCommandInternal countdown 9 downLoop ⟨1, 0, 0, 0, 0, 0⟩) := by
  have h : executeCommandInternal countdown 9 downLoop ⟨1, 0, 0, 0, 0, 0⟩ ≠ .error .fuel := by
    obtain ⟨r, hr⟩ := downLoop_ends
    rw [hr]
    exact fun h => by cases h
  exact ⟨h, executeCommandInternal_fuel countdown_regular downLoop_parsed ⟨rfl, rfl⟩
    (Nat.le_add_right 9 11) h⟩

end Executed

end Basht.Execute
