import Basht.Execute.Agrees

/-!
# The executor does what commands mean

Each function of the executor has one lemma that takes over what is known of the executor of the
commands inside; `follows_means` puts them together by induction on the fuel.
-/

namespace Basht.Execute

variable {σ A R V : Type} {env : Env σ A R V} {execute : Executor σ A R}
  {eval : Place → Command A R → Store σ → Eval σ (Done σ)} {p : Place} {s : State σ}

theorem Follows.condition (hf : Follows execute eval) (hp : p.Of s) (t : Store σ)
    {d c : Command A R} (h : Command.Held true d c) :
    Agrees (Command.Held true d) s.loopLevel s (execute c (s.put t .next))
      (eval (p.ignoring true) d t) := by
  have hi : (p.ignoring true).ignored = true := Bool.or_true p.ignored
  have := hf.agrees t (p := p.ignoring true) (d := d) (c := c) ⟨hp.loops, hp.returns⟩
    (by rw [hi]; exact h)
  rwa [hi] at this

/-- The next command. Where loops are being left, it is skipped. -/
theorem Follows.next (hf : Follows execute eval) (hp : p.Of s) {d : Done σ}
    (hd : d.exit ≠ .next → ∃ c₀ s₀ r₀, execute c₀ s₀ = .ok r₀)
    (hw : d.exit.Within s.loopLevel) {c c' : Command A R} (hc : Command.Held p.ignored c c') :
    Agrees (Command.Held p.ignored c) s.loopLevel s (execute c' (s.put d.store d.exit))
      (andThen d (eval p c)) := by
  unfold andThen
  by_cases he : d.exit = .next
  · rw [if_pos he, he]
    exact hf.agrees d.store hp hc
  · obtain ⟨c₀, s₀, r₀, hx⟩ := hd he
    rw [if_neg he, hf.skips hx c' (put_skips s d.store he)]
    exact .ok (d := { d with result := d.store.last }) hc hw

theorem Place.Of.inLoop (hp : p.Of s) : p.inLoop.Of s.enterLoop :=
  ⟨congrArg (· + 1) hp.loops, hp.returns⟩

/-! ## Loops -/

/-- What follows the action of a loop. -/
theorem Agrees.turn {T : Type} {P : T → Prop} {loops : Nat} {tree : T} {d : Done σ}
    {x : State σ → Run σ (Ran σ T)} {y : Eval σ (Done σ)} (tree_ok : P tree)
    (hw : d.exit.Within (loops + 1))
    (hnext : d.exit.again = true → Agrees P loops s (x (s.put d.store .next)) y) :
    Agrees P loops s
      (if (s.put d.store d.exit).turn.1 then .ok ⟨tree, (s.put d.store d.exit).turn.2, d.result⟩
        else x (s.put d.store d.exit).turn.2)
      (if d.exit.again then y else .ok d.leaveLoop) := by
  rw [turn_put]
  cases ha : d.exit.again with
  | true =>
    rw [leave_of_again ha]
    exact hnext ha
  | false => exact .ok (d := d.leaveLoop) tree_ok hw.leave

theorem whileLoop_agrees (hf : Follows execute eval) (hp : p.Of s) {loops : Nat}
    (hloops : s.loopLevel = loops + 1) {test action : Command A R} (isUntil : Bool) (n : Nat)
    (test' action' : Command A R) (bodyStatus : Nat) (t : Store σ)
    (ht : Command.Held true test test') (ha : Command.Held p.ignored action action') :
    Agrees (fun r => Command.Held true test r.1 ∧ Command.Held p.ignored action r.2) loops s
      (whileLoop execute isUntil n test' action' bodyStatus (s.put t .next))
      (whileMeans eval p isUntil test action n bodyStatus t) := by
  induction n generalizing test' action' bodyStatus t with
  | zero => exact .fuel
  | succ n ih =>
    rw [whileLoop, whileMeans]
    refine (hf.condition hp t ht).bind fun tree d htree hw hx hy => ?_
    by_cases hstop : decide (d.result = 0) = isUntil
    · dsimp only
      rw [hloops] at hw
      rw [if_pos hstop, if_pos hstop, stopped_put]
      exact .ok (d := { d.leaveLoop with result := bodyStatus }) ⟨htree, ha⟩ hw.leave
    · dsimp only
      rw [if_neg hstop, if_neg hstop]
      refine (hf.next hp (fun _ => ⟨_, _, _, hx⟩) hw ha).bind
        fun tree' d' htree' hw' hx' hy' => ?_
      rw [hloops] at hw'
      exact Agrees.turn (P := fun r : Command A R × Command A R => _) ⟨htree, htree'⟩ hw'
        fun _ => ih tree tree' d'.result d'.store htree htree'

theorem forLoop_agrees (env : Env σ A R V) (hf : Follows execute eval) (hp : p.Of s) {loops : Nat}
    (hloops : s.loopLevel = loops + 1) (a : A) {action : Command A R} (list : List V)
    (action' : Command A R) (retval : Nat) (t : Store σ)
    (ha : Command.Held p.ignored action action') :
    Agrees (Command.Held p.ignored action) loops s
      (forLoop env execute a list action' retval (s.put t .next))
      (forMeans env eval p a action list retval t) := by
  induction list generalizing action' retval t with
  | nil => exact .ok (d := ⟨t, retval, .next⟩) ha trivial
  | cons w list ih =>
    rw [forLoop, forMeans, put_user]
    cases env.bind a w t.user with
    | error user => exact .ok (d := ⟨{ t with user := user }, 1, .next⟩) ha trivial
    | ok user =>
      refine (hf.agrees { t with user := user } hp ha).bind fun tree d htree hw hx hy => ?_
      rw [hloops] at hw
      exact Agrees.turn htree hw fun _ => ih tree d.result d.store htree

theorem arithForLoop_agrees (env : Env σ A R V) (hf : Follows execute eval) (hp : p.Of s) {loops : Nat}
    (hloops : s.loopLevel = loops + 1) (test step : A) {action : Command A R} (n : Nat)
    (expok : Bool) (action' : Command A R) (bodyStatus : Nat) (t : Store σ)
    (ha : Command.Held p.ignored action action') :
    Agrees (Command.Held p.ignored action) loops s
      (arithForLoop env execute test step n expok action' bodyStatus (s.put t .next))
      (arithForMeans env eval p test step action n expok bodyStatus t) := by
  induction n generalizing expok action' bodyStatus t with
  | zero => exact .fuel
  | succ n ih =>
    rw [arithForLoop, arithForMeans, put_user]
    by_cases hok : expok = false
    · rw [if_pos hok, if_pos hok]
      exact .ok (d := ⟨t, 1, .next⟩) ha trivial
    · rw [if_neg hok, if_neg hok]
      obtain ⟨user, value, ok⟩ := env.arith test t.user
      dsimp only
      by_cases hok : ok = false
      · rw [if_pos hok, if_pos hok]
        exact .ok (d := ⟨{ t with user := user }, 1, .next⟩) ha trivial
      · rw [if_neg hok, if_neg hok]
        by_cases hvalue : value = 0
        · rw [if_pos hvalue, if_pos hvalue]
          exact .ok (d := ⟨{ t with user := user }, bodyStatus, .next⟩) ha trivial
        · rw [if_neg hvalue, if_neg hvalue]
          refine (hf.agrees { t with user := user } hp ha).bind fun tree d htree hw hx hy => ?_
          rw [hloops] at hw
          exact Agrees.turn
            (x := fun s' => arithForLoop env execute test step n (env.arith step s'.user).2.2 tree
              d.result { s' with user := (env.arith step s'.user).1 })
            htree hw fun _ => ih _ tree d.result
              { d.store with user := (env.arith step d.store.user).1 } htree

theorem selectLoop_agrees (env : Env σ A R V) (hf : Follows execute eval) (hp : p.Of s) {loops : Nat}
    (hloops : s.loopLevel = loops + 1) (a : A) (list : List V) {action : Command A R} (n : Nat)
    (action' : Command A R) (t : Store σ) (ha : Command.Held p.ignored action action') :
    Agrees (Command.Held p.ignored action) loops s
      (selectLoop env execute a list n action' (s.put t .next))
      (selectMeans env eval p a list action n t) := by
  induction n generalizing action' t with
  | zero => exact .fuel
  | succ n ih =>
    rw [selectLoop, selectMeans, put_user]
    obtain ⟨user, _ | selection⟩ := env.query a list t.user
    · exact .ok (d := ⟨{ t with user := user }, 1, .next⟩) ha trivial
    · dsimp only
      cases env.bind a selection user with
      | error user => exact .ok (d := ⟨{ t with user := user }, 1, .next⟩) ha trivial
      | ok user =>
        refine (hf.agrees { t with user := user } hp ha).bind fun tree d htree hw hx hy => ?_
        rw [hloops] at hw
        exact Agrees.turn htree hw fun _ => ih tree d.store htree

/-! ## Conditions -/

theorem caseClauses_agrees (env : Env σ A R V) (hf : Follows execute eval) (hp : p.Of s) (word : V)
    {clauses clauses' : Clauses A R} (hc : Clauses.Marked p.ignored clauses clauses')
    (matched : Bool) {d : Done σ} (hd : d.exit ≠ .next → ∃ c₀ s₀ r₀, execute c₀ s₀ = .ok r₀)
    (hw : d.exit.Within s.loopLevel) :
    Agrees (Clauses.Marked p.ignored clauses) s.loopLevel s
      (caseClauses env execute p.ignored word matched clauses' (s.put d.store d.exit) d.result)
      (clausesMean env eval p word matched clauses d) := by
  match hc with
  | .nil => exact .ok .nil hw
  | .cons (f := f) (t := t) (a := a) ha hn =>
    rw [caseClauses, clausesMean, put_user]
    generalize hm : (if matched = true then (d.store.user, true)
      else env.strmatch a word d.store.user) = m
    obtain ⟨user, found⟩ := m
    dsimp only
    cases found with
    | false =>
      rw [if_neg Bool.false_ne_true, if_neg Bool.false_ne_true]
      have := caseClauses_agrees env hf hp word hn false
        (d := { d with store := { d.store with user := user } }) hd hw
      refine this.bindRight fun tree d' htree hw' => ?_
      exact .ok (.cons ha htree) hw'
    | true =>
      rw [if_pos rfl, if_pos rfl]
      refine (hf.next hp (d := { d with store := { d.store with user := user } }) hd hw
        ha.held).bind fun tree d' htree hw' hx' hy' => ?_
      cases hft : f || t with
      | false =>
        rw [if_neg Bool.false_ne_true, if_neg Bool.false_ne_true]
        exact .ok (.cons htree.marked hn) hw'
      | true =>
        rw [if_pos rfl, if_pos rfl]
        refine (caseClauses_agrees env hf hp word hn f (d := d') (fun _ => ⟨_, _, _, hx'⟩)
          hw').bindRight fun tree' d'' htree' hw'' => ?_
        exact .ok (.cons htree.marked htree') hw''

section Values

variable {ignored invert : Bool} (hi : p.ignored = (ignored || invert))
include hi

theorem flags_of_ignored (h : p.ignored = true) : ignored = true ∨ invert = true := by
  rwa [hi, Bool.or_eq_true_iff] at h

theorem executeIfCommand_agrees (hf : Follows execute eval) (hp : p.Of s) (fuel : Nat) (f : Bool)
    {test test' c c' e e' : Command A R} (ht : Command.Marked true test test')
    (hc : Command.Marked p.ignored c c') (he : Command.Marked p.ignored e e') (t : Store σ) :
    Agrees (Value.Marked ignored invert (.if_ f test c e)) s.loopLevel s
      (executeIfCommand execute p.ignored test' c' e' (s.put t .next))
      (valueMeans env eval fuel p t (.if_ f test c e)) := by
  rw [executeIfCommand, valueMeans]
  refine (hf.condition hp t ht.held).bind fun tree d htree hw hx _ => ?_
  have hd : d.exit ≠ .next → ∃ c₀ s₀ r₀, execute c₀ s₀ = .ok r₀ := fun _ => ⟨_, _, _, hx⟩
  dsimp only
  by_cases hr : d.result = 0
  · rw [if_pos hr, if_pos hr]
    refine (hf.next hp hd hw hc.held).bindRight fun tree' d' htree' hw' => ?_
    exact .ok (.if_ (flags_of_ignored hi) htree.marked (hi ▸ htree'.marked) (hi ▸ he)) hw'
  · rw [if_neg hr, if_neg hr]
    refine (hf.next hp hd hw he.held).bindRight fun tree' d' htree' hw' => ?_
    exact .ok (.if_ (flags_of_ignored hi) htree.marked (hi ▸ hc) (hi ▸ htree'.marked)) hw'

theorem executeCaseCommand_agrees (hf : Follows execute eval) (hp : p.Of s) (fuel : Nat) (f : Bool)
    (a : A) {clauses clauses' : Clauses A R} (hc : Clauses.Marked p.ignored clauses clauses')
    (t : Store σ) :
    Agrees (Value.Marked ignored invert (.caseIn f a clauses)) s.loopLevel s
      (executeCaseCommand env execute p.ignored a clauses' (s.put t .next))
      (valueMeans env eval fuel p t (.caseIn f a clauses)) := by
  rw [executeCaseCommand, valueMeans]
  have h := caseClauses_agrees env hf hp (env.caseWord a t.user).2 hc false
    (d := ⟨{ t with user := (env.caseWord a t.user).1 }, 0, .next⟩) (fun h => absurd rfl h) trivial
  refine h.bindRight fun tree d htree hw => ?_
  exact .ok (.caseIn (flags_of_ignored hi) (hi ▸ htree)) hw

theorem executeWhileOrUntil_agrees (hf : Follows execute eval) (hp : p.Of s) (fuel : Nat)
    (f isUntil : Bool) {test test' c c' : Command A R} (ht : Command.Marked true test test')
    (hc : Command.Marked p.ignored c c') (t : Store σ) :
    Agrees (Value.Marked ignored invert (.while_ f isUntil test c)) s.loopLevel s
      (executeWhileOrUntil execute fuel p.ignored isUntil test' c' (s.put t .next))
      (valueMeans env eval fuel p t (.while_ f isUntil test c)) := by
  have h := whileLoop_agrees (p := p.inLoop) hf (s := s.enterLoop) hp.inLoop rfl isUntil fuel _ _
    0 t ht.held hc.held
  rw [executeWhileOrUntil, valueMeans]
  exact h.leaveLoop fun tree htree =>
    .while_ (flags_of_ignored hi) htree.1.marked (hi ▸ htree.2.marked)

theorem executeForCommand_agrees (hf : Follows execute eval) (hp : p.Of s) (fuel : Nat) (f : Bool)
    (a : A) {c c' : Command A R} (hc : Command.Marked p.ignored c c') (t : Store σ) :
    Agrees (Value.Marked ignored invert (.forIn f a c)) s.loopLevel s
      (executeForCommand env execute p.ignored a c' (s.put t .next))
      (valueMeans env eval fuel p t (.forIn f a c)) := by
  rw [executeForCommand, valueMeans, put_user]
  cases env.words a t.user with
  | error user =>
    exact .ok (d := ⟨{ t with user := user }, 1, .next⟩)
      (.forIn (flags_of_ignored hi) (hi ▸ hc)) trivial
  | ok list =>
    have h := forLoop_agrees env (p := p.inLoop) hf (s := s.enterLoop) hp.inLoop rfl a
      list.2 _ 0 { t with user := list.1 } hc.held
    exact h.leaveLoop fun tree htree => .forIn (flags_of_ignored hi) (hi ▸ htree.marked)

theorem executeArithForCommand_agrees (hf : Follows execute eval) (hp : p.Of s) (fuel : Nat)
    (f : Bool) (init test step : A) {c c' : Command A R} (hc : Command.Marked p.ignored c c')
    (t : Store σ) :
    Agrees (Value.Marked ignored invert (.arithFor f init test step c)) s.loopLevel s
      (executeArithForCommand env execute fuel p.ignored init test step c' (s.put t .next))
      (valueMeans env eval fuel p t (.arithFor f init test step c)) := by
  have h := arithForLoop_agrees env (p := p.inLoop) hf (s := s.enterLoop) hp.inLoop rfl
    test step fuel (env.arith init t.user).2.2 _ 0
    { t with user := (env.arith init t.user).1 } hc.held
  rw [executeArithForCommand, valueMeans]
  exact h.leaveLoop fun tree htree => .arithFor (flags_of_ignored hi) (hi ▸ htree.marked)

theorem executeSelectCommand_agrees (hf : Follows execute eval) (hp : p.Of s)
    (hselect : ∀ a u v, env.selectWords a u ≠ .ok (v, [])) (fuel : Nat) (f : Bool) (a : A)
    {c c' : Command A R} (hc : Command.Marked p.ignored c c') (t : Store σ) :
    Agrees (Value.Marked ignored invert (.select f a c)) s.loopLevel s
      (executeSelectCommand env execute fuel p.ignored a c' (s.put t .next))
      (valueMeans env eval fuel p t (.select f a c)) := by
  rw [executeSelectCommand, valueMeans, put_user]
  cases hw : env.selectWords a t.user with
  | error user =>
    exact .ok (d := ⟨{ t with user := user }, 1, .next⟩)
      (.select (flags_of_ignored hi) (hi ▸ hc)) trivial
  | ok list =>
    have hne : list.2 ≠ [] := fun h => hselect a t.user list.1 (by rw [hw, ← h])
    have h := selectLoop_agrees env (p := p.inLoop) hf (s := s.enterLoop) hp.inLoop rfl a
      list.2 fuel _ { t with user := list.1 } hc.held
    dsimp only
    rw [if_neg hne, if_neg hne]
    exact h.leaveLoop fun tree htree => .select (flags_of_ignored hi) (hi ▸ htree.marked)

omit hi in
/-- The parts of `&&` and `||`. -/
theorem Agrees.orElse (hf : Follows execute eval) (hp : p.Of s)
    {first first' second second' : Command A R}
    (h₁ : Command.Marked true first first') (h₂ : Command.Marked p.ignored second second')
    (t : Store σ) (P : Nat → Prop) [DecidablePred P] {connector : Connector}
    (hQ : ∀ c c', Command.Marked true first c → Command.Marked p.ignored second c' →
      Value.Marked p.ignored false (.connection connector first second) (.connection connector c c')) :
    Agrees (Value.Marked p.ignored false (.connection connector first second)) s.loopLevel s
      (execute (first'.mark true) (s.put t .next) >>= fun r =>
        if P r.result then execute (second'.mark p.ignored) r.state >>= fun b =>
          .ok (b.within fun c => .connection connector r.tree c)
        else .ok (r.within fun c => .connection connector c second'))
      (eval (p.ignoring true) first t >>= fun r =>
        if P r.result then andThen r (eval p second) else .ok r) := by
  refine (hf.condition hp t h₁.held).bind fun tree d htree hw hx _ => ?_
  dsimp only
  by_cases hr : P d.result
  · rw [if_pos hr, if_pos hr]
    refine (hf.next hp (fun _ => ⟨_, _, _, hx⟩) hw h₂.held).bindRight fun tree' d' htree' hw' => ?_
    exact .ok (hQ _ _ htree.marked htree'.marked) hw'
  · rw [if_neg hr, if_neg hr]
    exact .ok (hQ _ _ htree.marked h₂) hw

theorem executeConnection_agrees (hf : Follows execute eval) (hp : p.Of s) (fuel : Nat)
    {ignoreReturn : Bool} (hr : (ignoreReturn || invert) = p.ignored) {connector : Connector}
    {first first' second second' : Command A R}
    (hv : Value.Marked ignored invert (.connection connector first second)
      (.connection connector first' second')) (t : Store σ) :
    Agrees (Value.Marked ignored invert (.connection connector first second)) s.loopLevel s
      (executeConnection execute ignoreReturn invert connector first' second' (s.put t .next))
      (valueMeans env eval fuel p t (.connection connector first second)) := by
  cases hv with
  | semicolon h₁ h₂ =>
    rw [executeConnection, valueMeans, connectionMeans, hr]
    refine (hf.agrees t hp (hi ▸ h₁).held).bind fun tree d htree hw hx _ => ?_
    refine (hf.next hp (fun _ => ⟨_, _, _, hx⟩) hw (hi ▸ h₂).held).bindRight
      fun tree' d' htree' hw' => ?_
    exact .ok (.semicolon (hi ▸ htree.marked) (hi ▸ htree'.marked)) hw'
  | andAnd h₁ h₂ =>
    rw [Bool.or_false] at hi hr
    subst hi hr
    exact Agrees.orElse hf hp h₁ h₂ t (· = 0) fun _ _ => .andAnd
  | orOr h₁ h₂ =>
    rw [Bool.or_false] at hi hr
    subst hi hr
    exact Agrees.orElse hf hp h₁ h₂ t (· ≠ 0) fun _ _ => .orOr

end Values

/-! ## Simple commands -/

theorem agrees_break {n : Nat} (hn : 0 < n) (hle : n ≤ s.loopLevel) (t : Store σ) (result : Nat) :
    Agrees (fun _ : Unit => True) s.loopLevel s
      (.ok ⟨(), { s.put t .next with breaking := n }, result⟩)
      (.ok ⟨t, result, .break_ (n - 1)⟩) := by
  obtain ⟨k, rfl⟩ : ∃ k, n = k + 1 := ⟨n - 1, (Nat.sub_add_cancel hn).symm⟩
  exact .ok (d := ⟨t, result, .break_ k⟩) trivial hle

theorem agrees_continue {n : Nat} (hn : 0 < n) (hle : n ≤ s.loopLevel) (t : Store σ)
    (result : Nat) :
    Agrees (fun _ : Unit => True) s.loopLevel s
      (.ok ⟨(), { s.put t .next with continuing := n }, result⟩)
      (.ok ⟨t, result, .continue_ (n - 1)⟩) := by
  obtain ⟨k, rfl⟩ : ∃ k, n = k + 1 := ⟨n - 1, (Nat.sub_add_cancel hn).symm⟩
  exact .ok (d := ⟨t, result, .continue_ k⟩) trivial hle

theorem breakBuiltin_agrees (hp : p.Of s) (newbreak : Int) (t : Store σ) :
    Agrees (fun _ => True) s.loopLevel s (.ok (breakBuiltin newbreak (s.put t .next)))
      (.ok (breakMeans p newbreak t)) := by
  unfold breakBuiltin breakMeans
  rw [hp.loops, put_loopLevel]
  by_cases h₀ : s.loopLevel = 0
  · rw [if_pos h₀, if_pos h₀]
    exact .ok (d := ⟨t, 0, .next⟩) trivial trivial
  · have hpos : 0 < s.loopLevel := Nat.pos_of_ne_zero h₀
    rw [if_neg h₀, if_neg h₀]
    by_cases hn : newbreak ≤ 0
    · rw [if_pos hn, if_pos hn]
      exact agrees_break hpos (Nat.le_refl _) t 1
    · rw [if_neg hn, if_neg hn]
      exact agrees_break (by omega) (Nat.min_le_right _ _) t 0

theorem continueBuiltin_agrees (hp : p.Of s) (newcont : Int) (t : Store σ) :
    Agrees (fun _ => True) s.loopLevel s (.ok (continueBuiltin newcont (s.put t .next)))
      (.ok (continueMeans p newcont t)) := by
  unfold continueBuiltin continueMeans
  rw [hp.loops, put_loopLevel]
  by_cases h₀ : s.loopLevel = 0
  · rw [if_pos h₀, if_pos h₀]
    exact .ok (d := ⟨t, 0, .next⟩) trivial trivial
  · have hpos : 0 < s.loopLevel := Nat.pos_of_ne_zero h₀
    rw [if_neg h₀, if_neg h₀]
    by_cases hn : newcont ≤ 0
    · rw [if_pos hn, if_pos hn]
      exact agrees_break hpos (Nat.le_refl _) t 1
    · rw [if_neg hn, if_neg hn]
      exact agrees_continue (by omega) (Nat.min_le_right _ _) t 0

/-- Where a function is left, the loops are again those around the call. -/
theorem Agrees.leaveFunction {T : Type} {P : T → Prop} {loops : Nat} {x : Run σ (Ran σ T)}
    {y : Eval σ (Done σ)} {returnCatch : Nat} (popContext : σ → σ) (t : Store σ)
    (hle : loops ≤ s.loopLevel)
    (h : Agrees P loops { s with loopLevel := loops, returnCatch := returnCatch } x y) :
    Agrees (fun _ => True) s.loopLevel s (leaveFunction popContext (s.put t .next) x)
      (functionLeft popContext y) := by
  cases h with
  | @ok tree d tree_ok within =>
    exact .ok (d := { d with store := { d.store with user := popContext d.store.user } }) trivial
      (Exit.Within.mono within hle)
  | fuel => exact .fuel
  | exit user value => exact .exit user value
  | errexit user value => exact .errexit user value
  | return_ s' t' value =>
    exact .ok (d := ⟨{ t' with user := popContext t'.user }, value, .next⟩) trivial trivial

theorem executeFunction_agrees (hf : Follows execute eval) (hp : p.Of s) {body : Command A R}
    (hbody : body.Parsed) (popContext : σ → σ) (t : Store σ) :
    Agrees (fun _ => True) s.loopLevel s
      (executeFunction env execute p.ignored body popContext (s.put t .next))
      (functionMeans env eval p body popContext t) := by
  have hb : Command.Marked p.ignored body body :=
    hbody.mono fun h => absurd h Bool.false_ne_true
  rw [executeFunction, functionMeans, hp.loops, put_loopLevel]
  refine Agrees.leaveFunction popContext t ?_ (hf.agrees
    (p := { p with
      loops := if 43 < env.shellCompatibilityLevel then 0 else s.loopLevel, returns := true })
    (s := { s with
      loopLevel := if 43 < env.shellCompatibilityLevel then 0 else s.loopLevel
      returnCatch := s.returnCatch + 1 })
    t ⟨rfl, (decide_eq_true (Nat.succ_ne_zero _)).symm⟩ hb.held)
  split
  · exact Nat.zero_le _
  · exact Nat.le_refl _

theorem executeSimpleCommand_agrees (hf : Follows execute eval) (hp : p.Of s)
    (hbodies : ∀ a u v body popContext, env.simple a u = .call v body popContext → body.Parsed)
    (a : A) (t : Store σ) :
    Agrees (fun _ => True) s.loopLevel s
      (executeSimpleCommand env execute p.ignored a (s.put t .next))
      (simpleMeans env eval p a t) := by
  rw [executeSimpleCommand, simpleMeans, put_user]
  cases ha : env.simple a t.user with
  | run user result => exact .ok (d := ⟨{ t with user := user }, result, .next⟩) trivial trivial
  | break_ user n => exact breakBuiltin_agrees hp n { t with user := user }
  | continue_ user n => exact continueBuiltin_agrees hp n { t with user := user }
  | return_ user value =>
    dsimp only
    rw [hp.returns, put_returnCatch]
    by_cases hr : s.returnCatch ≠ 0
    · rw [if_pos (decide_eq_true hr), if_pos hr]
      exact .return_ s { t with user := user } value
    · rw [if_neg (fun h => hr (of_decide_eq_true h)), if_neg hr]
      exact .ok (d := ⟨{ t with user := user }, 2, .next⟩) trivial trivial
  | exit user value => exact .exit user value
  | call user body popContext =>
    exact executeFunction_agrees hf hp (hbodies a t.user user body popContext ha) popContext
      { t with user := user }

/-! ## All commands -/

/-- What the environment gives to the executor: functions that the parser has built, and words for
every `select`. -/
structure Env.Regular (env : Env σ A R V) : Prop where
  bodies : ∀ a u v body popContext, env.simple a u = .call v body popContext → body.Parsed
  selects : ∀ a u v, env.selectWords a u ≠ .ok (v, [])

theorem checkErrexit_agrees {T : Type} {P : T → Prop} {h : Head R}
    (hh : (h.ignoreReturn || h.invertReturn) = p.ignored) {tree : T} (tree_ok : P tree)
    {d : Done σ} (hw : d.exit.Within s.loopLevel) :
    Agrees P s.loopLevel s (checkErrexit env h tree (s.put d.store d.exit) d.result)
      (unlessErrexit env p d) := by
  have hcond : (h.ignoreReturn = false ∧ h.invertReturn = false ∧ env.errexit d.store.user ∧
      d.result ≠ 0) ↔ (p.ignored = false ∧ env.errexit d.store.user ∧ d.result ≠ 0) := by
    rw [← hh, Bool.or_eq_false_iff, and_assoc]
  unfold checkErrexit unlessErrexit
  rw [put_user]
  by_cases hc : p.ignored = false ∧ env.errexit d.store.user ∧ d.result ≠ 0
  · rw [if_pos hc, if_pos (hcond.2 hc)]
    exact .errexit d.store.user d.result
  · rw [if_neg hc, if_neg (fun h => hc (hcond.1 h))]
    exact .ok tree_ok hw

/-- The flags that a value takes over from the head. -/
theorem flags_eq {m f : Bool} (hm : m = true → f = true) : (m || f) = f := by
  cases m with
  | false => rfl
  | true => rw [hm rfl]; rfl

theorem executeValue_agrees (hf : Follows execute eval) (hp : p.Of s) (henv : env.Regular)
    {ignored invert : Bool} {h : Head R} (hinvert : h.invertReturn = invert)
    (hi : p.ignored = (ignored || invert))
    (hh : (h.ignoreReturn || h.invertReturn) = p.ignored) {v w : Value A R}
    (hv : Value.Marked ignored invert v w) (fuel : Nat) (t : Store σ) :
    Agrees (Value.Marked ignored invert v) s.loopLevel s
      (executeValue env execute fuel h (s.put t .next) w) (valueMeans env eval fuel p t v) := by
  have hflags : ∀ {m : Bool}, (m = true → ignored = true ∨ invert = true) →
      (m || (h.ignoreReturn || h.invertReturn)) = p.ignored := fun hm => by
    rw [hh, flags_eq]
    exact fun h => by rw [hi, Bool.or_eq_true_iff]; exact hm h
  have hr : (h.ignoreReturn || invert) = p.ignored := hinvert ▸ hh
  cases hv with
  | simple hm =>
    rw [executeValue, valueMeans, hflags hm]
    refine (executeSimpleCommand_agrees hf hp henv.bodies _ t).bind fun _ d _ hw _ _ => ?_
    exact checkErrexit_agrees hh (.simple (flags_of_ignored hi)) hw
  | @pipeline _ _ a =>
    rw [executeValue, valueMeans]
    exact checkErrexit_agrees
      (d := ⟨{ t with user := (env.forked a t.user).1 }, (env.forked a t.user).2, .next⟩) hh
      Value.Marked.pipeline trivial
  | @misc _ _ a =>
    rw [executeValue, valueMeans]
    exact checkErrexit_agrees
      (d := ⟨{ t with user := (env.misc a t.user).1 }, (env.misc a t.user).2, .next⟩) hh
      Value.Marked.misc trivial
  | forIn hm ha =>
    rw [executeValue, hflags hm]
    exact executeForCommand_agrees hi hf hp fuel _ _ (hi ▸ ha) t
  | arithFor hm ha =>
    rw [executeValue, hflags hm]
    exact executeArithForCommand_agrees hi hf hp fuel _ _ _ _ (hi ▸ ha) t
  | select hm ha =>
    rw [executeValue, hflags hm]
    exact executeSelectCommand_agrees hi hf hp henv.selects fuel _ _ (hi ▸ ha) t
  | caseIn hm hc =>
    rw [executeValue, hflags hm]
    exact executeCaseCommand_agrees hi hf hp fuel _ _ (hi ▸ hc) t
  | while_ hm ht ha =>
    rw [executeValue, hflags hm]
    exact executeWhileOrUntil_agrees hi hf hp fuel _ _ ht (hi ▸ ha) t
  | if_ hm hc ht he =>
    rw [executeValue, hflags hm]
    exact executeIfCommand_agrees hi hf hp fuel _ hc (hi ▸ ht) (hi ▸ he) t
  | group hc =>
    rw [executeValue, valueMeans, hh]
    refine (hf.agrees t hp (hi ▸ hc).held).bindRight fun tree d htree hw => ?_
    exact .ok (.group (hi ▸ htree.marked)) hw
  | semicolon h₁ h₂ =>
    rw [executeValue, hinvert]
    exact executeConnection_agrees hi hf hp fuel hr (.semicolon h₁ h₂) t
  | andAnd h₁ h₂ =>
    rw [executeValue, hinvert]
    exact executeConnection_agrees hi hf hp fuel hr (.andAnd h₁ h₂) t
  | orOr h₁ h₂ =>
    rw [executeValue, hinvert]
    exact executeConnection_agrees hi hf hp fuel hr (.orOr h₁ h₂) t

/-- Redirections are undone, and the exit status is inverted. -/
theorem Agrees.undone {T U : Type} {P : T → Prop} {Q : U → Prop} {loops : Nat}
    {x : Run σ (Ran σ T)} {y : Eval σ (Done σ)} (h : Agrees P loops s x y) (undo : σ → σ)
    (invert : Bool) {f : T → U} (hf : ∀ tree, P tree → Q (f tree)) :
    Agrees Q loops s
      (unwindRedirects undo x >>= fun r => .ok ⟨f r.tree,
        { r.state with user := undo r.state.user, last := inverted invert r.result },
        inverted invert r.result⟩)
      (undone undo y >>= fun d => .ok ⟨{ d.store with last := inverted invert d.result },
        inverted invert d.result, d.exit⟩) := by
  cases h with
  | @ok tree d tree_ok within =>
    exact .ok (d := ⟨⟨undo d.store.user, inverted invert d.result⟩, inverted invert d.result,
      d.exit⟩) (hf tree tree_ok) within
  | fuel => exact .fuel
  | exit user value => exact .exit user value
  | errexit user value => exact .errexit user value
  | return_ s' t value => exact .return_ s' { t with user := undo t.user } value

section Heads

variable {m i invert : Bool} (hm : m = true → i = true ∨ invert = true) (hmark : (m || i) = m)
  (e : Bool)
include hm hmark

/-- Behind the mark that `execute_command_internal` makes for `!`. -/
theorem head_ignored : ((m || (e && invert)) || invert) = (i || invert) := by
  cases i with
  | true => rw [← hmark, Bool.or_true]; rfl
  | false =>
    cases invert with
    | true => rw [Bool.or_true, Bool.or_true]
    | false =>
      cases m with
      | false => rw [Bool.and_false]; rfl
      | true => exact absurd (hm rfl) (by decide)

omit hmark in
theorem head_marked : (m || (e && invert)) = true → i = true ∨ invert = true := fun h => by
  rw [Bool.or_eq_true_iff, Bool.and_eq_true_iff] at h
  exact h.elim hm fun h => Or.inr h.2

omit hm in
theorem head_mark : ((m || (e && invert)) || i) = (m || (e && invert)) := by
  rw [Bool.or_assoc, Bool.or_comm (e && invert), ← Bool.or_assoc, hmark]

end Heads

theorem executeCommandInternal_agrees {n : Nat}
    (hf : Follows (executeCommandInternal env n) (means env n)) (henv : env.Regular)
    {d c : Command A R} (hc : Command.Held p.ignored d c) (hp : p.Of s) (t : Store σ) :
    Agrees (Command.Held p.ignored d) s.loopLevel s
      (executeCommandInternal env (n + 1) c (s.put t .next)) (means env (n + 1) p d t) := by
  obtain ⟨hc, hmark⟩ := hc
  have hcalm : ¬ ((s.put t .next).breaking ≠ 0 ∨ (s.put t .next).continuing ≠ 0) := by
    rintro (h | h) <;> exact h rfl
  unfold executeCommandInternal
  rw [if_neg hcalm]
  cases hc with
  | null => exact .ok (d := ⟨t, 0, .next⟩) ⟨.null, rfl⟩ trivial
  | @subshell _ m h a hm =>
    have hmark : (m || p.ignored) = m := by simpa [Command.mark] using hmark
    rw [means]
    refine checkErrexit_agrees (p := p.ignoring h.invertReturn) (s := s)
      (d := ⟨⟨(env.forked a t.user).1, inverted h.invertReturn (env.forked a t.user).2⟩,
        inverted h.invertReturn (env.forked a t.user).2, .next⟩)
      (head_ignored hm hmark (env.errexit t.user)) ?_ trivial
    refine ⟨.subshell (head_marked hm _), ?_⟩
    simp only [Command.mark, put_user, head_mark hmark]
  | @mk _ m h v w hm hv =>
    have hmark : (m || p.ignored) = m := by simpa [Command.mark] using hmark
    have hh := head_ignored hm hmark (env.errexit t.user)
    have hheld : ∀ w', Value.Marked p.ignored h.invertReturn v w' →
        Command.Held p.ignored (.mk h v)
          (.mk { h with ignoreReturn := m || (env.errexit t.user && h.invertReturn) } w') :=
      fun w' hw' => ⟨.mk (head_marked hm _) hw', by
        simp only [Command.mark, head_mark hmark]⟩
    rw [means, put_user]
    dsimp only
    cases env.redirect h.redirects t.user with
    | error user =>
      exact checkErrexit_agrees (p := p.ignoring h.invertReturn) (s := s)
        (d := ⟨⟨user, 1⟩, 1, .next⟩) hh (hheld w hv) trivial
    | ok redirected =>
      have hvalue := executeValue_agrees (p := p.ignoring h.invertReturn) hf ⟨hp.loops, hp.returns⟩
        henv (h := { h with ignoreReturn := m || (env.errexit t.user && h.invertReturn) }) rfl rfl
        hh hv n { t with user := redirected.1 }
      exact hvalue.undone redirected.2 h.invertReturn hheld

/-- At every fuel. -/
theorem follows_means (henv : env.Regular) (n : Nat) :
    Follows (executeCommandInternal env n) (means env n) := by
  induction n with
  | zero => exact ⟨fun _ _ _ => .fuel, fun h => by cases h⟩
  | succ n ih =>
    refine ⟨fun t hp hc => executeCommandInternal_agrees ih henv hc hp t, fun _ c s hs => ?_⟩
    unfold executeCommandInternal
    exact if_pos hs

/-! ## Outcomes -/

def State.store (s : State σ) : Store σ := ⟨s.user, s.last⟩

def Stop.map {ρ τ : Type} (f : ρ → τ) : Stop σ ρ → Stop σ τ
  | .fuel => .fuel
  | .exit user value => .exit user value
  | .errexit user value => .errexit user value
  | .return_ s value => .return_ (f s) value

/-- What can be seen of an outcome. -/
def observed {T U : Type} (f : T → U) : Run σ T → Eval σ U
  | .ok x => .ok (f x)
  | .error e => .error (e.map State.store)

def Ran.done {T : Type} (r : Ran σ T) : Done σ :=
  ⟨r.state.store, r.result, .ofCounters r.state.breaking r.state.continuing⟩

theorem Agrees.observed_eq {T : Type} {P : T → Prop} {loops : Nat} {x : Run σ (Ran σ T)}
    {y : Eval σ (Done σ)} (h : Agrees P loops s x y) : observed Ran.done x = y := by
  cases h with
  | @ok tree d tree_ok within =>
    obtain ⟨store, result, exit⟩ := d
    cases exit <;> rfl
  | fuel | exit user value | errexit user value | return_ s' t value => rfl

/-- The counters of commands at a level of loops; they leave no more loops than there are. -/
structure State.Balanced (level returnCatch : Nat) (s : State σ) : Prop where
  loopLevel : s.loopLevel = level
  returnCatch : s.returnCatch = returnCatch
  breaking : s.breaking ≤ level
  continuing : s.continuing ≤ level
  one : s.breaking = 0 ∨ s.continuing = 0

def State.place (ignored : Bool) (s : State σ) : Place :=
  ⟨ignored, s.loopLevel, decide (s.returnCatch ≠ 0)⟩

/-- No loop is being left. -/
def State.Calm (s : State σ) : Prop := s.breaking = 0 ∧ s.continuing = 0

theorem Command.Marked.held_false {c c' : Command A R} (hc : Marked false c c') :
    Command.Held false c c' := by
  refine ⟨hc, ?_⟩
  cases c' <;> simp only [Command.mark, Bool.or_false]

theorem agrees_means (henv : env.Regular) {ignored : Bool} {c c' : Command A R}
    (hc : Command.Held ignored c c') (hs : s.Calm) (n : Nat) :
    Agrees (Command.Held ignored c) s.loopLevel s (executeCommandInternal env n c' s)
      (means env n (s.place ignored) c s.store) := by
  have h := (follows_means henv n).agrees (p := s.place ignored) s.store ⟨rfl, rfl⟩ hc
  rwa [State.store, put_calm s hs.1 hs.2] at h

/-- A store that is counted down. -/
def countdown : Env Nat Nat Unit Unit where
  shellCompatibilityLevel := 53
  errexit _ := true
  simple a u := match a with
    | 0 => .run (u - 1) (if u = 0 then 1 else 0)
    | _ => .break_ u 1
  forked _ u := (u, 0)
  misc _ u := (u, 0)
  redirect _ u := .ok (u, id)
  words _ u := .ok (u, [()])
  selectWords _ u := .error u
  bind _ _ u := .ok u
  arith _ u := (u, 0, true)
  query _ _ u := (u, none)
  caseWord _ u := (u, ())
  strmatch _ _ u := (u, true)

theorem countdown_regular : countdown.Regular := by
  refine ⟨fun a u v body popContext h => ?_, fun a u v h => by cases h⟩
  match a with
  | 0 | a + 1 => cases h

/-- `while down; do down && break; done` -/
def downLoop : Command Nat Unit :=
  .mk ⟨false, false, ()⟩ (.while_ false false (.mk ⟨false, false, ()⟩ (.simple false 0))
    (.mk ⟨false, false, ()⟩ (.connection .andAnd (.mk ⟨false, false, ()⟩ (.simple false 0))
      (.mk ⟨false, false, ()⟩ (.simple false 1)))))

theorem downLoop_parsed : downLoop.Parsed :=
  .mk (by simp) (.while_ (by simp) (.mk (by simp) (.simple (by simp)))
    (.mk (by simp) (.andAnd (.mk (by simp) (.simple (by simp)))
      (.mk (by simp) (.simple (by simp))))))

theorem downLoop_ends :
    ∃ r, executeCommandInternal countdown 9 downLoop ⟨1, 0, 0, 0, 0, 0⟩ = .ok r := ⟨_, rfl⟩

end Basht.Execute
