import Mathlib.Tactic.Ring
import Basht.Builtins.GetoptReads

/-!
# The parse of `getopts`

The reference (`Options.parse`) goes once through the words behind the command name. `getopts`
cuts the same parse into calls, which rebuild the position from the saved indices; between two
calls the variables stand at the position of the reference (`Getopt.Stands`), whatever the words
come from.
-/

namespace Basht.Builtins

/-! ## The reference -/

/-- A letter or a digit. -/
def IsAlnum (c : UInt8) : Prop :=
  0x30 ≤ c ∧ c ≤ 0x39 ∨ 0x41 ≤ c ∧ c ≤ 0x5a ∨ 0x61 ≤ c ∧ c ≤ 0x7a

/-- The options of a command, and whether each takes an argument. With `silent`, errors are
reported in the variables only. -/
structure Options where
  silent : Bool
  opts : List (UInt8 × Bool)
  alnum : ∀ opt ∈ opts, IsAlnum opt.1

/-- The letters of an option string, each with a colon behind it if it takes an argument. -/
def letters : List (UInt8 × Bool) → List UInt8
  | [] => []
  | (c, takes) :: opts => c :: if takes then ':'.toUInt8 :: letters opts else letters opts

/-- The option string. -/
def Options.text (o : Options) : Word :=
  if o.silent then ':'.toUInt8 :: letters o.opts else letters o.opts

/-- The element to be looked at, the options that are left of it, and the words behind it. With no
options left, it is the element itself that is the first of the words. -/
structure Position where
  index : Nat
  rest : List UInt8
  words : List Word

/-- The value of `OPTARG`. Behind an option without an argument, it may be any. -/
inductive Optarg where
  | any
  | unset
  | value (w : Word)

/-- The values that a call sets. -/
structure Outcome where
  name : UInt8
  optarg : Optarg
  optind : Nat

/-- `OPTARG` for an error at the option `c`. -/
def Options.reported (o : Options) (c : UInt8) : Optarg := if o.silent then .value [c] else .unset

/-- The option `c` of the element `n`, with `cs` behind it in the element and `ws` behind the
element: the values, and where the parse goes on. -/
def Options.option (o : Options) (n : Nat) (c : UInt8) (cs : List UInt8) (ws : List Word) :
    Outcome × Position :=
  let n' := if cs = [] then n + 1 else n
  match o.opts.lookup c with
  | none => (⟨'?'.toUInt8, o.reported c, n'⟩, ⟨n', cs, ws⟩)
  | some false => (⟨c, .any, n'⟩, ⟨n', cs, ws⟩)
  | some true =>
    if cs ≠ [] then (⟨c, .value cs, n + 1⟩, ⟨n + 1, [], ws⟩)
    else
      match ws with
      | [] =>
        (⟨if o.silent then ':'.toUInt8 else '?'.toUInt8, o.reported c, n + 1⟩, ⟨n + 1, [], []⟩)
      | w :: ws => (⟨c, .value w, n + 2⟩, ⟨n + 2, [], ws⟩)

/-- What is left to be parsed. -/
def Position.size (p : Position) : Nat :=
  p.rest.length + (p.words.map fun w => w.length + 1).sum

theorem option_size (o : Options) (n : Nat) (c : UInt8) (cs : List UInt8) (ws : List Word) :
    (o.option n c cs ws).2.size < (Position.mk n (c :: cs) ws).size := by
  unfold Options.option Position.size
  cases o.opts.lookup c with
  | none => simp
  | some takes =>
    cases takes with
    | false => simp
    | true =>
      by_cases hcs : cs = []
      · cases ws with
        | nil => simp [hcs]
        | cons w ws =>
          simp only [hcs, ne_eq, not_true_eq_false, if_false, List.map_cons, List.sum_cons,
            List.length_nil, List.length_cons]
          omega
      · simp [hcs]

/-- The word is one of options, `--` set aside. -/
def hasOptions (w : Word) : Bool := w.head? == some '-'.toUInt8 && w != ['-'.toUInt8]

theorem tail_size (w : Word) (n : Nat) (ws : List Word) :
    (Position.mk n w.tail ws).size < (Position.mk n [] (w :: ws)).size := by
  unfold Position.size
  simp only [List.length_tail, List.map_cons, List.sum_cons, List.length_nil]
  omega

/-- The values that the calls set, up to the one that finds no more options. -/
def Options.parse (o : Options) (p : Position) : List Outcome :=
  match p with
  | ⟨n, c :: cs, ws⟩ => (o.option n c cs ws).1 :: o.parse (o.option n c cs ws).2
  | ⟨n, [], []⟩ => [⟨'?'.toUInt8, .unset, n⟩]
  | ⟨n, [], w :: ws⟩ =>
    if w = ['-'.toUInt8, '-'.toUInt8] then [⟨'?'.toUInt8, .unset, n + 1⟩]
    else if hasOptions w then o.parse ⟨n, w.tail, ws⟩
    else [⟨'?'.toUInt8, .unset, n⟩]
termination_by p.size
decreasing_by
  · exact option_size o n c cs ws
  · exact tail_size w n ws

theorem parse_ne_nil (o : Options) (p : Position) : o.parse p ≠ [] := by
  fun_induction Options.parse o p with
  | case1 => exact List.cons_ne_nil _ _
  | case2 => exact List.cons_ne_nil _ _
  | case3 => exact List.cons_ne_nil _ _
  | case4 n w ws hdash hopts ih => exact ih
  | case5 => exact List.cons_ne_nil _ _

/-! ## The calls -/

/-- `OPTARG`. -/
def optargName : Word := "OPTARG".toList.map Char.toUInt8

/-- `OPTIND`. -/
def optindName : Word := "OPTIND".toList.map Char.toUInt8

/-- The assignment to `OPTARG` is one of the value. -/
def Optarg.Sets : Optarg → Out → Prop
  | .any, out => out = .unbind optargName ∨ ∃ v, out = .bind optargName v
  | .unset, out => out = .unbind optargName
  | .value w, out => out = .bind optargName (some w)

/-- It is not a message. -/
def Out.assigns : Out → Bool
  | .bind _ _ | .unbind _ => true
  | .stderr _ | .usage => false

/-- The assignments of a call are those of the values, in some order. -/
def Outcome.Sets (name : Word) (r : Outcome) (outs : List Out) : Prop :=
  ∃ arg, r.optarg.Sets arg ∧ (outs.filter Out.assigns).Perm
    [.bind optindName (some (numval r.optind)), .bind name (some [r.name]), arg]

/-- What `dogetopts` returns, where the variables can be assigned. -/
def Getopt.status (st : Getopt) (list : List Word) (dollar0 : Word) (params : List Word) :
    Except Fault Nat :=
  match list with
  | optstr :: name :: args =>
    let special := optstr.head? == some ':'.toUInt8
    let optstring := if special then optstr.tail else optstr
    let v := vector dollar0 name args params
    match st.restoreState v.1 with
    | .error e => .error e
    | .ok nextchar =>
      match { st with opterr := !special && st.opterr }.shGetopt nextchar v.2 optstring with
      | .error e => .error e
      | .ok (_, ret, _) => .ok (if ret = EOF then 1 else 0)
  | _ => .ok 2

/-- What is done by the calls with the same arguments, up to the first one that fails; `none` if
the `fuel` is used up. -/
def Getopt.calls (list : List Word) (dollar0 : Word) (params : List Word) :
    Nat → Getopt → Except Fault (Option (List (List Out)))
  | 0, _ => .ok none
  | fuel + 1, st =>
    match st.status list dollar0 params with
    | .error e => .error e
    | .ok status =>
      match st.dogetopts list dollar0 params with
      | .error e => .error e
      | .ok (st, outs) =>
        if status ≠ 0 then .ok (some [outs])
        else
          match Getopt.calls list dollar0 params fuel st with
          | .error e => .error e
          | .ok outss => .ok (outss.map (outs :: ·))

/-- The words that are parsed. -/
def operands (args params : List Word) : List Word := if args ≠ [] then args else params

/-! ## Letters -/

theorem IsAlnum.lt {c : UInt8} (h : IsAlnum c) : 0x30 ≤ c.toNat ∧ c.toNat ≤ 0x7a ∧
    c.toNat ≠ 0x3a ∧ c.toNat ≠ 0x3f := by
  obtain ⟨h₁, h₂⟩ | ⟨h₁, h₂⟩ | ⟨h₁, h₂⟩ := h
  all_goals
    rw [UInt8.le_iff_toNat_le] at h₁ h₂
    simp only [UInt8.reduceToNat] at h₁ h₂
    omega

theorem IsAlnum.ne_colon {c : UInt8} (h : IsAlnum c) : c ≠ ':'.toUInt8 := by
  intro hc
  exact h.lt.2.2.1 (congrArg UInt8.toNat hc)

/-- A letter is returned as itself: it is neither an error nor the end. -/
theorem charInt_alnum {c : UInt8} (h : IsAlnum c) :
    charInt c = c.toNat ∧ charInt c ≠ charInt '?'.toUInt8 := by
  obtain ⟨-, hle, -, hne⟩ := h.lt
  have hc : charInt c = c.toNat := by
    rw [charInt, Int8.toInt, UInt8.toBitVec_toInt8, BitVec.toInt_eq_toNat_of_lt]
    · rfl
    · change 2 * c.toNat < 256
      omega
  refine ⟨hc, ?_⟩
  rw [hc]
  intro h
  apply hne
  exact Int.ofNat.inj h

theorem charInt_toUInt8 (c : UInt8) : (charInt c).toInt8.toUInt8 = c := by
  rw [charInt, Int.toInt8, Int8.ofInt_toInt, UInt8.toUInt8_toInt8]

/-- The letters start with none of the colons. -/
theorem letters_head {opts : List (UInt8 × Bool)} (h : ∀ opt ∈ opts, IsAlnum opt.1) :
    (letters opts).head? ≠ some ':'.toUInt8 := by
  cases opts with
  | nil => exact Option.some_ne_none _ ∘ Eq.symm
  | cons opt opts =>
    intro hhead
    exact (h opt List.mem_cons_self).ne_colon (Option.some.inj hhead)

theorem lookup_colon {opts : List (UInt8 × Bool)} (h : ∀ opt ∈ opts, IsAlnum opt.1) :
    opts.lookup ':'.toUInt8 = none := by
  rw [List.lookup_eq_none_iff]
  intro opt hopt
  rw [bne_iff_ne]
  exact (h opt hopt).ne_colon.symm

theorem lookup_alnum {opts : List (UInt8 × Bool)} (h : ∀ opt ∈ opts, IsAlnum opt.1) {c : UInt8}
    {takes : Bool} (hc : opts.lookup c = some takes) : IsAlnum c := by
  obtain ⟨l₁, l₂, rfl, -⟩ := List.lookup_eq_some_iff.mp hc
  exact h (c, takes) (List.mem_append_right _ List.mem_cons_self)

theorem contains_letters (opts : List (UInt8 × Bool)) {c : UInt8} (hc : c ≠ ':'.toUInt8) :
    (letters opts).contains c = (opts.lookup c).isSome := by
  induction opts with
  | nil => rfl
  | cons opt opts ih =>
    obtain ⟨d, takes⟩ := opt
    rw [letters, List.lookup_cons, List.contains_cons]
    cases hd : c == d with
    | true => rfl
    | false =>
      rw [Bool.false_or, ← ih]
      cases takes with
      | false => rfl
      | true =>
        rw [if_pos rfl, List.contains_cons, beq_eq_false_iff_ne.mpr hc, Bool.false_or]

/-- The test of the scanner for an option that it does not know. -/
theorem bad_eq {opts : List (UInt8 × Bool)} (h : ∀ opt ∈ opts, IsAlnum opt.1) (c : UInt8) :
    (!(letters opts).contains c || c == ':'.toUInt8) = (opts.lookup c).isNone := by
  by_cases hc : c = ':'.toUInt8
  · rw [hc, lookup_colon h, beq_self_eq_true, Bool.or_true]
    rfl
  · rw [contains_letters opts hc, beq_eq_false_iff_ne.mpr hc, Bool.or_false]
    cases opts.lookup c with
    | none => rfl
    | some takes => rfl

theorem takesArgument_self (c : UInt8) (s : List UInt8) :
    takesArgument (c :: s) c = (s.head? == some ':'.toUInt8) := by
  have hc : ¬(c != c) = true := by
    rw [bne_self_eq_false]
    exact Bool.false_ne_true
  rw [takesArgument, List.dropWhile_cons, if_neg hc]
  rfl

theorem takesArgument_cons {c d : UInt8} (h : d ≠ c) (s : List UInt8) :
    takesArgument (d :: s) c = takesArgument s c := by
  rw [takesArgument, List.dropWhile_cons, if_pos (bne_iff_ne.mpr h)]
  rfl

theorem takesArgument_letters {opts : List (UInt8 × Bool)} (h : ∀ opt ∈ opts, IsAlnum opt.1)
    {c : UInt8} {takes : Bool} (hc : opts.lookup c = some takes) :
    takesArgument (letters opts) c = takes := by
  have hcolon : ':'.toUInt8 ≠ c := (lookup_alnum h hc).ne_colon.symm
  induction opts with
  | nil => cases hc
  | cons opt opts ih =>
    obtain ⟨d, takes'⟩ := opt
    have htail : ∀ opt ∈ opts, IsAlnum opt.1 := fun opt hopt => h opt (List.mem_cons_of_mem _ hopt)
    rw [List.lookup_cons] at hc
    cases hd : c == d with
    | true =>
      rw [hd] at hc
      cases hc
      rw [← beq_iff_eq.mp hd, letters, takesArgument_self]
      cases takes with
      | true => rfl
      | false =>
        rw [if_neg Bool.false_ne_true]
        exact beq_eq_false_iff_ne.mpr (letters_head htail)
    | false =>
      rw [hd] at hc
      rw [← ih htail hc, letters, takesArgument_cons (beq_eq_false_iff_ne.mp hd).symm]
      cases takes' with
      | false => rfl
      | true => rw [if_pos rfl, takesArgument_cons hcolon]

/-! ## Words -/

theorem charAt_of_drop {w : Word} {off : Nat} {c : UInt8} {cs : List UInt8}
    (h : w.drop off = c :: cs) :
    charAt w off = .ok c ∧ charAt w (off + 1) = .ok (cs.headD 0) ∧ w.drop (off + 1) = cs := by
  have hlt : off < w.length := by
    by_contra hge
    rw [List.drop_eq_nil_of_le (Nat.not_lt.mp hge)] at h
    cases h
  have hdrop : w.drop (off + 1) = cs := by
    rw [← List.tail_drop, h]
    rfl
  have hget : ∀ k, w.getD k 0 = (w.drop k).headD 0 := by
    intro k
    rw [List.getD_eq_getElem?_getD, List.headD_eq_head?_getD, List.head?_drop]
  rw [charAt_of_le (Nat.le_of_lt hlt), charAt_of_le hlt, hget, hget, hdrop, h]
  exact ⟨rfl, rfl, rfl⟩

/-- A word without a NUL inside ends where a NUL is read. -/
theorem headD_eq_zero_iff {cs : List UInt8} (h : 0 ∉ cs) : cs.headD 0 = 0 ↔ cs = [] := by
  cases cs with
  | nil => exact iff_of_true rfl rfl
  | cons c cs =>
    refine iff_of_false ?_ (List.cons_ne_nil c cs)
    intro hc
    rw [List.headD_cons] at hc
    rw [hc] at h
    exact h List.mem_cons_self

theorem isDashDash_eq {w : Word} (h : 0 ∉ w) :
    isDashDash w = .ok (w == ['-'.toUInt8, '-'.toUInt8]) := by
  unfold isDashDash
  cases w with
  | nil => rfl
  | cons c₀ w =>
    have hdrop : (c₀ :: w).drop 0 = c₀ :: w := rfl
    obtain ⟨hfirst, hsecond, -⟩ := charAt_of_drop hdrop
    rw [hfirst]
    simp only [hsecond]
    by_cases h₀ : c₀ = '-'.toUInt8
    · rw [if_neg (not_not.mpr h₀), h₀]
      cases w with
      | nil => rfl
      | cons c₁ w =>
        have hdrop₁ : (c₀ :: c₁ :: w).drop 1 = c₁ :: w := rfl
        obtain ⟨-, hthird, -⟩ := charAt_of_drop hdrop₁
        rw [h₀] at hthird
        rw [List.headD_cons, hthird]
        by_cases h₁ : c₁ = '-'.toUInt8
        · have hw : 0 ∉ w := fun hmem =>
            h (List.mem_cons_of_mem c₀ (List.mem_cons_of_mem c₁ hmem))
          rw [if_neg (not_not.mpr h₁), h₁]
          cases w with
          | nil => rfl
          | cons c₂ w =>
            have hc₂ : c₂ ≠ 0 := mt (headD_eq_zero_iff hw).mp (List.cons_ne_nil c₂ w)
            simp only [List.headD_cons, beq_eq_false_iff_ne.mpr hc₂]
            rfl
        · rw [if_pos h₁, List.cons_beq_cons, List.cons_beq_cons, beq_eq_false_iff_ne.mpr h₁,
            Bool.false_and, Bool.and_false]
    · rw [if_pos h₀, List.cons_beq_cons, beq_eq_false_iff_ne.mpr h₀, Bool.false_and]

theorem isOperand_eq {w : Word} (h : 0 ∉ w) : isOperand w = .ok (!hasOptions w) := by
  unfold isOperand
  cases w with
  | nil => rfl
  | cons c₀ w =>
    have hdrop : (c₀ :: w).drop 0 = c₀ :: w := rfl
    obtain ⟨hfirst, hsecond, -⟩ := charAt_of_drop hdrop
    have hw : 0 ∉ w := fun hmem => h (List.mem_cons_of_mem c₀ hmem)
    rw [hfirst]
    simp only [hsecond]
    by_cases h₀ : c₀ = '-'.toUInt8
    · rw [if_neg (not_not.mpr h₀), h₀]
      cases w with
      | nil => rfl
      | cons c₁ w =>
        have hc₁ : c₁ ≠ 0 := mt (headD_eq_zero_iff hw).mp (List.cons_ne_nil c₁ w)
        rw [List.headD_cons, beq_eq_false_iff_ne.mpr hc₁]
        rfl
    · rw [if_pos h₀, hasOptions, List.head?_cons, Option.some_beq_some,
        beq_eq_false_iff_ne.mpr h₀, Bool.false_and]
      rfl

/-- A word of options has a first one. -/
theorem hasOptions_cons {w : Word} (h : hasOptions w = true) :
    ∃ c cs, w = '-'.toUInt8 :: c :: cs := by
  rw [hasOptions, Bool.and_eq_true, beq_iff_eq, bne_iff_ne] at h
  obtain ⟨hhead, hne⟩ := h
  obtain ⟨t, rfl⟩ := List.head?_eq_some_iff.mp hhead
  cases t with
  | nil => exact absurd rfl hne
  | cons c cs => exact ⟨c, cs, rfl⟩

/-! ## What is done with the value that is returned -/

theorem result_eof (st : Getopt) (special : Bool) (name : Word) :
    st.result special name EOF = [.unbind optargName, .bind name (some ['?'.toUInt8])] := rfl

theorem result_unknown {st : Getopt} (h : st.optarg = none) (special : Bool) (name : Word) :
    st.result special name (charInt '?'.toUInt8) = .bind name (some ['?'.toUInt8]) ::
      if special then [.bind optargName (some [st.optopt])] else [.unbind optargName] := by
  have hne : charInt '?'.toUInt8 ≠ EOF := by decide
  rw [Getopt.result, if_neg hne, if_pos (Or.inr ⟨rfl, h⟩)]
  rfl

theorem result_missing {st : Getopt} (h : st.optarg = some []) (special : Bool) (name : Word) :
    st.result special name (charInt '?'.toUInt8) =
      if special then
        [.bind name (some [':'.toUInt8]), .bind optargName (some [st.optopt])]
      else [.bind name (some ['?'.toUInt8]), .unbind optargName] := by
  have hne : charInt '?'.toUInt8 ≠ EOF := by decide
  have hunknown : ¬(charInt '?'.toUInt8 = -2 ∨
      charInt '?'.toUInt8 = charInt '?'.toUInt8 ∧ st.optarg = none) := by
    rw [h]
    decide
  rw [Getopt.result, if_neg hne, if_neg hunknown, if_pos (Or.inr ⟨rfl, h⟩)]
  rfl

theorem result_option (st : Getopt) {c : UInt8} (hc : IsAlnum c) (special : Bool) (name : Word) :
    st.result special name (charInt c) =
      [.bind optargName st.optarg, .bind name (some [c])] := by
  obtain ⟨hnat, hne⟩ := charInt_alnum hc
  have heof : charInt c ≠ EOF := by
    rw [hnat, EOF]
    omega
  have hunknown : ¬(charInt c = -2 ∨ charInt c = charInt '?'.toUInt8 ∧ st.optarg = none) := by
    intro h
    rcases h with h | h
    · rw [hnat] at h
      omega
    · exact hne h.1
  have hmissing : ¬(charInt c = -3 ∨ charInt c = charInt '?'.toUInt8 ∧ st.optarg = some []) := by
    intro h
    rcases h with h | h
    · rw [hnat] at h
      omega
    · exact hne h.1
  rw [Getopt.result, if_neg heof, if_neg hunknown, if_neg hmissing, charInt_toUInt8]
  rfl

theorem Optarg.Sets.assigns {arg : Optarg} {out : Out} (h : arg.Sets out) :
    out.assigns = true := by
  cases arg with
  | any =>
    rcases h with rfl | ⟨v, rfl⟩
    · rfl
    · rfl
  | unset =>
    rw [show out = _ from h]
    rfl
  | value w =>
    rw [show out = _ from h]
    rfl

/-- The call returns with these values: `OPTIND`, and what is assigned to the variable and to
`OPTARG`; anything else that it does is a message. -/
structure Delivers (special : Bool) (r : Getopt × Int × List Out) (out : Outcome) : Prop where
  optind : r.1.optind = out.optind
  messages : r.2.2.filter Out.assigns = []
  result : ∀ name, ∃ arg, out.optarg.Sets arg ∧
    (r.1.result special name r.2.1).Perm [.bind name (some [out.name]), arg]

variable {o : Options}

theorem delivers_eof {st : Getopt} {n : Nat} (h : st.optind = n) (special : Bool) :
    Delivers special (st, EOF, []) ⟨'?'.toUInt8, .unset, n⟩ := by
  refine ⟨h, rfl, ?_⟩
  intro name
  refine ⟨.unbind optargName, rfl, ?_⟩
  rw [result_eof]
  exact List.Perm.swap _ _ _

theorem delivers_unknown {st : Getopt} {n : Nat} {c : UInt8} {outs : List Out}
    (h : st.optind = n) (hopt : st.optopt = c) (hoptarg : st.optarg = none)
    (houts : outs.filter Out.assigns = []) :
    Delivers o.silent (st, charInt '?'.toUInt8, outs) ⟨'?'.toUInt8, o.reported c, n⟩ := by
  refine ⟨h, houts, ?_⟩
  intro name
  simp only [result_unknown hoptarg, Options.reported, hopt]
  cases o.silent with
  | true => exact ⟨_, rfl, List.Perm.refl _⟩
  | false => exact ⟨_, rfl, List.Perm.refl _⟩

theorem delivers_missing {st : Getopt} {n : Nat} {c : UInt8} {outs : List Out}
    (h : st.optind = n) (hopt : st.optopt = c) (hoptarg : st.optarg = some [])
    (houts : outs.filter Out.assigns = []) :
    Delivers o.silent (st, charInt '?'.toUInt8, outs)
      ⟨if o.silent then ':'.toUInt8 else '?'.toUInt8, o.reported c, n⟩ := by
  refine ⟨h, houts, ?_⟩
  intro name
  simp only [result_missing hoptarg, Options.reported, hopt]
  cases o.silent with
  | true => exact ⟨_, rfl, List.Perm.refl _⟩
  | false => exact ⟨_, rfl, List.Perm.refl _⟩

theorem delivers_option {st : Getopt} {n : Nat} {c : UInt8} (hc : IsAlnum c) {arg : Optarg}
    (h : st.optind = n) (harg : arg.Sets (.bind optargName st.optarg)) (special : Bool) :
    Delivers special (st, charInt c, []) ⟨c, arg, n⟩ := by
  refine ⟨h, rfl, ?_⟩
  intro name
  refine ⟨_, harg, ?_⟩
  rw [result_option st hc]
  exact List.Perm.swap _ _ _

/-! ## One call -/

/-- Between two calls, inside an element or before the next one. -/
inductive Getopt.At (st : Getopt) (v : Vec) : Position → Prop
  | element {n : Nat} {ws : List Word} : st.nextchar = false → v.words.drop n = ws →
      Getopt.At st v ⟨n, [], ws⟩
  | inside {n : Nat} {w : Word} {c : UInt8} {cs : List UInt8} {ws : List Word} :
      st.nextchar = true → st.curopt = n → v.words.drop n = w :: ws →
      w.drop st.charindex = c :: cs → Getopt.At st v ⟨n, c :: cs, ws⟩

/-- The variables stand at the position of a parse of the vector. -/
structure Getopt.Stands (st : Getopt) (v : Vec) (p : Position) : Prop where
  optind : st.optind = p.index
  pos : 0 < p.index
  le : p.index ≤ v.argc
  place : st.At v p

theorem Getopt.Stands.setOpterr {st : Getopt} {v : Vec} {p : Position} (h : st.Stands v p)
    (b : Bool) : { st with opterr := b }.Stands v p := by
  obtain ⟨hoptind, hpos, hle, hplace⟩ := h
  refine ⟨hoptind, hpos, hle, ?_⟩
  cases hplace with
  | element hnext hws => exact .element hnext hws
  | inside hnext hcur hws hrest => exact .inside hnext hcur hws hrest

theorem drop_succ {v : Vec} {n : Nat} {w : Word} {ws : List Word} (h : v.words.drop n = w :: ws) :
    n < v.argc ∧ v.words[n]? = some w ∧ v.words.drop (n + 1) = ws := by
  refine ⟨?_, ?_, ?_⟩
  · by_contra hge
    rw [List.drop_eq_nil_of_le (Nat.not_lt.mp hge)] at h
    cases h
  · rw [← List.head?_drop, h]
    rfl
  · rw [← List.tail_drop, h]
    rfl

/-- The position behind an option without an argument. -/
theorem stands_behind {st : Getopt} {v : Vec} {n off : Nat} {w : Word} {c : UInt8}
    {cs : List UInt8} {ws : List Word} (hpos : 0 < n) (hwords : v.words.drop n = w :: ws)
    (hrest : w.drop off = c :: cs) (hcur : st.curopt = n) (hchar : st.charindex = off + 1)
    (hoptind : st.optind = if cs = [] then (n : Int) + 1 else n)
    (hnext : st.nextchar = decide (cs ≠ [])) :
    st.Stands v ⟨if cs = [] then n + 1 else n, cs, ws⟩ := by
  obtain ⟨hlt, hget, hdrop⟩ := drop_succ hwords
  cases cs with
  | nil => exact ⟨hoptind, Nat.succ_pos n, hlt, .element hnext hdrop⟩
  | cons c' cs =>
    have hrest' : w.drop st.charindex = c' :: cs := by
      rw [hchar]
      exact (charAt_of_drop hrest).2.2
    exact ⟨hoptind, hpos, Nat.le_of_lt hlt, .inside hnext hcur hwords hrest'⟩

theorem message_filter (b : Bool) (text : List UInt8) :
    (if b then [Out.stderr text] else []).filter Out.assigns = [] := by
  cases b with
  | true => rfl
  | false => rfl

/-- The option `c` of the element `n`. -/
theorem option_stands {st : Getopt} {v : Vec} {n off : Nat} {w : Word} {c : UInt8}
    {cs : List UInt8} {ws : List Word} (hoptarg : st.optarg = none) (hoptind : st.optind = n)
    (hcur : st.curopt = n) (hchar : st.charindex = off) (hpos : 0 < n)
    (hwords : v.words.drop n = w :: ws) (hrest : w.drop off = c :: cs) (hnul : 0 ∉ cs) :
    ∃ r, st.option v (letters o.opts) w off = .ok r ∧ r.2.1 ≠ EOF ∧
      Delivers o.silent r (o.option n c cs ws).1 ∧ r.1.Stands v (o.option n c cs ws).2 := by
  obtain ⟨hfirst, hsecond, hdrop⟩ := charAt_of_drop hrest
  obtain ⟨hlt, -, hbehind⟩ := drop_succ hwords
  have hnext := headD_eq_zero_iff hnul
  have hquestion : charInt '?'.toUInt8 ≠ EOF := by decide
  have hindex : (if cs = [] then (n : Int) + 1 else n) =
      ((if cs = [] then n + 1 else n : Nat) : Int) := by
    split
    · rfl
    · rfl
  unfold Getopt.option Options.option
  rw [hfirst]
  simp only [hsecond, bad_eq o.alnum, hnext, hoptind]
  cases hlookup : o.opts.lookup c with
  | none =>
    simp only [Option.isNone_none, if_true]
    refine ⟨_, rfl, hquestion, ?_, ?_⟩
    · exact delivers_unknown hindex rfl hoptarg (message_filter _ _)
    · exact stands_behind hpos hwords hrest hcur (congrArg (· + 1) hchar) rfl
        (decide_eq_decide.mpr (not_congr hnext))
  | some takes =>
    have hc := lookup_alnum o.alnum hlookup
    have hne : charInt c ≠ EOF := by
      rw [(charInt_alnum hc).1, EOF]
      omega
    simp only [Option.isNone_some, takesArgument_letters o.alnum hlookup]
    cases takes with
    | false =>
      refine ⟨_, rfl, hne, ?_, ?_⟩
      · refine delivers_option hc hindex ?_ _
        exact Or.inr ⟨_, rfl⟩
      · exact stands_behind hpos hwords hrest hcur (congrArg (· + 1) hchar) rfl
          (decide_eq_decide.mpr (not_congr hnext))
    | true =>
      simp only [if_true, if_false, Bool.false_eq_true]
      unfold Getopt.argument
      simp only [ne_eq, hnext]
      by_cases hcs : cs = []
      · simp only [hcs, not_true_eq_false, if_false, if_true]
        cases ws with
        | nil =>
          have hlast : (n : Int) + 1 = v.argc := by
            have hlen := congrArg List.length hbehind
            rw [List.length_drop, List.length_nil] at hlen
            have hargc : v.argc = v.words.length := rfl
            omega
          have hhead : ¬(letters o.opts).head? = some ':'.toUInt8 := letters_head o.alnum
          simp only [hlast, if_true, if_neg hhead]
          refine ⟨_, rfl, hquestion, ?_, ?_⟩
          · exact delivers_missing hlast.symm rfl rfl (message_filter _ _)
          · exact ⟨hlast.symm, Nat.succ_pos n, hlt, .element rfl hbehind⟩
        | cons a ws =>
          obtain ⟨hlt', hget, hbehind'⟩ := drop_succ hbehind
          have hne' : ¬(n : Int) + 1 = v.argc := by omega
          have hread : v.read ((n : Int) + 1).toNat = .ok (some a) := by
            rw [Vec.read, show ((n : Int) + 1).toNat = n + 1 by omega, hget]
          simp only [if_neg hne', hread]
          refine ⟨_, rfl, hne, ?_, ?_⟩
          · refine delivers_option hc ?_ ?_ _
            · dsimp only
              omega
            · exact rfl
          · exact ⟨by dsimp only; omega, Nat.succ_pos _, hlt', .element rfl hbehind'⟩
      · simp only [hcs, not_false_eq_true, if_true, if_false, hdrop]
        refine ⟨_, rfl, hne, ?_, ?_⟩
        · refine delivers_option hc rfl ?_ _
          exact rfl
        · exact ⟨rfl, Nat.succ_pos n, hlt, .element rfl hbehind⟩

/-- A call that has returned `r` has set the first of the values, and the next one sets the others
from where it stands. -/
inductive Reports (o : Options) (v : Vec) (r : Getopt × Int × List Out) : List Outcome → Prop
  | last {out : Outcome} : r.2.1 = EOF → Delivers o.silent r out → Reports o v r [out]
  | option {out : Outcome} {p : Position} : r.2.1 ≠ EOF → Delivers o.silent r out →
      r.1.Stands v p → Reports o v r (out :: o.parse p)

/-- The next option of the element. -/
theorem option_reports (st : Getopt) {v : Vec} {n off : Nat} {w : Word} {c : UInt8}
    {cs : List UInt8} {ws : List Word} (hoptarg : st.optarg = none) (hoptind : st.optind = n)
    (hcur : st.curopt = n) (hchar : st.charindex = off) (hpos : 0 < n)
    (hwords : v.words.drop n = w :: ws) (hrest : w.drop off = c :: cs) (hnul : 0 ∉ cs) :
    ∃ r, st.option v (letters o.opts) w off = .ok r ∧ Reports o v r (o.parse ⟨n, c :: cs, ws⟩) := by
  obtain ⟨r, hr, hne, hdelivers, hstands⟩ :=
    option_stands (o := o) hoptarg hoptind hcur hchar hpos hwords hrest hnul
  refine ⟨r, hr, ?_⟩
  rw [Options.parse]
  exact .option hne hdelivers hstands

/-- The first option of the next element, if there is one. -/
theorem nextElement_reports (st : Getopt) {v : Vec} {n : Nat} {ws : List Word}
    (hoptarg : st.optarg = none) (hoptind : st.optind = n) (hpos : 0 < n)
    (hwords : v.words.drop n = ws) (hnul : ∀ w ∈ ws, 0 ∉ w) :
    ∃ r, st.nextElement v (letters o.opts) = .ok r ∧ Reports o v r (o.parse ⟨n, [], ws⟩) := by
  have hargc : v.argc = v.words.length := rfl
  unfold Getopt.nextElement Getopt.advance
  cases ws with
  | nil =>
    have hend : st.optind ≥ v.argc := by
      have hlen := congrArg List.length hwords
      rw [List.length_drop, List.length_nil] at hlen
      omega
    rw [if_pos hend]
    refine ⟨_, rfl, ?_⟩
    rw [Options.parse]
    exact .last rfl (delivers_eof hoptind _)
  | cons w ws =>
    obtain ⟨hlt, hget, hbehind⟩ := drop_succ hwords
    have hw := hnul w List.mem_cons_self
    have hread : v.read st.optind.toNat = .ok (some w) := by
      rw [Vec.read, hoptind, Int.toNat_natCast, hget]
    rw [if_neg (by omega), hread]
    simp only [isDashDash_eq hw, isOperand_eq hw]
    rw [Options.parse]
    by_cases hdash : w = ['-'.toUInt8, '-'.toUInt8]
    · rw [if_pos hdash, beq_iff_eq.mpr hdash]
      refine ⟨_, rfl, .last rfl (delivers_eof ?_ _)⟩
      exact congrArg (· + 1) hoptind
    · rw [if_neg hdash, beq_eq_false_iff_ne.mpr hdash]
      cases hopts : hasOptions w with
      | false =>
        rw [if_neg Bool.false_ne_true]
        exact ⟨_, rfl, .last rfl (delivers_eof hoptind _)⟩
      | true =>
        obtain ⟨c, cs, rfl⟩ := hasOptions_cons hopts
        rw [if_pos rfl]
        have hcs : 0 ∉ cs := fun hmem =>
          hw (List.mem_cons_of_mem _ (List.mem_cons_of_mem _ hmem))
        have hcur : st.optind.toNat = n := by omega
        have hoption := option_reports (o := o)
          { st with curopt := st.optind.toNat, charindex := 1 } hoptarg hoptind hcur rfl
          hpos hwords rfl hcs
        exact hoption

/-- A scan that starts at the next element. -/
theorem scan_null_reports (st : Getopt) {v : Vec} {n : Nat} {ws : List Word}
    (hoptarg : st.optarg = none) (hoptind : st.optind = n) (hpos : 0 < n)
    (hwords : v.words.drop n = ws) (hnul : ∀ w ∈ ws, 0 ∉ w) :
    ∃ r, st.scan .null v (letters o.opts) = .ok r ∧ Reports o v r (o.parse ⟨n, [], ws⟩) :=
  nextElement_reports st hoptarg hoptind hpos hwords hnul

/-- A scan that goes on in an element. -/
theorem scan_inWord_reports (st : Getopt) {v : Vec} {n : Nat} {w : Word} {c : UInt8}
    {cs : List UInt8} {ws : List Word} (hoptarg : st.optarg = none) (hoptind : st.optind = n)
    (hcur : st.curopt = n) (hpos : 0 < n) (hwords : v.words.drop n = w :: ws)
    (hrest : w.drop st.charindex = c :: cs) (hnul : 0 ∉ w) :
    ∃ r, st.scan (.inWord w st.charindex) v (letters o.opts) = .ok r ∧
      Reports o v r (o.parse ⟨n, c :: cs, ws⟩) := by
  have hsub : ∀ x ∈ c :: cs, x ∈ w := by
    intro x hx
    rw [← hrest] at hx
    exact List.mem_of_mem_drop hx
  have hc : c ≠ 0 := by
    intro h
    apply hnul
    rw [← h]
    exact hsub c List.mem_cons_self
  have hcs : 0 ∉ cs := fun hmem => hnul (hsub 0 (List.mem_cons_of_mem _ hmem))
  have hatEnd : (NextChar.inWord w st.charindex).atEnd = .ok false := by
    simp only [NextChar.atEnd, (charAt_of_drop hrest).1, beq_eq_false_iff_ne.mpr hc]
  unfold Getopt.scan
  rw [hatEnd]
  exact option_reports st hoptarg hoptind hcur rfl hpos hwords hrest hcs

/-! ## Where the words come from -/

theorem vector_words (dollar0 name : Word) (args params : List Word) :
    (vector dollar0 name args params).1.words.drop 1 = operands args params ∧
      (vector dollar0 name args params).2.words.drop 1 = operands args params ∧
      1 ≤ (vector dollar0 name args params).2.argc := by
  unfold vector operands
  split
  · exact ⟨rfl, rfl, Nat.le_add_left 1 args.length⟩
  · exact ⟨rfl, rfl, Nat.le_add_left 1 params.length⟩

/-- One call of the scanner in a parse that goes on, with the pointer rebuilt in a vector that has
the same words behind the name. -/
theorem shGetopt_goes {st : Getopt} {v v' : Vec} {p : Position} (h : st.Stands v p)
    (hsame : v'.words.drop 1 = v.words.drop 1) (hnul : ∀ w ∈ v.words.drop 1, 0 ∉ w)
    (opterr : Bool) :
    ∃ nextchar r, st.restoreState v' = .ok nextchar ∧
      { st with opterr := opterr }.shGetopt nextchar v (letters o.opts) = .ok r ∧
      Reports o v r (o.parse p) := by
  obtain ⟨hoptind, hpos, hle, hplace⟩ := h
  have hdrop : ∀ u : Vec, u.words.drop p.index = (u.words.drop 1).drop (p.index - 1) := by
    intro u
    rw [List.drop_drop, Nat.add_sub_cancel' hpos]
  have hmem : ∀ w ∈ v.words.drop p.index, 0 ∉ w := by
    intro w hw
    rw [hdrop] at hw
    exact hnul w (List.mem_of_mem_drop hw)
  have hne : ¬st.optind = 0 := by omega
  cases hplace with
  | @element n ws hnext hws =>
    dsimp only at hoptind hpos hle hmem
    have hrestore : st.restoreState v' = .ok .null := by
      rw [Getopt.restoreState, hnext, if_neg Bool.false_ne_true]
    refine ⟨.null, ?_⟩
    by_cases hend : (v.argc : Int) ≤ st.optind
    · have hnil : ws = [] := by
        rw [← hws]
        apply List.drop_eq_nil_of_le
        change v.argc ≤ n
        omega
      refine ⟨_, hrestore, if_pos (Or.inl hend), ?_⟩
      rw [hnil, Options.parse]
      refine .last rfl (delivers_eof ?_ _)
      dsimp only
      omega
    · have hin : ¬((v.argc : Int) ≤ st.optind ∨ st.optind < 0) := by omega
      obtain ⟨r, hr, hreports⟩ := scan_null_reports (o := o)
        { st with opterr := opterr, optarg := none } rfl hoptind hpos hws (hws ▸ hmem)
      refine ⟨r, hrestore, ?_, hreports⟩
      rw [Getopt.shGetopt, if_neg hin, if_neg hne]
      exact hr
  | @inside n w c cs ws hnext hcur hws hrest =>
    dsimp only at hoptind hpos hle hmem hdrop
    obtain ⟨hlt, -, -⟩ := drop_succ hws
    have hws' : v'.words.drop n = w :: ws := by
      rw [hdrop, hsame, ← hdrop, hws]
    have hrestore : st.restoreState v' = .ok (.inWord w st.charindex) := by
      rw [Getopt.restoreState, hnext, if_pos rfl, Vec.read, hcur, (drop_succ hws').2.1]
    have hin : ¬((v.argc : Int) ≤ st.optind ∨ st.optind < 0) := by omega
    have hw : 0 ∉ w := by
      apply hmem
      rw [hws]
      exact List.mem_cons_self
    obtain ⟨r, hr, hreports⟩ := scan_inWord_reports (o := o)
      { st with opterr := opterr, optarg := none } rfl hoptind hcur hpos hws hrest hw
    refine ⟨_, r, hrestore, ?_, hreports⟩
    rw [Getopt.shGetopt, if_neg hin, if_neg hne]
    exact hr

/-- The first call of the scanner. -/
theorem shGetopt_start {st : Getopt} {v v' : Vec} (hzero : st.optind = 0) (hfits : st.Fits v')
    (hargc : v.argc = v'.argc) (hpos : 1 ≤ v.argc) (hnul : ∀ w ∈ v.words.drop 1, 0 ∉ w)
    (opterr : Bool) :
    ∃ nextchar r, st.restoreState v' = .ok nextchar ∧
      { st with opterr := opterr }.shGetopt nextchar v (letters o.opts) = .ok r ∧
      Reports o v r (o.parse ⟨1, [], v.words.drop 1⟩) := by
  obtain ⟨nextchar, hrestore, -⟩ := (fits_iff hargc).mp hfits
  have hin : ¬((v.argc : Int) ≤ st.optind ∨ st.optind < 0) := by omega
  obtain ⟨r, hr, hreports⟩ := scan_null_reports (o := o)
    { st with opterr := opterr, optarg := none, optind := 1, nextchar := false }
    rfl rfl Nat.one_pos rfl hnul
  refine ⟨nextchar, r, hrestore, ?_, hreports⟩
  rw [Getopt.shGetopt, if_neg hin, if_pos hzero]
  exact hr

theorem text_eq (o : Options) : (o.text.head? == some ':'.toUInt8) = o.silent ∧
    (if o.silent then o.text.tail else o.text) = letters o.opts := by
  unfold Options.text
  cases o.silent with
  | true => exact ⟨rfl, rfl⟩
  | false => exact ⟨beq_eq_false_iff_ne.mpr (letters_head o.alnum), rfl⟩

/-- One call of `getopts`. -/
theorem dogetopts_sets {st : Getopt} {dollar0 name : Word} {args params : List Word}
    {nextchar : NextChar} {r : Getopt × Int × List Out} {out : Outcome}
    (hrestore : st.restoreState (vector dollar0 name args params).1 = .ok nextchar)
    (hr : { st with opterr := !o.silent && st.opterr }.shGetopt nextchar
      (vector dollar0 name args params).2 (letters o.opts) = .ok r)
    (hout : Delivers o.silent r out) :
    st.status (o.text :: name :: args) dollar0 params = .ok (if r.2.1 = EOF then 1 else 0) ∧
      ∃ outs, st.dogetopts (o.text :: name :: args) dollar0 params =
        .ok ({ r.1 with opterr := st.opterr }, outs) ∧ out.Sets name outs := by
  obtain ⟨hspecial, hletters⟩ := text_eq o
  obtain ⟨hoptind, hmessages, hresult⟩ := hout
  obtain ⟨arg, harg, hperm⟩ := hresult name
  constructor
  · simp only [Getopt.status, hspecial, hletters, hrestore, hr]
  · refine ⟨r.2.2 ++ .bind optindName (some (numval r.1.optind)) ::
      r.1.result o.silent name r.2.1, ?_, arg, harg, ?_⟩
    · simp only [Getopt.dogetopts, hspecial, hletters, hrestore, hr]
      rfl
    · have hfilter := hperm.filter Out.assigns
      rw [List.filter_cons_of_pos rfl, List.filter_cons_of_pos harg.assigns,
        List.filter_nil] at hfilter
      rw [List.filter_append, hmessages, List.nil_append, List.filter_cons_of_pos rfl, hoptind]
      exact hfilter.cons _

/-! ## The calls up to the first that fails -/

theorem Reports.stands {v : Vec} {r : Getopt × Int × List Out} {outcomes : List Outcome}
    (h : Reports o v r outcomes) :
    ∃ out rest, outcomes = out :: rest ∧ Delivers o.silent r out ∧
      (r.2.1 = EOF ∧ rest = [] ∨ r.2.1 ≠ EOF ∧ ∃ p, rest = o.parse p ∧ r.1.Stands v p) := by
  cases h with
  | last heof hout => exact ⟨_, _, rfl, hout, Or.inl ⟨heof, rfl⟩⟩
  | option hne hout hstands => exact ⟨_, _, rfl, hout, Or.inr ⟨hne, _, rfl, hstands⟩⟩

/-- The calls behind one that has reported. -/
theorem calls_of_reports {st : Getopt} {dollar0 name : Word} {args params : List Word}
    {nextchar : NextChar} {r : Getopt × Int × List Out} {outcomes : List Outcome} {fuel : Nat}
    (hrestore : st.restoreState (vector dollar0 name args params).1 = .ok nextchar)
    (hr : { st with opterr := !o.silent && st.opterr }.shGetopt nextchar
      (vector dollar0 name args params).2 (letters o.opts) = .ok r)
    (hreports : Reports o (vector dollar0 name args params).2 r outcomes)
    (hfuel : outcomes.length ≤ fuel + 1)
    (ih : ∀ (st : Getopt) (p : Position), st.Stands (vector dollar0 name args params).2 p →
      (o.parse p).length ≤ fuel → ∃ outss,
        Getopt.calls (o.text :: name :: args) dollar0 params fuel st = .ok (some outss) ∧
          List.Forall₂ (Outcome.Sets name) (o.parse p) outss) :
    ∃ outss, Getopt.calls (o.text :: name :: args) dollar0 params (fuel + 1) st =
        .ok (some outss) ∧ List.Forall₂ (Outcome.Sets name) outcomes outss := by
  obtain ⟨out, rest, rfl, hout, hcases⟩ := hreports.stands
  obtain ⟨hstatus, outs, hcall, hsets⟩ := dogetopts_sets hrestore hr hout
  rw [Getopt.calls, hstatus]
  simp only [hcall]
  rcases hcases with ⟨heof, rfl⟩ | ⟨hne, p, rfl, hstands⟩
  · rw [if_pos heof, if_pos Nat.one_ne_zero]
    exact ⟨[outs], rfl, .cons hsets .nil⟩
  · have hstands' := hstands.setOpterr st.opterr
    obtain ⟨outss, hcalls, hall⟩ := ih _ p hstands' (Nat.le_of_succ_le_succ hfuel)
    rw [if_neg hne, if_neg (not_not.mpr rfl), hcalls]
    exact ⟨outs :: outss, rfl, .cons hsets hall⟩

theorem calls_goes (name dollar0 : Word) (args params : List Word)
    (hnul : ∀ w ∈ operands args params, 0 ∉ w) (fuel : Nat) (st : Getopt) (p : Position)
    (hstands : st.Stands (vector dollar0 name args params).2 p)
    (hfuel : (o.parse p).length ≤ fuel) :
    ∃ outss, Getopt.calls (o.text :: name :: args) dollar0 params fuel st = .ok (some outss) ∧
      List.Forall₂ (Outcome.Sets name) (o.parse p) outss := by
  obtain ⟨hwords₁, hwords₂, -⟩ := vector_words dollar0 name args params
  induction fuel generalizing st p with
  | zero => exact absurd (List.length_pos_iff.mpr (parse_ne_nil o p)) (Nat.not_lt.mpr hfuel)
  | succ fuel ih =>
    obtain ⟨nextchar, r, hrestore, hr, hreports⟩ := shGetopt_goes (o := o) hstands
      (hwords₁.trans hwords₂.symm) (hwords₂ ▸ hnul) (!o.silent && st.opterr)
    exact calls_of_reports hrestore hr hreports hfuel ih

/-- Successive calls of `getopts` set the values of the reference, from new variables and whatever
the words come from. -/
theorem getopts_parses (o : Options) {st : Getopt} {dollar0 name : Word} {args params : List Word}
    (hzero : st.optind = 0) (hfits : st.Fits (vector dollar0 name args params).1)
    (hnul : ∀ w ∈ operands args params, 0 ∉ w) {fuel : Nat}
    (hfuel : (o.parse ⟨1, [], operands args params⟩).length ≤ fuel) :
    ∃ outss, Getopt.calls (o.text :: name :: args) dollar0 params fuel st = .ok (some outss) ∧
      List.Forall₂ (Outcome.Sets name)
        (o.parse ⟨1, [], operands args params⟩) outss := by
  obtain ⟨-, hwords, hargc⟩ := vector_words dollar0 name args params
  have hparse := parse_ne_nil o ⟨1, [], operands args params⟩
  obtain ⟨fuel, rfl⟩ := Nat.exists_eq_add_one_of_ne_zero
    (Nat.ne_of_gt (Nat.lt_of_lt_of_le (List.length_pos_iff.mpr hparse) hfuel))
  obtain ⟨nextchar, r, hrestore, hr, hreports⟩ := shGetopt_start (o := o) hzero hfits
    (vector_argc dollar0 name args params) hargc (hwords ▸ hnul) (!o.silent && st.opterr)
  rw [hwords] at hreports
  exact calls_of_reports hrestore hr hreports hfuel (calls_goes name dollar0 args params hnul fuel)

/-- The options `a` and `b:`, with errors reported in the variables. -/
def optionsAB : Options where
  silent := true
  opts := [('a'.toUInt8, false), ('b'.toUInt8, true)]
  alnum := by
    intro opt hopt
    rcases List.mem_cons.mp hopt with rfl | hopt
    · exact Or.inr (Or.inr (by decide))
    · rw [List.mem_singleton.mp hopt]
      exact Or.inr (Or.inr (by decide))

theorem optionsAB_parse :
    optionsAB.parse ⟨1, [], ["-ab", "x", "-c"].map fun s => s.toList.map Char.toUInt8⟩ =
      [⟨'a'.toUInt8, .any, 1⟩, ⟨'b'.toUInt8, .value ['x'.toUInt8], 3⟩,
        ⟨'?'.toUInt8, .value ['c'.toUInt8], 4⟩, ⟨'?'.toUInt8, .unset, 4⟩] := by
  have hba : ('b'.toUInt8 == 'a'.toUInt8) = false := rfl
  have hca : ('c'.toUInt8 == 'a'.toUInt8) = false := rfl
  have hcb : ('c'.toUInt8 == 'b'.toUInt8) = false := rfl
  simp +decide [Options.parse, Options.option, optionsAB, List.lookup_cons, List.lookup_nil, Options.reported, hba, hca,
    hcb]

/-- `getopts :ab: o -ab x -c`. -/
theorem getopts_parses_three : ∃ outss,
    Getopt.calls (optionsAB.text :: ['o'.toUInt8] ::
        ["-ab", "x", "-c"].map fun s => s.toList.map Char.toUInt8) [] [] 4 Shell.start.st =
      .ok (some outss) ∧
    List.Forall₂ (Outcome.Sets ['o'.toUInt8])
      [⟨'a'.toUInt8, .any, 1⟩, ⟨'b'.toUInt8, .value ['x'.toUInt8], 3⟩,
        ⟨'?'.toUInt8, .value ['c'.toUInt8], 4⟩, ⟨'?'.toUInt8, .unset, 4⟩] outss := by
  rw [← optionsAB_parse]
  refine getopts_parses optionsAB rfl ?_ (by decide) ?_
  · intro hnext
    cases hnext
  · rw [operands, if_pos (by decide), optionsAB_parse]
    exact Nat.le_refl 4

end Basht.Builtins
