import Basht.Library.Transducer

/-!
# The universal line-ending recognizer

`yy_getc` of `parse.y`: every character the parser reads comes from the getter installed
in `bash_input` and passes through two flags, `yy_le_cr` and `yy_le_lf`, which make any
of CR LF, LF CR, CR and LF one newline.

The loop is modelled over an arbitrary getter (`yyGetc`). Over a getter that delivers a
list of bytes and then EOF (`ByteSource`) its successive results are the output of a
transducer on those bytes (`yyReads_eq`), which is what the rest of the development
reasons about.
-/

namespace Basht.LineEnding

/-- `'\n'`. -/
abbrev LF : UInt8 := 10

/-- `'\r'`. -/
abbrev CR : UInt8 := 13

/-- The flags `yy_le_cr` and `yy_le_lf`. -/
structure LeState where
  cr : Bool
  lf : Bool
deriving DecidableEq, Repr

/-- The flags as `init_yy_io` leaves them. -/
def LeState.init : LeState := ⟨false, false⟩

/-- One turn of the loop of `yy_getc` on the character `c` just got (`none` is EOF): the
new flags, and the value returned; `none` there is `continue`. -/
def yyTurn (le : LeState) (c : Option UInt8) : LeState × Option (Option UInt8) :=
  if c = some LF then
    if le.cr then (⟨false, false⟩, none)
    else ({ le with lf := true }, some (some LF))
  else if c = some CR then
    if le.lf then (⟨false, false⟩, none)
    else ({ le with cr := true }, some (some LF))
  else (⟨false, false⟩, some c)

/-- How many turns of the loop may still swallow a character. -/
def LeState.pending (le : LeState) : Nat := if le.cr || le.lf then 1 else 0

theorem pending_lt_of_swallowed {le le' : LeState} {c : Option UInt8}
    (h : yyTurn le c = (le', none)) : le'.pending < le.pending := by
  unfold yyTurn at h
  split_ifs at h <;> cases h <;> simp_all [LeState.pending]

/-- `yy_getc` over the getter `get`. A swallowed character clears both flags, so the
loop ends at the latest with the second character. -/
def yyGetc {S : Type} (get : S → Option UInt8 × S) (le : LeState) (s : S) :
    Option UInt8 × LeState × S :=
  match _h : yyTurn le (get s).1 with
  | (le', some c) => (c, le', (get s).2)
  | (le', none) => yyGetc get le' (get s).2
termination_by le.pending
decreasing_by exact pending_lt_of_swallowed _h

theorem yyGetc_returned {S : Type} {get : S → Option UInt8 × S} {le : LeState} {s : S}
    (h : (yyTurn le (get s).1).2.isSome) :
    yyGetc get le s = ((yyTurn le (get s).1).2.get h, (yyTurn le (get s).1).1, (get s).2) := by
  rw [yyGetc]
  split
  · rename_i heq
    simp [heq]
  · rename_i heq
    simp [heq] at h

theorem yyGetc_swallowed {S : Type} {get : S → Option UInt8 × S} {le : LeState} {s : S}
    (h : (yyTurn le (get s).1).2 = none) :
    yyGetc get le s = yyGetc get (yyTurn le (get s).1).1 (get s).2 := by
  rw [yyGetc]
  split
  · rename_i heq
    simp [heq] at h
  · rename_i heq
    simp [heq]

/-- The results of `n` successive calls of `yy_getc`. -/
def yyReads {S : Type} (get : S → Option UInt8 × S) : Nat → LeState → S → List (Option UInt8)
  | 0, _, _ => []
  | n + 1, le, s =>
    let r := yyGetc get le s
    r.1 :: yyReads get n r.2.1 r.2.2

/-! ## Sources of bytes -/

/-- A getter that delivers the bytes `rest s` one by one and then EOF for ever: a string
(`yy_string_get`), a stdio stream or a buffered descriptor. -/
structure ByteSource (S : Type) where
  get : S → Option UInt8 × S
  rest : S → List UInt8
  get_fst : ∀ s, (get s).1 = (rest s).head?
  rest_get : ∀ s, rest (get s).2 = (rest s).tail

/-- `yy_string_get`: the state is the part of the string that `location.string` points
to. -/
def yyStringGet : List UInt8 → Option UInt8 × List UInt8
  | [] => (none, [])
  | c :: s => (some c, s)

/-- `yy_string_get` as a source of bytes. -/
def stringSource : ByteSource (List UInt8) where
  get := yyStringGet
  rest := id
  get_fst s := by cases s <;> rfl
  rest_get s := by cases s <;> rfl

/-! ## The recognizer as a transducer -/

/-- What `yy_getc` makes of one byte: nothing for the second half of a pair. -/
def recognizer : Transducer LeState UInt8 UInt8 where
  step le c := match yyTurn le (some c) with
    | (le', some (some b)) => (le', [b])
    | (le', _) => (le', [])

/-- The characters `yy_getc` returns for the bytes `bs`, from the flags `le`. -/
def recognize (le : LeState) (bs : List UInt8) : List UInt8 := recognizer.output le bs

theorem step_lf (le : LeState) :
    recognizer.step le LF =
      if le.cr then (⟨false, false⟩, []) else ({ le with lf := true }, [LF]) := by
  cases h : le.cr <;> simp [recognizer, yyTurn, h]

theorem step_cr (le : LeState) :
    recognizer.step le CR =
      if le.lf then (⟨false, false⟩, []) else ({ le with cr := true }, [LF]) := by
  have hne : CR ≠ LF := by decide
  cases h : le.lf <;> simp [recognizer, yyTurn, h, hne]

theorem step_other (le : LeState) {c : UInt8} (h1 : c ≠ CR) (h2 : c ≠ LF) :
    recognizer.step le c = (LeState.init, [c]) := by
  simp [recognizer, yyTurn, h1, h2, LeState.init]

@[simp] theorem recognize_nil (le : LeState) : recognize le [] = [] := rfl

theorem recognize_cons (le : LeState) (c : UInt8) (bs : List UInt8) :
    recognize le (c :: bs) = (recognizer.step le c).2 ++ recognize (recognizer.step le c).1 bs :=
  rfl

theorem recognize_append (le : LeState) (bs cs : List UInt8) :
    recognize le (bs ++ cs) = recognize le bs ++ recognize (recognizer.final le bs) cs :=
  recognizer.output_append le bs cs

theorem length_step_le (le : LeState) (c : UInt8) : (recognizer.step le c).2.length ≤ 1 := by
  simp only [recognizer]
  split <;> simp

theorem length_recognize_le (le : LeState) (bs : List UInt8) :
    (recognize le bs).length ≤ bs.length := by
  induction bs generalizing le with
  | nil => exact Nat.le_refl _
  | cons c bs ih =>
    have hstep := length_step_le le c
    have hrest := ih (recognizer.step le c).1
    rw [recognize_cons, List.length_append, List.length_cons]
    omega

theorem step_of_swallowed {le le' : LeState} {c : UInt8} (h : yyTurn le (some c) = (le', none)) :
    recognizer.step le c = (le', []) := by
  simp [recognizer, h]

theorem step_of_returned {le le' : LeState} {c : UInt8} {r : Option UInt8}
    (h : yyTurn le (some c) = (le', some r)) :
    ∃ b, r = some b ∧ recognizer.step le c = (le', [b]) := by
  have hr : ∃ b, r = some b := by
    unfold yyTurn at h
    split_ifs at h <;> cases h <;> exact ⟨_, rfl⟩
  obtain ⟨b, rfl⟩ := hr
  exact ⟨b, rfl, by simp [recognizer, h]⟩

/-- One call of `yy_getc` returns the first character recognized in the bytes still to
come, and leaves the others. -/
theorem yyGetc_spec {S : Type} (src : ByteSource S) (le : LeState) (s : S) :
    (yyGetc src.get le s).1 = (recognize le (src.rest s)).head? ∧
      recognize (yyGetc src.get le s).2.1 (src.rest (yyGetc src.get le s).2.2) =
        (recognize le (src.rest s)).tail := by
  induction le, s using yyGetc.induct src.get with
  | case1 le s le' r h =>
    rw [yyGetc_returned (by rw [h]; rfl)]
    simp only [h, Option.get_some, src.rest_get]
    cases hb : src.rest s with
    | nil =>
      rw [src.get_fst, hb] at h
      cases h
      exact ⟨rfl, rfl⟩
    | cons b bs =>
      rw [src.get_fst, hb] at h
      obtain ⟨d, rfl, hd⟩ := step_of_returned h
      rw [recognize_cons, hd]
      exact ⟨rfl, rfl⟩
  | case2 le s le' h ih =>
    rw [yyGetc_swallowed (by rw [h])]
    simp only [h]
    cases hb : src.rest s with
    | nil =>
      rw [src.get_fst, hb] at h
      cases h
    | cons b bs =>
      rw [src.get_fst, hb] at h
      rw [src.rest_get, hb] at ih
      rw [recognize_cons, step_of_swallowed h]
      exact ih

/-- A call of `yy_getc` that does not return EOF takes the bytes it passes over and leaves
the flags they leave. -/
theorem yyGetc_takes {S : Type} (src : ByteSource S) (le : LeState) (s : S)
    (h : (yyGetc src.get le s).1 ≠ none) :
    ∃ taken, src.rest s = taken ++ src.rest (yyGetc src.get le s).2.2 ∧
      (yyGetc src.get le s).2.1 = recognizer.final le taken := by
  induction le, s using yyGetc.induct src.get with
  | case1 le s le' r hr =>
    rw [yyGetc_returned (by rw [hr]; rfl)] at h ⊢
    simp only [hr, Option.get_some, src.rest_get] at h ⊢
    cases hb : src.rest s with
    | nil =>
      rw [src.get_fst, hb] at hr
      cases hr
      exact absurd rfl h
    | cons b bs =>
      rw [src.get_fst, hb] at hr
      obtain ⟨d, -, hd⟩ := step_of_returned hr
      exact ⟨[b], rfl, by rw [Transducer.final_cons, hd]; rfl⟩
  | case2 le s le' hr ih =>
    rw [yyGetc_swallowed (by rw [hr])] at h ⊢
    simp only [hr] at h ⊢
    obtain ⟨taken, hrest, hle⟩ := ih h
    cases hb : src.rest s with
    | nil =>
      rw [src.get_fst, hb] at hr
      cases hr
    | cons b bs =>
      rw [src.get_fst, hb] at hr
      rw [src.rest_get, hb] at hrest
      refine ⟨b :: taken, congrArg (b :: ·) hrest, ?_⟩
      rw [hle, Transducer.final_cons, step_of_swallowed hr]

/-- Call number `k` of `yy_getc` returns character number `k` of the recognized input,
and EOF after its end. -/
theorem yyReads_eq {S : Type} (src : ByteSource S) (n : Nat) (le : LeState) (s : S) :
    yyReads src.get n le s = (List.range n).map fun k => (recognize le (src.rest s))[k]? := by
  induction n generalizing le s with
  | zero => rfl
  | succ n ih =>
    obtain ⟨h1, h2⟩ := yyGetc_spec src le s
    rw [yyReads, List.range_succ_eq_map, List.map_cons, List.map_map]
    simp only [h1, ih, h2, List.head?_eq_getElem?, List.getElem?_tail, Function.comp_def]

/-! ## What the recognizer returns -/

theorem cr_notMem_recognize (le : LeState) (bs : List UInt8) : CR ∉ recognize le bs := by
  have hout : ∀ y ∈ recognizer.output le bs, y ≠ CR := by
    refine recognizer.output_induction (I := fun _ => True) (fun _ _ _ => trivial) ?_ trivial bs
    intro le c _ y hy
    by_cases h1 : c = CR
    · subst h1
      rw [step_cr] at hy
      split at hy
      · simp at hy
      · simp only [List.mem_singleton] at hy
        subst hy
        decide
    · by_cases h2 : c = LF
      · subst h2
        rw [step_lf] at hy
        split at hy
        · simp at hy
        · simp only [List.mem_singleton] at hy
          subst hy
          decide
      · rw [step_other le h1 h2, List.mem_singleton] at hy
        exact hy ▸ h1
  exact fun h => hout CR h rfl

theorem step_init_ne_nil (c : UInt8) : (recognizer.step LeState.init c).2 ≠ [] := by
  by_cases h1 : c = CR
  · subst h1
    decide
  · by_cases h2 : c = LF
    · subst h2
      decide
    · rw [step_other _ h1 h2]
      exact List.cons_ne_nil _ _

theorem eq_nil_of_recognize_init {bs : List UInt8} (h : recognize LeState.init bs = []) :
    bs = [] := by
  cases bs with
  | nil => rfl
  | cons c bs => exact absurd (List.append_eq_nil_iff.mp h).1 (step_init_ne_nil c)

/-- Text without line endings passes unchanged and leaves the flags clear. -/
theorem recognizer_plain {bs : List UInt8} (h : ∀ c ∈ bs, c ≠ CR ∧ c ≠ LF) (hne : bs ≠ [])
    (le : LeState) : recognizer.final le bs = LeState.init ∧ recognize le bs = bs := by
  induction bs generalizing le with
  | nil => exact absurd rfl hne
  | cons c bs ih =>
    obtain ⟨h1, h2⟩ := h c List.mem_cons_self
    rw [recognize_cons, Transducer.final_cons, step_other le h1 h2]
    by_cases hb : bs = []
    · subst hb
      exact ⟨rfl, rfl⟩
    · obtain ⟨hf, ho⟩ := ih (fun d hd => h d (List.mem_cons_of_mem _ hd)) hb LeState.init
      exact ⟨hf, by rw [ho]; rfl⟩

/-- The recognizer does not change text without a CR, as long as no CR is pending. -/
theorem recognize_noCr {bs : List UInt8} (h : CR ∉ bs) (le : LeState) (hle : le.cr = false) :
    recognize le bs = bs ∧ (recognizer.final le bs).cr = false := by
  induction bs generalizing le with
  | nil => exact ⟨rfl, hle⟩
  | cons c bs ih =>
    have hbs : CR ∉ bs := fun hm => h (List.mem_cons_of_mem _ hm)
    rw [recognize_cons, Transducer.final_cons]
    by_cases hc : c = LF
    · subst hc
      obtain ⟨h1, h2⟩ := ih hbs { le with lf := true } hle
      rw [step_lf, if_neg (by simp [hle])]
      exact ⟨by rw [h1]; rfl, h2⟩
    · have hcr : c ≠ CR := fun he => h (he ▸ List.mem_cons_self)
      obtain ⟨h1, h2⟩ := ih hbs LeState.init rfl
      rw [step_other le hcr hc]
      exact ⟨by rw [h1]; rfl, h2⟩

end Basht.LineEnding
