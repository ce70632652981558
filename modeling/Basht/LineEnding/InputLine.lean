import Basht.LineEnding.Encoding

/-!
# Reading one line

The inner loop of `shell_getc`: `yy_getc` is called until it returns a newline or EOF,
and NUL characters are ignored. `takeLine` is the same loop on a list of bytes, by
recursion on the list; `shellLine_eq` connects the two, and the lemmas after it say
where in the bytes a line of an encoded text is found to end.
-/

namespace Basht.LineEnding

/-- What the inner loop of `shell_getc` leaves: the characters stored, whether a newline
(and not EOF) ended them, and the flags. -/
structure LineRead where
  text : List UInt8
  newline : Bool
  le : LeState
deriving DecidableEq, Repr

/-- `c` stored before the rest of the line, unless it is NUL. -/
def LineRead.store (c : UInt8) (r : LineRead) : LineRead :=
  { r with text := if c = 0 then r.text else c :: r.text }

/-- A call of `yy_getc` that does not return EOF takes at least one byte. -/
theorem length_rest_yyGetc {S : Type} (src : ByteSource S) {le : LeState} {s : S}
    (h : (yyGetc src.get le s).1 ≠ none) :
    (src.rest (yyGetc src.get le s).2.2).length < (src.rest s).length := by
  induction le, s using yyGetc.induct src.get with
  | case1 le s le' r hr =>
    rw [yyGetc_returned (by rw [hr]; rfl)] at h ⊢
    simp only [hr, Option.get_some] at h
    rw [src.rest_get]
    cases hb : src.rest s with
    | nil =>
      rw [src.get_fst, hb] at hr
      cases hr
      exact absurd rfl h
    | cons b bs => simp
  | case2 le s le' hr ih =>
    rw [yyGetc_swallowed (by rw [hr])] at h ⊢
    simp only [hr] at h ⊢
    have hrest := ih h
    rw [src.rest_get, List.length_tail] at hrest
    omega

/-- The inner loop of `shell_getc`. -/
def shellLine {S : Type} (src : ByteSource S) (le : LeState) (s : S) : LineRead × S :=
  match _h : yyGetc src.get le s with
  | (none, le', s') => (⟨[], false, le'⟩, s')
  | (some c, le', s') =>
    if c = LF then (⟨[], true, le'⟩, s')
    else
      let r := shellLine src le' s'
      (r.1.store c, r.2)
termination_by (src.rest s).length
decreasing_by
  have hlt := @length_rest_yyGetc _ src le s (by simp [_h])
  rw [_h] at hlt
  exact hlt

section ShellLine

variable {S : Type} (src : ByteSource S) {le le' : LeState} {s s' : S}

theorem shellLine_eof (h : yyGetc src.get le s = (none, le', s')) :
    shellLine src le s = (⟨[], false, le'⟩, s') := by
  rw [shellLine]
  split <;> simp_all

theorem shellLine_newline (h : yyGetc src.get le s = (some LF, le', s')) :
    shellLine src le s = (⟨[], true, le'⟩, s') := by
  rw [shellLine]
  split <;> simp_all

theorem shellLine_store {c : UInt8} (h : yyGetc src.get le s = (some c, le', s'))
    (hc : c ≠ LF) :
    shellLine src le s = ((shellLine src le' s').1.store c, (shellLine src le' s').2) := by
  rw [shellLine]
  split <;> simp_all

end ShellLine

/-- The inner loop of `shell_getc` on a list of bytes: the line, and the bytes left. -/
def takeLine : LeState → List UInt8 → LineRead × List UInt8
  | _, [] => (⟨[], false, LeState.init⟩, [])
  | le, c :: bs =>
    match yyTurn le (some c) with
    | (le', some (some b)) =>
      if b = LF then (⟨[], true, le'⟩, bs)
      else ((takeLine le' bs).1.store b, (takeLine le' bs).2)
    | (le', _) => takeLine le' bs

theorem takeLine_cons (le : LeState) (c : UInt8) (bs : List UInt8) :
    takeLine le (c :: bs) =
      match (recognizer.step le c).2 with
      | [] => takeLine (recognizer.step le c).1 bs
      | b :: _ =>
        if b = LF then (⟨[], true, (recognizer.step le c).1⟩, bs)
        else ((takeLine (recognizer.step le c).1 bs).1.store b,
          (takeLine (recognizer.step le c).1 bs).2) := by
  rw [takeLine]
  split
  · rename_i h
    obtain ⟨d, hd, hs⟩ := step_of_returned h
    cases hd
    rw [hs]
  · rename_i le' r hr h
    have hs : recognizer.step le c = (le', []) := by
      simp only [recognizer]
      split
      · rename_i h'
        rw [h] at h'
        cases h'
        exact absurd rfl (hr _)
      · rename_i h'
        rw [h] at h'
        cases h'
        rfl
    rw [hs]

/-- One call of `yy_getc` is the first step of `takeLine` that returns. -/
theorem takeLine_yyGetc {S : Type} (src : ByteSource S) (le : LeState) (s : S) :
    takeLine le (src.rest s) =
      match yyGetc src.get le s with
      | (none, le', s') => (⟨[], false, le'⟩, src.rest s')
      | (some c, le', s') =>
        if c = LF then (⟨[], true, le'⟩, src.rest s')
        else ((takeLine le' (src.rest s')).1.store c, (takeLine le' (src.rest s')).2) := by
  induction le, s using yyGetc.induct src.get with
  | case1 le s le' r h =>
    rw [yyGetc_returned (by rw [h]; rfl)]
    simp only [h, Option.get_some]
    cases hb : src.rest s with
    | nil =>
      have hr : src.rest (src.get s).2 = [] := by rw [src.rest_get, hb]; rfl
      rw [src.get_fst, hb] at h
      cases h
      simp only [hr, List.head?_nil]
      rfl
    | cons b bs =>
      have hr : src.rest (src.get s).2 = bs := by rw [src.rest_get, hb]; rfl
      rw [src.get_fst, hb] at h
      obtain ⟨d, rfl, hd⟩ := step_of_returned h
      simp only [takeLine_cons, hd, hr]
  | case2 le s le' h ih =>
    rw [yyGetc_swallowed (by rw [h])]
    simp only [h]
    rw [← ih, src.rest_get]
    cases hb : src.rest s with
    | nil =>
      rw [src.get_fst, hb] at h
      cases h
    | cons b bs =>
      rw [src.get_fst, hb] at h
      rw [takeLine_cons, step_of_swallowed h]
      rfl

/-- Over any source the loop takes the line that `takeLine` finds in its bytes. -/
theorem shellLine_eq {S : Type} (src : ByteSource S) (le : LeState) (s : S) :
    ((shellLine src le s).1, src.rest (shellLine src le s).2) = takeLine le (src.rest s) := by
  induction le, s using shellLine.induct src with
  | case1 le s le' s' h =>
    rw [takeLine_yyGetc, shellLine_eof src h, h]
  | case2 le s le' s' h =>
    rw [takeLine_yyGetc, shellLine_newline src h, h]
    rfl
  | case3 le s c le' s' h hc ih =>
    rw [takeLine_yyGetc, shellLine_store src h hc, h]
    simp only [hc, if_false, ← ih]

/-- The bytes of a line: a swallowed half of the ending before it, its text, and the byte
at which it ended, if it did not run into EOF. -/
structure LineSplit (le : LeState) (bs half text ending : List UInt8) : Prop where
  bytes : bs = half ++ text ++ ending ++ (takeLine le bs).2
  swallowed : recognize le half = []
  plain : ∀ c ∈ text, c ≠ CR ∧ c ≠ LF
  text_eq : (takeLine le bs).1.text = text
  ended : ((takeLine le bs).1.newline = true ∧ ∃ b, ending = [b] ∧ (b = CR ∨ b = LF) ∧
      recognize (recognizer.final le (half ++ text)) [b] = [LF] ∧
      (takeLine le bs).1.le = recognizer.final le (half ++ text ++ [b])) ∨
    ((takeLine le bs).1.newline = false ∧ ending = [] ∧ (takeLine le bs).2 = [])

theorem step_ending {le : LeState} {c : UInt8} (h : c = CR ∨ c = LF)
    (hne : (recognizer.step le c).2 ≠ []) : (recognizer.step le c).2 = [LF] := by
  rcases h with rfl | rfl
  · rw [step_cr] at hne ⊢
    split at hne
    · exact absurd rfl hne
    · rename_i hlf
      rw [if_neg hlf]
  · rw [step_lf] at hne ⊢
    split at hne
    · exact absurd rfl hne
    · rename_i hcr
      rw [if_neg hcr]

/-- The lines of text without NUL are made of its bytes. -/
theorem takeLine_split (le : LeState) {bs : List UInt8} (h0 : 0 ∉ bs) :
    ∃ half text ending, LineSplit le bs half text ending := by
  induction bs generalizing le with
  | nil => exact ⟨[], [], [], rfl, rfl, by simp, rfl, Or.inr ⟨rfl, rfl, rfl⟩⟩
  | cons c bs ih =>
    obtain ⟨half, text, ending, hs⟩ := ih (recognizer.step le c).1
      (fun hm => h0 (List.mem_cons_of_mem _ hm))
    have hline := takeLine_cons le c bs
    by_cases hend : c = CR ∨ c = LF
    · by_cases hsw : (recognizer.step le c).2 = []
      · rw [hsw] at hline
        simp only at hline
        refine ⟨c :: half, text, ending, ?_, ?_, hs.plain, ?_, ?_⟩
        · rw [hline]
          exact congrArg (c :: ·) hs.bytes
        · rw [recognize_cons, hsw, hs.swallowed]
          rfl
        · rw [hline, hs.text_eq]
        · rw [hline]
          exact hs.ended
      · have hlf := step_ending hend hsw
        rw [hlf] at hline
        simp only [if_pos] at hline
        refine ⟨[], [], [c], ?_, rfl, by simp, ?_, Or.inl ⟨?_, c, rfl, hend, ?_, ?_⟩⟩
        · rw [hline]
          rfl
        · rw [hline]
        · rw [hline]
        · rw [recognize_cons]
          simpa using hlf
        · rw [hline]
          rfl
    · obtain ⟨h1, h2⟩ := not_or.mp hend
      have hc0 : c ≠ 0 := fun h => h0 (h ▸ List.mem_cons_self)
      have hstep : recognizer.step le c = (LeState.init, [c]) := step_other le h1 h2
      rw [hstep] at hline hs
      simp only [h2, if_false] at hline
      have hhalf : half = [] := eq_nil_of_recognize_init hs.swallowed
      subst hhalf
      refine ⟨[], c :: text, ending, ?_, rfl, ?_, ?_, ?_⟩
      · rw [hline]
        exact congrArg (c :: ·) hs.bytes
      · intro d hd
        rcases List.mem_cons.mp hd with rfl | hd
        · exact ⟨h1, h2⟩
        · exact hs.plain d hd
      · rw [hline]
        simp only [LineRead.store, hc0, if_false, hs.text_eq]
      · rw [hline]
        simpa [Transducer.final_cons, hstep, LineRead.store] using hs.ended

theorem length_takeLine (le : LeState) (bs : List UInt8) :
    (takeLine le bs).1.text.length + (takeLine le bs).1.newline.toNat +
      (takeLine le bs).2.length ≤ bs.length := by
  induction bs generalizing le with
  | nil => exact Nat.le_refl _
  | cons c bs ih =>
    have hrest := ih (recognizer.step le c).1
    rw [takeLine_cons]
    split
    · simp only [List.length_cons]
      omega
    · split
      · simp [Nat.add_comm]
      · simp only [LineRead.store, List.length_cons]
        split
        · omega
        · simp only [List.length_cons]
          omega

/-! ## What the getter keeps -/

theorem yyGetc_keeps {S : Type} {get : S → Option UInt8 × S} {P : S → Prop}
    (hget : ∀ s, P s → P (get s).2) (le : LeState) (s : S) (h : P s) :
    P (yyGetc get le s).2.2 := by
  induction le, s using yyGetc.induct get with
  | case1 le s le' r hr =>
    rw [yyGetc_returned (by rw [hr]; rfl)]
    exact hget s h
  | case2 le s le' hr ih =>
    rw [yyGetc_swallowed (by rw [hr]), hr]
    exact ih (hget s h)

theorem shellLine_keeps {S : Type} (src : ByteSource S) {P : S → Prop}
    (hget : ∀ s, P s → P (src.get s).2) (le : LeState) (s : S) (h : P s) :
    P (shellLine src le s).2 := by
  have hkeep := fun le s => yyGetc_keeps hget le s
  induction le, s using shellLine.induct src with
  | case1 le s le' s' hr =>
    rw [shellLine_eof src hr]
    simpa only [hr] using hkeep le s h
  | case2 le s le' s' hr =>
    rw [shellLine_newline src hr]
    simpa only [hr] using hkeep le s h
  | case3 le s c le' s' hr hc ih =>
    rw [shellLine_store src hr hc]
    exact ih (by simpa only [hr] using hkeep le s h)

/-! ## Lines of an encoded text -/

/-- The characters of a line that the parser stores. -/
def Line.stored (l : Line) : List UInt8 := l.text.filter (· ≠ 0)

/-- The line ends at the first ending byte that is not swallowed. -/
theorem takeLine_plain (l : Line) (le : LeState) (b : UInt8) (more : List UInt8)
    (hb : (recognizer.step (recognizer.final le l.text) b).2 = [LF]) :
    takeLine le (l.text ++ b :: more) =
      (⟨l.stored, true, (recognizer.step (recognizer.final le l.text) b).1⟩, more) := by
  obtain ⟨text, hl⟩ := l
  simp only [Line.stored]
  simp only at hb
  induction text generalizing le with
  | nil =>
    rw [List.nil_append, takeLine_cons]
    simp only [Transducer.final_nil] at hb
    simp only [hb]
    rfl
  | cons c cs ih =>
    obtain ⟨h1, h2⟩ := hl c List.mem_cons_self
    have hs : recognizer.step le c = (LeState.init, [c]) := step_other le h1 h2
    rw [Transducer.final_cons, hs] at hb
    have htail := ih LeState.init (fun d hd => hl d (List.mem_cons_of_mem _ hd)) hb
    rw [List.cons_append, takeLine_cons, hs, Transducer.final_cons, hs]
    simp only [h2, if_false, htail, LineRead.store, List.filter_cons]
    by_cases hc : c = 0 <;> simp [hc]

/-- The flags after a line has been read and its newline returned: after the first half
of a two-byte ending they are set for the second one. -/
def Style.AfterLine (style : Style) (le : LeState) : Prop :=
  match style with
  | .lf => le.cr = false
  | .cr => le.lf = false
  | .crlf => le = ⟨true, false⟩
  | .lfcr => le = ⟨false, true⟩

/-- The part of the ending that is still unread when its newline has been returned. -/
def Style.pendingHalf : Style → List UInt8
  | .lf | .cr => []
  | .crlf => [LF]
  | .lfcr => [CR]

/-- A line is read up to the first byte of its ending. -/
theorem takeLine_encode (style : Style) (l : Line) (ls : List Line) {le : LeState}
    (h : style.BetweenLines le) :
    ∃ le', style.AfterLine le' ∧
      takeLine le (encode style (l :: ls)) =
        (⟨l.stored, true, le'⟩, style.pendingHalf ++ encode style ls) := by
  have hfin := (recognizer_line style l h).1
  rw [encode_cons, List.append_assoc]
  cases style with
  | lf =>
    refine ⟨_, ?_, takeLine_plain l le LF (encode .lf ls) ?_⟩
    all_goals
      rw [step_lf, if_neg (by rw [show (recognizer.final le l.text).cr = false from hfin]; decide)]
    exact hfin
  | cr =>
    refine ⟨_, ?_, takeLine_plain l le CR (encode .cr ls) ?_⟩
    all_goals
      rw [step_cr, if_neg (by rw [show (recognizer.final le l.text).lf = false from hfin]; decide)]
    exact hfin
  | crlf =>
    refine ⟨_, ?_, takeLine_plain l le CR (LF :: encode .crlf ls) ?_⟩
    all_goals rw [show recognizer.final le l.text = LeState.init from hfin]; rfl
  | lfcr =>
    refine ⟨_, ?_, takeLine_plain l le LF (CR :: encode .lfcr ls) ?_⟩
    all_goals rw [show recognizer.final le l.text = LeState.init from hfin]; rfl

/-- After a line, the next one is read as from the start of a line: a pending half is
swallowed first. -/
theorem takeLine_pendingHalf (style : Style) {le : LeState} (h : style.AfterLine le)
    (bs : List UInt8) :
    ∃ le', style.BetweenLines le' ∧ takeLine le (style.pendingHalf ++ bs) = takeLine le' bs := by
  cases style with
  | lf => exact ⟨le, h, rfl⟩
  | cr => exact ⟨le, h, rfl⟩
  | crlf =>
    cases h
    exact ⟨LeState.init, rfl, takeLine_cons _ _ _⟩
  | lfcr =>
    cases h
    exact ⟨LeState.init, rfl, takeLine_cons _ _ _⟩

end Basht.LineEnding
