import Mathlib.Data.List.Basic
import Mathlib.Data.List.TakeWhile
import Mathlib.Tactic.Ring
import Basht.Builtins.Printf

/-!
# What `printf` prints

A format is a list of pieces, and a pass over it runs them on its arguments. The format is used
again for the arguments behind. `printf_builtin` does this as long as no time format that is
malformed has length modifiers: the parenthesis is left in the place of the first one then.
-/

namespace Basht.Printf

variable {σ : Type} (E : Env σ)

/-! ## The pieces of a format -/

/-- Text that is printed, a conversion, a time format that is malformed, of which the '%' is
printed and the rest is text, and a conversion that stops `printf`. -/
inductive Piece where
  | text (bytes : List Nat) (error : Option Report)
  | conversion (sc : Scan) (convch : Nat) (timefmt : List Nat)
  | malformed (sc : Scan) (c : Nat)
  | stop

/-- The piece that is a conversion, and its length. -/
def conversionAt (sc : Scan) : Piece × Nat :=
  let len := 1 + sc.spec.length + sc.mods.length
  match sc.rest with
  | [] => (.stop, 1)
  | convch :: rest =>
    if convch = LPAREN then
      let time := timeText 1 rest
      if endsTime time.2 then (.conversion sc convch time.1, len + 1 + time.1.length + 2)
      else (.malformed sc (timeChar time.2), 1)
    else if convch ∈ convchs then (.conversion sc convch [], len + 1)
    else (.stop, 1)

/-- The piece at the head of a format, and its length. -/
def pieceAt (s : List Nat) : Piece × Nat :=
  match s with
  | [] => (.stop, 1)
  | c :: s =>
    if c = BACKSLASH then (.text (tescape E s).bytes (tescape E s).error, 1 + (tescape E s).len)
    else if c ≠ PERCENT then
      let step := E.coding.step (c :: s)
      (.text ((c :: s).take step) none, step)
    else if s.head? = some PERCENT then (.text [PERCENT] none, 2)
    else conversionAt (scan s)

def piecesAux : Nat → List Nat → List Piece
  | 0, _ => []
  | fuel + 1, s =>
    if s = [] then [] else (pieceAt E s).1 :: piecesAux fuel (s.drop (pieceAt E s).2)

/-- The pieces of a format. -/
def pieces (s : List Nat) : List Piece := piecesAux E s.length s

/-- What the `switch` is given: the conversion without its modifiers. -/
def Scan.given (sc : Scan) (convch : Nat) (fieldwidth precision : Int) (timefmt : List Nat) : Spec :=
  ⟨PERCENT :: (sc.spec ++ [if convch = LPAREN then 115 else convch]), convch, fieldwidth, precision,
    sc.widthStar, sc.precStar, decide (35 ∈ sc.flags), decide (108 ∈ sc.mods),
    decide (76 ∈ sc.mods), sc.precstart, timefmt⟩

namespace Piece

/-- What a piece prints. -/
def run (st : State σ) : Piece → Option (List Nat × State σ)
  | text bytes error => some (bytes, (st.report E error).put bytes)
  | conversion sc convch timefmt =>
    let s := sc.stars E st
    convertNext E (sc.given convch s.1 s.2.1 timefmt) s.2.2
  | malformed sc c =>
    some ([PERCENT], ((sc.stars E st).2.2.report E (some (.timeFormat c))).put [PERCENT])
  | stop => none

/-- The number of arguments that a piece takes. -/
def need : Piece → Nat
  | conversion sc _ _ => sc.widthStar.toNat + sc.precStar.toNat + 1
  | malformed sc _ => sc.widthStar.toNat + sc.precStar.toNat
  | _ => 0

/-- A malformed time format with length modifiers. -/
def Modified : Piece → Prop
  | malformed sc _ => sc.mods ≠ []
  | _ => False

instance : DecidablePred Modified
  | malformed sc _ => inferInstanceAs (Decidable (sc.mods ≠ []))
  | text _ _ => isFalse id
  | conversion _ _ _ => isFalse id
  | stop => isFalse id

end Piece

/-- A single pass: what the pieces print. -/
def runPieces : List Piece → State σ → Option (List Nat × State σ)
  | [], st => some ([], st)
  | p :: ps, st => do
    let r ← p.run E st
    let more ← runPieces ps r.2
    some (r.1 ++ more.1, more.2)

/-- The number of arguments that a pass takes. -/
def needs (ps : List Piece) : Nat := (ps.map Piece.need).sum

/-- The arguments of each pass, `k` for each as long as there are any. -/
def chunks (k : Nat) (args : List (List Nat)) : List (List (List Nat)) :=
  if _ : k = 0 ∨ args.length ≤ k then [args.take k] else args.take k :: chunks k (args.drop k)
termination_by args.length
decreasing_by
  rw [List.length_drop]
  omega

/-- The passes over the arguments, one behind the other. -/
def runPasses (ps : List Piece) : List (List (List Nat)) → σ → Option (List Nat × σ)
  | [], w => some ([], w)
  | chunk :: more, w => do
    let r ← runPieces E ps ⟨chunk, 0, w⟩
    let rest ← runPasses ps more r.2.world
    some (r.1 ++ rest.1, rest.2)

/-- What `printf format args` is to print. -/
def printed (format : List Nat) (args : List (List Nat)) (w : σ) : Option (List Nat × σ) :=
  runPasses E (pieces E format) (chunks (needs (pieces E format)) args) w

/-! ## The text of a conversion -/

variable {E} {s text : List Nat} {c : Nat}

theorem scanWidth_text (s : List Nat) : (scanWidth s).1.text ++ (scanWidth s).2 = s := by
  unfold scanWidth
  split
  · rename_i h
    cases s with
    | nil => cases h
    | cons c s =>
      cases h
      rfl
  · exact List.takeWhile_append_dropWhile

theorem scanField_text (s : List Nat) : (scanField s).1.text ++ (scanField s).2 = s := by
  unfold scanField
  split
  · rename_i h
    cases s with
    | nil => cases h
    | cons c s =>
      cases h
      rfl
  · by_cases hminus : s.head? = some MINUS
    · cases s with
      | nil => cases hminus
      | cons c s =>
        cases hminus
        exact congrArg (MINUS :: ·) List.takeWhile_append_dropWhile
    · simp only [hminus, decide_false, Bool.false_eq_true, if_false]
      exact List.takeWhile_append_dropWhile

/-- The parts of a conversion make up its text. -/
theorem scan_text (s : List Nat) : (scan s).spec ++ ((scan s).mods ++ (scan s).rest) = s := by
  have hmods : ∀ t : List Nat, t.takeWhile lenmod ++ t.dropWhile lenmod = t := fun t =>
    List.takeWhile_append_dropWhile
  have hwidth := scanWidth_text (s.dropWhile skip1)
  have hflags : s.takeWhile skip1 ++ s.dropWhile skip1 = s := List.takeWhile_append_dropWhile
  unfold scan Scan.spec scanPrecision
  dsimp only
  rw [hmods]
  by_cases hdot : (scanWidth (s.dropWhile skip1)).2.head? = some DOT
  · simp only [hdot, if_true]
    have hfield := scanField_text (scanWidth (s.dropWhile skip1)).2.tail
    have hcons : DOT :: (scanWidth (s.dropWhile skip1)).2.tail = (scanWidth (s.dropWhile skip1)).2 :=
      List.cons_head?_tail hdot
    rw [List.append_assoc, List.cons_append, hfield, hcons, List.append_assoc, hwidth, hflags]
  · simp only [hdot, if_false]
    rw [List.append_nil, List.append_assoc, hwidth, hflags]

/-- A character that is printed as it is. -/
def Plain (c : Nat) : Prop := c < 128 ∧ c ≠ BACKSLASH ∧ c ≠ PERCENT

theorem plain_of_digit (h : digit c = true) : Plain c := by
  have hc := of_decide_eq_true h
  unfold Plain BACKSLASH PERCENT
  omega

theorem plain_of_mem {l : List Nat} (hl : ∀ c ∈ l, c < 128 ∧ c ≠ 92 ∧ c ≠ 37) (h : c ∈ l) : Plain c :=
  hl c h

theorem plain_of_skip1 (h : skip1 c = true) : Plain c :=
  plain_of_mem (l := [35, 39, 45, 43, 32, 48]) (by decide) (of_decide_eq_true h)

theorem plain_of_lenmod (h : lenmod c = true) : Plain c :=
  plain_of_mem (l := [104, 106, 108, 76, 116, 122]) (by decide) (of_decide_eq_true h)

theorem plain_field {f : Field} (h : ∀ c ∈ f.digits, digit c = true) : ∀ c ∈ f.text, Plain c := by
  intro c hc
  unfold Field.text at hc
  split at hc
  · rw [List.mem_singleton.mp hc]
    exact ⟨by decide, by decide, by decide⟩
  · rcases List.mem_append.mp hc with hc | hc
    · split at hc
      · rw [List.mem_singleton.mp hc]
        exact ⟨by decide, by decide, by decide⟩
      · cases hc
    · exact plain_of_digit (h c hc)

theorem digits_scanWidth (s : List Nat) : ∀ c ∈ (scanWidth s).1.digits, digit c = true := by
  unfold scanWidth
  split
  · exact fun c hc => absurd hc List.not_mem_nil
  · exact fun c hc => List.mem_takeWhile_imp hc

theorem digits_scanField (s : List Nat) : ∀ c ∈ (scanField s).1.digits, digit c = true := by
  unfold scanField
  split
  · exact fun c hc => absurd hc List.not_mem_nil
  · exact fun c hc => List.mem_takeWhile_imp hc

/-- There is no conversion inside of a conversion. -/
theorem plain_spec (s : List Nat) : ∀ c ∈ (scan s).spec, Plain c := by
  intro c hc
  rcases List.mem_append.mp hc with hc | hc
  · rcases List.mem_append.mp hc with hc | hc
    · exact plain_of_skip1 (List.mem_takeWhile_imp hc)
    · exact plain_field (digits_scanWidth _) c hc
  · have hprec : ∀ f, (scan s).precision = some f → ∀ c ∈ f.digits, digit c = true := by
      intro f hf
      unfold scan scanPrecision at hf
      dsimp only at hf
      split at hf
      · cases hf
        exact digits_scanField _
      · cases hf
    cases hf : (scan s).precision with
    | none =>
      rw [hf] at hc
      cases hc
    | some f =>
      rw [hf] at hc
      rcases List.mem_cons.mp hc with rfl | hc
      · exact ⟨by decide, by decide, by decide⟩
      · exact plain_field (hprec f hf) c hc

theorem plain_mods (s : List Nat) : ∀ c ∈ (scan s).mods, Plain c ∧ c ≠ LPAREN := by
  intro c hc
  have hmod : lenmod c = true := List.mem_takeWhile_imp hc
  refine ⟨plain_of_lenmod hmod, ?_⟩
  rintro rfl
  exact absurd hmod (by decide)

/-! ## Overwriting, and putting back -/

theorem overwrite_overwrite (text : List Nat) (m a b c d : Nat) :
    overwrite (overwrite text m a b) m c d = overwrite text m c d := by
  unfold overwrite
  rw [List.set_comm _ _ (Nat.succ_ne_self m), List.set_set, List.set_set]

theorem set_getD (text : List Nat) (m : Nat) : text.set m (text.getD m 0) = text := by
  by_cases hm : m < text.length
  · rw [List.getD_eq_getElem?_getD, List.getElem?_eq_getElem hm]
    exact List.set_getElem_self hm
  · exact List.set_eq_of_length_le (Nat.not_lt.mp hm)

/-- The two characters are put back. -/
theorem overwrite_back (text : List Nat) (m a b : Nat) :
    overwrite (overwrite text m a b) m (text.getD m 0) (text.getD (m + 1) 0) = text := by
  rw [overwrite_overwrite, overwrite, set_getD, set_getD]

/-- The second one is put back. -/
theorem overwrite_next (text : List Nat) (m a b : Nat) :
    (overwrite text m a b).set (m + 1) (text.getD (m + 1) 0) = text.set m a := by
  unfold overwrite
  rw [List.set_set, List.set_comm _ _ (Nat.ne_of_lt (Nat.lt_succ_self m)), set_getD]

theorem cstring_append {a b : List Nat} (ha : ∀ c ∈ a, c ≠ 0) : cstring (a ++ b) = a ++ cstring b :=
  List.takeWhile_append_of_pos fun c hc => decide_eq_true (ha c hc)

/-- The conversion ends behind the character that is put in the place of the first modifier. -/
theorem cstring_overwrite {a r : List Nat} {c : Nat} (ha : ∀ c ∈ a, c ≠ 0) (hc : c ≠ 0)
    (hr : r ≠ []) : cstring (overwrite (a ++ r) a.length c 0) = a ++ [c] := by
  obtain ⟨d, t, rfl⟩ := List.exists_cons_of_ne_nil hr
  have hset : overwrite (a ++ d :: t) a.length c 0 = a ++ c :: t.set 0 0 := by
    unfold overwrite
    rw [List.set_append_right _ _ (Nat.le_refl _), List.set_append_right _ _ (Nat.le_succ _),
      Nat.sub_self, Nat.succ_sub (Nat.le_refl _), Nat.sub_self]
    rfl
  rw [hset, cstring_append ha]
  cases t with
  | nil => simp [cstring, hc]
  | cons e t => simp [cstring, hc]

theorem drop_overwrite (text : List Nat) (start k a b : Nat) :
    (overwrite text (start + k) a b).drop start = overwrite (text.drop start) k a b := by
  unfold overwrite
  rw [List.drop_set, List.drop_set, if_neg (by omega), if_neg (by omega), Nat.add_sub_cancel_left,
    Nat.add_assoc, Nat.add_sub_cancel_left]

/-! ## A round is a piece -/

/-- The position behind the '%' of a conversion. -/
theorem drop_conversion {fmt : Nat} (hs : text.drop fmt = c :: s) :
    text.drop (fmt + 1) = s := by
  rw [← List.tail_drop, hs]
  rfl

theorem specOf_given {fmt : Nat} {sc : Scan} (hsc : scan s = sc) (h0 : 0 ∉ text)
    (hs : text.drop fmt = PERCENT :: s) (hrest : sc.rest ≠ []) {a : Nat} (ha : a ≠ 0) :
    cstring ((overwrite text (fmt + 1 + sc.spec.length) a 0).drop fmt) =
      PERCENT :: (sc.spec ++ [a]) := by
  have htext := scan_text s
  rw [hsc] at htext
  have hsplit : text.drop fmt = (PERCENT :: sc.spec) ++ (sc.mods ++ sc.rest) := by
    rw [hs, List.cons_append, htext]
  have hlen : fmt + 1 + sc.spec.length = fmt + (PERCENT :: sc.spec).length := by
    rw [List.length_cons]
    omega
  rw [hlen, drop_overwrite, hsplit, cstring_overwrite _ ha (by simp [hrest])]
  · rfl
  · intro d hd heq
    apply h0
    rw [← heq]
    apply List.mem_of_mem_drop (i := fmt)
    rw [hsplit]
    exact List.mem_append_left _ hd

theorem overwrite_set (text : List Nat) (m a b c : Nat) :
    overwrite (text.set m a) m b c = overwrite text m b c := by
  unfold overwrite
  rw [List.set_set]

theorem specOf_eq {sc : Scan} {convch a : Nat} (ha : a = if convch = LPAREN then 115 else convch)
    (htext : cstring text = PERCENT :: (sc.spec ++ [a])) (fieldwidth precision : Int)
    (timefmt : List Nat) : specOf text sc convch fieldwidth precision timefmt =
      sc.given convch fieldwidth precision timefmt := by
  unfold specOf Scan.given
  rw [htext, ha]

section

variable {fmt convch : Nat} {sc : Scan} {rest : List Nat}

/-- The format, split at the conversion character. -/
theorem drop_scan (hsc : scan s = sc) (hs : text.drop fmt = PERCENT :: s)
    (hrest : sc.rest = convch :: rest) :
    text.drop fmt = (PERCENT :: sc.spec) ++ (sc.mods ++ convch :: rest) := by
  have htext := scan_text s
  rw [hsc, hrest] at htext
  rw [hs, List.cons_append, htext]

/-- The text behind the parenthesis of a time format. -/
theorem drop_time (hsc : scan s = sc) (hs : text.drop fmt = PERCENT :: s)
    (hrest : sc.rest = convch :: rest) : (text.set (fmt + 1 + sc.spec.length) convch).drop
      (fmt + 1 + sc.spec.length + sc.mods.length + 1) = rest := by
  have hsplit : text.drop fmt = (PERCENT :: sc.spec ++ sc.mods ++ [convch]) ++ rest := by
    rw [drop_scan hsc hs hrest]
    simp
  have hlen : fmt + 1 + sc.spec.length + sc.mods.length + 1 =
      fmt + (PERCENT :: sc.spec ++ sc.mods ++ [convch]).length := by
    simp only [List.length_append, List.length_cons, List.length_nil]
    omega
  rw [List.drop_set, if_pos (by omega), hlen, ← List.drop_drop, hsplit, List.drop_left]

/-- Without modifiers, the parenthesis is where it was. -/
theorem set_paren (hsc : scan s = sc) (hs : text.drop fmt = PERCENT :: s)
    (hrest : sc.rest = convch :: rest) (hmods : sc.mods = []) :
    text.set (fmt + 1 + sc.spec.length) convch = text := by
  have hget : text.getD (fmt + 1 + sc.spec.length) 0 = convch := by
    have hsplit := drop_scan hsc hs hrest
    rw [hmods, List.nil_append] at hsplit
    have hlen : fmt + 1 + sc.spec.length = fmt + (PERCENT :: sc.spec).length := by
      rw [List.length_cons]
      omega
    rw [List.getD_eq_getElem?_getD, hlen, ← List.getElem?_drop, hsplit,
      List.getElem?_append_right (Nat.le_refl _), Nat.sub_self]
    rfl
  rw [← hget]
  exact set_getD text _

theorem pieceAt_conversion (hpercent : s.head? ≠ some PERCENT) :
    pieceAt E (PERCENT :: s) = conversionAt (scan s) := by
  rw [pieceAt, if_neg (by decide), if_neg (not_not.mpr rfl), if_neg hpercent]

/-- A conversion leaves the format as it is, unless it is a malformed time format. -/
theorem conversion_piece (h0 : 0 ∉ text) (hs : text.drop fmt = PERCENT :: s)
    (hgood : ¬(conversionAt (scan s)).1.Modified) (st : State σ) :
    conversion E text fmt st = ((conversionAt (scan s)).1.run E st).map fun r =>
      ⟨r.1, fmt + (conversionAt (scan s)).2, text, r.2⟩ := by
  unfold conversion
  rw [drop_conversion hs]
  generalize hsc : scan s = sc at *
  unfold conversionAt at hgood ⊢
  cases hrest : sc.rest with
  | nil =>
    dsimp only
    rw [hrest]
    rfl
  | cons convch rest =>
    have hne : convch ≠ 0 := by
      rintro rfl
      apply h0
      apply List.mem_of_mem_drop (i := fmt)
      rw [drop_scan hsc hs hrest]
      simp
    have hspec : ∀ a, a ≠ 0 → cstring ((overwrite text (fmt + 1 + sc.spec.length) a 0).drop fmt) =
        PERCENT :: (sc.spec ++ [a]) := fun a ha =>
      specOf_given hsc h0 hs (by rw [hrest]; exact List.cons_ne_nil _ _) ha
    have htime := drop_time hsc hs hrest
    have hparen := set_paren hsc hs hrest
    simp only [hrest] at hgood ⊢
    by_cases hconv : convch = LPAREN
    · subst hconv
      simp only [if_true, overwrite_next] at hgood ⊢
      rw [htime]
      by_cases hends : endsTime (timeText 1 rest).2 = true
      · simp only [hends, if_true]
        have hnext : fmt + 1 + sc.spec.length + sc.mods.length + 1 + (timeText 1 rest).1.length + 2 =
            fmt + (1 + sc.spec.length + sc.mods.length + 1 + (timeText 1 rest).1.length + 2) := by
          omega
        rw [overwrite_set, overwrite_back, specOf_eq rfl (hspec 115 (by decide)), hnext]
        rfl
      · simp only [hends, Bool.false_eq_true, if_false] at hgood ⊢
        rw [hparen (not_not.mp hgood)]
        rfl
    · simp only [hconv, if_false]
      by_cases hknown : convch ∈ convchs
      · simp only [hknown, if_true]
        have hnext : fmt + 1 + sc.spec.length + sc.mods.length + 1 =
            fmt + (1 + sc.spec.length + sc.mods.length + 1) := by
          omega
        rw [overwrite_back, specOf_eq (if_neg hconv).symm (hspec convch hne), hnext]
        rfl
      · simp only [hknown, if_false]
        rfl

theorem of_modified (hbad : (conversionAt sc).1.Modified) :
    ∃ rest, sc.rest = LPAREN :: rest ∧ sc.mods ≠ [] ∧ endsTime (timeText 1 rest).2 = false ∧
      conversionAt sc = (.malformed sc (timeChar (timeText 1 rest).2), 1) := by
  unfold conversionAt at hbad ⊢
  cases hrest : sc.rest with
  | nil =>
    simp only [hrest] at hbad
    exact absurd hbad id
  | cons convch rest =>
    simp only [hrest] at hbad ⊢
    by_cases hconv : convch = LPAREN
    · subst hconv
      simp only [if_true] at hbad ⊢
      by_cases hends : endsTime (timeText 1 rest).2 = true
      · simp only [hends, if_true] at hbad
        exact absurd hbad id
      · simp only [hends, Bool.false_eq_true, if_false] at hbad
        refine ⟨rest, rfl, hbad, Bool.eq_false_iff.mpr hends, ?_⟩
        rw [if_neg hends]
    · simp only [hconv, if_false] at hbad
      split at hbad
      · exact absurd hbad id
      · exact absurd hbad id

/-- A malformed time format with modifiers keeps the parenthesis in the place of the first one. -/
theorem conversion_modified (hs : text.drop fmt = PERCENT :: s)
    (hbad : (conversionAt (scan s)).1.Modified) (st : State σ) :
    ∃ st', conversion E text fmt st = some
      ⟨[PERCENT], fmt + 1, text.set (fmt + 1 + (scan s).spec.length) LPAREN, st'⟩ := by
  obtain ⟨rest, hrest, hmods, hends, -⟩ := of_modified hbad
  have htime := drop_time rfl hs hrest
  have hends' : ¬endsTime (timeText 1 rest).2 = true := Bool.eq_false_iff.mp hends
  unfold conversion
  rw [drop_conversion hs]
  simp only [hrest, if_true, overwrite_next]
  rw [htime]
  simp only [hends']
  exact ⟨_, rfl⟩

theorem round_piece (h0 : 0 ∉ text) (hs : text.drop fmt = c :: s)
    (hgood : ¬(pieceAt E (c :: s)).1.Modified) (st : State σ) :
    round E text fmt st = ((pieceAt E (c :: s)).1.run E st).map fun r =>
      ⟨r.1, fmt + (pieceAt E (c :: s)).2, text, r.2⟩ := by
  unfold round
  rw [hs]
  unfold pieceAt at hgood ⊢
  by_cases hback : c = BACKSLASH
  · simp only [hback, if_true, Nat.add_assoc]
    rfl
  · by_cases hpercent : c = PERCENT
    · subst hpercent
      by_cases htwo : s.head? = some PERCENT
      · simp only [hback, if_false, htwo, ne_eq, not_true_eq_false, if_true]
        rfl
      · simp only [hback, if_false, htwo, ne_eq, not_true_eq_false] at hgood ⊢
        exact conversion_piece h0 hs hgood st
    · simp only [hback, if_false, hpercent, ne_eq, not_false_eq_true, if_true]
      rfl

theorem pieceAt_modified (hbad : (pieceAt E (c :: s)).1.Modified) :
    c = PERCENT ∧ s.head? ≠ some PERCENT ∧ (conversionAt (scan s)).1.Modified := by
  unfold pieceAt at hbad
  by_cases hback : c = BACKSLASH
  · simp only [hback, if_true] at hbad
    exact absurd hbad id
  · by_cases hpercent : c = PERCENT
    · subst hpercent
      by_cases htwo : s.head? = some PERCENT
      · simp only [hback, if_false, htwo, ne_eq, not_true_eq_false, if_true] at hbad
        exact absurd hbad id
      · simp only [hback, if_false, htwo, ne_eq, not_true_eq_false] at hbad
        exact ⟨rfl, htwo, hbad⟩
    · simp only [hback, if_false, hpercent, ne_eq, not_false_eq_true, if_true] at hbad
      exact absurd hbad id

theorem step_plain (K : Coding) (hplain : Plain c) (s : List Nat) : K.step (c :: s) = 1 := by
  have hlen := K.ascii c s hplain.1
  rw [Coding.step, hlen]
  rfl

/-- A plain character is printed. -/
theorem round_plain (hs : text.drop fmt = c :: s) (hplain : Plain c) (st : State σ) :
    round E text fmt st = some ⟨[c], fmt + 1, text, st.put [c]⟩ := by
  unfold round
  rw [hs]
  simp only [hplain.2.1, hplain.2.2, ne_eq, not_false_eq_true, if_true, if_false,
    step_plain E.coding hplain]
  rfl

theorem pieceAt_plain (hplain : Plain c) (s : List Nat) :
    pieceAt E (c :: s) = (.text [c] none, 1) := by
  unfold pieceAt
  simp only [hplain.2.1, hplain.2.2, ne_eq, not_false_eq_true, if_true, if_false,
    step_plain E.coding hplain]
  rfl

end

/-! ## A pass over the format -/

theorem conversionAt_pos (sc : Scan) : 0 < (conversionAt sc).2 := by
  unfold conversionAt
  cases sc.rest with
  | nil => exact Nat.one_pos
  | cons convch rest =>
    dsimp only
    split
    · split
      · exact Nat.succ_pos _
      · exact Nat.one_pos
    · split
      · exact Nat.succ_pos _
      · exact Nat.one_pos

theorem pieceAt_pos (s : List Nat) : 0 < (pieceAt E s).2 := by
  unfold pieceAt
  cases s with
  | nil => exact Nat.one_pos
  | cons c s =>
    dsimp only
    split
    · exact Nat.lt_of_lt_of_le Nat.one_pos (Nat.le_add_right 1 _)
    · split
      · exact E.coding.step_pos _
      · split
        · exact Nat.two_pos
        · exact conversionAt_pos _

theorem piecesAux_eq {fuel : Nat} (h : s.length ≤ fuel) : piecesAux E fuel s = pieces E s := by
  induction fuel using Nat.strongRecOn generalizing s with
  | ind fuel ih =>
    cases s with
    | nil => cases fuel <;> rfl
    | cons c s =>
      obtain ⟨fuel, rfl⟩ := Nat.exists_eq_succ_of_ne_zero (Nat.ne_of_gt (Nat.lt_of_lt_of_le
        (Nat.succ_pos _) h))
      have hpos := pieceAt_pos (E := E) (c :: s)
      have hdrop : ((c :: s).drop (pieceAt E (c :: s)).2).length ≤ s.length := by
        rw [List.length_drop, List.length_cons]
        omega
      rw [List.length_cons] at h
      rw [pieces, List.length_cons, piecesAux, piecesAux, if_neg (List.cons_ne_nil c s),
        if_neg (List.cons_ne_nil c s), ih fuel (Nat.lt_succ_self _) (by omega)]
      by_cases heq : s.length = fuel
      · rw [heq, ih fuel (Nat.lt_succ_self _) (by omega)]
      · rw [ih s.length (by omega) hdrop]

theorem pieces_cons (c : Nat) (s : List Nat) : pieces E (c :: s) =
    (pieceAt E (c :: s)).1 :: pieces E ((c :: s).drop (pieceAt E (c :: s)).2) := by
  have hpos := pieceAt_pos (E := E) (c :: s)
  rw [pieces, List.length_cons, piecesAux, if_neg (List.cons_ne_nil c s), piecesAux_eq]
  rw [List.length_drop, List.length_cons]
  omega

theorem pass_end {fmt : Nat} (h : text.length ≤ fmt) (fuel : Nat) (st : State σ) :
    pass E (fuel + 1) text fmt st = some (some ([], text, st)) := by
  rw [pass, if_pos h]

theorem lt_of_drop {fmt : Nat} (hs : text.drop fmt = c :: s) : fmt < text.length := by
  by_contra hle
  rw [List.drop_of_length_le (Nat.not_lt.mp hle)] at hs
  cases hs

theorem pass_none {fmt : Nat} {st : State σ} (hs : text.drop fmt = c :: s)
    (hround : round E text fmt st = none) (fuel : Nat) :
    pass E (fuel + 1) text fmt st = some none := by
  rw [pass, if_neg (Nat.not_le.mpr (lt_of_drop hs)), hround]

theorem pass_some {fmt : Nat} {st : State σ} {r : Round σ} (hs : text.drop fmt = c :: s)
    (hround : round E text fmt st = some r) (fuel : Nat) :
    pass E (fuel + 1) text fmt st = (pass E fuel r.text r.fmt r.state).map fun more =>
      more.map fun m => (r.bytes ++ m.1, m.2) := by
  rw [pass, if_neg (Nat.not_le.mpr (lt_of_drop hs)), hround]

/-- Without malformed time formats that have modifiers, a pass runs the pieces, and leaves the
format as it is. -/
theorem pass_pieces (h0 : 0 ∉ text) (fmt : Nat) {fuel : Nat} (hfuel : text.length - fmt < fuel)
    (hgood : ∀ p ∈ pieces E (text.drop fmt), ¬p.Modified) (st : State σ) :
    pass E fuel text fmt st =
      some ((runPieces E (pieces E (text.drop fmt)) st).map fun r => (r.1, text, r.2)) := by
  induction fuel generalizing fmt st with
  | zero => exact absurd hfuel (Nat.not_lt_zero _)
  | succ fuel ih =>
    cases hs : text.drop fmt with
    | nil =>
      rw [pass_end (List.drop_eq_nil_iff.mp hs)]
      rfl
    | cons c s =>
      have hpos := pieceAt_pos (E := E) (c :: s)
      have hlt := lt_of_drop hs
      rw [hs, pieces_cons] at hgood
      have hround := round_piece h0 hs (hgood _ List.mem_cons_self) st
      rw [pieces_cons, runPieces]
      cases hrun : (pieceAt E (c :: s)).1.run E st with
      | none =>
        rw [hrun] at hround
        rw [pass_none hs hround]
        rfl
      | some r =>
        rw [hrun] at hround
        have hdrop : (c :: s).drop (pieceAt E (c :: s)).2 =
            text.drop (fmt + (pieceAt E (c :: s)).2) := by
          rw [← hs, List.drop_drop]
        rw [hdrop] at hgood ⊢
        have hmore := ih _ (by omega) (fun p hp => hgood p (List.mem_cons_of_mem _ hp)) r.2
        rw [pass_some hs hround, hmore]
        change _ = some (Option.map _ ((runPieces E _ r.2).bind _))
        cases runPieces E (pieces E (text.drop (fmt + (pieceAt E (c :: s)).2))) r.2 with
        | none => rfl
        | some more => rfl

/-! ## The arguments of a pass -/

/-- The state with the first `n` arguments only. -/
def State.within (st : State σ) (n : Nat) : State σ := { st with args := st.args.take n }

theorem takeStar_within (star : Bool) (v : Int) (st : State σ) {n : Nat} (hn : star.toNat ≤ n) :
    takeStar E star v (st.within n) =
      ((takeStar E star v st).1, (takeStar E star v st).2.within (n - star.toNat)) := by
  cases star with
  | false => rfl
  | true =>
    obtain ⟨n, rfl⟩ := Nat.exists_eq_succ_of_ne_zero (Nat.ne_of_gt (Nat.lt_of_lt_of_le
      Nat.one_pos hn))
    obtain ⟨args, tw, w⟩ := st
    cases args with
    | nil => simp [takeStar, State.within]
    | cons a args => simp [takeStar, State.within]

theorem args_takeStar (star : Bool) (v : Int) (st : State σ) :
    (takeStar E star v st).2.args = st.args.drop star.toNat := by
  cases star with
  | false => rfl
  | true => exact List.drop_one.symm

theorem stars_within (sc : Scan) (st : State σ) {n : Nat}
    (hn : sc.widthStar.toNat + sc.precStar.toNat ≤ n) : sc.stars E (st.within n) =
      ((sc.stars E st).1, (sc.stars E st).2.1,
        (sc.stars E st).2.2.within (n - (sc.widthStar.toNat + sc.precStar.toNat))) := by
  unfold Scan.stars
  dsimp only
  rw [takeStar_within _ _ _ (by omega), takeStar_within _ _ _ (by omega), Nat.sub_sub]

theorem args_stars (sc : Scan) (st : State σ) :
    (sc.stars E st).2.2.args = st.args.drop (sc.widthStar.toNat + sc.precStar.toNat) := by
  unfold Scan.stars
  dsimp only
  rw [args_takeStar, args_takeStar, List.drop_drop]

theorem convertNext_within (sp : Spec) (st : State σ) {n : Nat} (hn : 1 ≤ n) :
    convertNext E sp (st.within n) =
      (convertNext E sp st).map fun r => (r.1, r.2.within (n - 1)) := by
  obtain ⟨n, rfl⟩ := Nat.exists_eq_succ_of_ne_zero (Nat.ne_of_gt hn)
  obtain ⟨args, tw, w⟩ := st
  cases args with
  | nil => simp [convertNext, State.within, Function.comp_def]
  | cons a args => simp [convertNext, State.within, Function.comp_def]

theorem args_convertNext {sp : Spec} {st : State σ} {r : List Nat × State σ}
    (h : convertNext E sp st = some r) : r.2.args = st.args.drop 1 := by
  obtain ⟨r', -, rfl⟩ := Option.map_eq_some_iff.mp h
  exact List.drop_one.symm

theorem report_within (st : State σ) (error : Option Report) (n : Nat) :
    (st.within n).report E error = (st.report E error).within n := by
  cases error <;> rfl

theorem args_report (st : State σ) (error : Option Report) :
    (st.report E error).args = st.args := by
  cases error <;> rfl

/-- A piece looks at the arguments that it takes only. -/
theorem run_within (p : Piece) (st : State σ) {n : Nat} (hn : p.need ≤ n) :
    p.run E (st.within n) = (p.run E st).map fun r => (r.1, r.2.within (n - p.need)) := by
  cases p with
  | text bytes error =>
    rw [Piece.run, report_within]
    rfl
  | conversion sc convch timefmt =>
    simp only [Piece.need, Piece.run] at hn ⊢
    rw [stars_within sc st (by omega)]
    dsimp only
    rw [convertNext_within _ _ (by omega), Nat.sub_sub]
  | malformed sc c =>
    simp only [Piece.need, Piece.run] at hn ⊢
    rw [stars_within sc st hn]
    dsimp only
    rw [report_within]
    rfl
  | stop => rfl

theorem args_run {p : Piece} {st : State σ} {r : List Nat × State σ} (h : p.run E st = some r) :
    r.2.args = st.args.drop p.need := by
  cases p with
  | text bytes error =>
    cases h
    exact args_report st error
  | conversion sc convch timefmt =>
    rw [args_convertNext h, args_stars, List.drop_drop]
    rfl
  | malformed sc c =>
    cases h
    exact (args_report _ _).trans (args_stars sc st)
  | stop => cases h

theorem needs_cons (p : Piece) (ps : List Piece) : needs (p :: ps) = p.need + needs ps := rfl

/-- A pass looks at the arguments that it takes only. -/
theorem runPieces_within (ps : List Piece) (st : State σ) {n : Nat} (hn : needs ps ≤ n) :
    runPieces E ps (st.within n) =
      (runPieces E ps st).map fun r => (r.1, r.2.within (n - needs ps)) := by
  induction ps generalizing st n with
  | nil => rfl
  | cons p ps ih =>
    rw [needs_cons] at hn ⊢
    rw [runPieces, runPieces, run_within p st (by omega)]
    cases p.run E st with
    | none => rfl
    | some r =>
      change Option.bind (runPieces E ps (r.2.within (n - p.need))) _ =
        Option.map _ (Option.bind (runPieces E ps r.2) _)
      rw [ih r.2 (by omega), Nat.sub_sub]
      cases runPieces E ps r.2 with
      | none => rfl
      | some more => rfl

theorem args_runPieces {ps : List Piece} {st : State σ} {r : List Nat × State σ}
    (h : runPieces E ps st = some r) : r.2.args = st.args.drop (needs ps) := by
  induction ps generalizing st r with
  | nil =>
    cases h
    rfl
  | cons p ps ih =>
    obtain ⟨r', hrun, h⟩ := Option.bind_eq_some_iff.mp h
    obtain ⟨more, hmore, h⟩ := Option.bind_eq_some_iff.mp h
    cases h
    rw [ih hmore, args_run hrun, List.drop_drop, needs_cons]

/-! ## The passes -/

theorem runPieces_chunk (ps : List Piece) (args : List (List Nat)) (w : σ) :
    runPieces E ps ⟨args.take (needs ps), 0, w⟩ =
      (runPieces E ps ⟨args, 0, w⟩).map fun r => (r.1, r.2.within 0) := by
  have h := runPieces_within (E := E) ps ⟨args, 0, w⟩ (Nat.le_refl (needs ps))
  rw [Nat.sub_self] at h
  exact h

theorem chunks_last {k : Nat} {args : List (List Nat)} (h : k = 0 ∨ args.length ≤ k) :
    chunks k args = [args.take k] := by
  rw [chunks, dif_pos h]

theorem chunks_more {k : Nat} {args : List (List Nat)} (h : ¬(k = 0 ∨ args.length ≤ k)) :
    chunks k args = args.take k :: chunks k (args.drop k) := by
  rw [chunks, dif_neg h]

/-- The passes go on if and only if there is another chunk. -/
theorem chunks_iff {k first : Nat} {args : List (List Nat)} (hle : args.length ≤ first)
    (hzero : k = 0 → args.length = first) :
    (args.drop k ≠ [] ∧ (args.drop k).length ≠ first) ↔ ¬(k = 0 ∨ args.length ≤ k) := by
  rw [← List.length_pos_iff, List.length_drop]
  omega

/-- Without malformed time formats that have modifiers, the passes are those over the chunks. -/
theorem passes_good (h0 : 0 ∉ text) (hgood : ∀ p ∈ pieces E text, ¬p.Modified) {fuel : Nat}
    (hfuel : text.length < fuel) {first n : Nat} {st : State σ} (hn : st.args.length < n)
    (hle : st.args.length ≤ first) (hzero : needs (pieces E text) = 0 → st.args.length = first) :
    passes E fuel first n text st =
      some ((runPasses E (pieces E text) (chunks (needs (pieces E text)) st.args) st.world).map
        fun r => ⟨r.1, (chunks (needs (pieces E text)) st.args).map fun _ => text, r.2⟩) := by
  induction n generalizing st with
  | zero => exact absurd hn (Nat.not_lt_zero _)
  | succ n ih =>
    have hpass := pass_pieces h0 0 (Nat.lt_of_le_of_lt (Nat.sub_le _ _) hfuel) hgood
      { st with tw := 0 }
    have hchunk := runPieces_chunk (E := E) (pieces E text) st.args st.world
    have hiff := chunks_iff hle hzero
    rw [List.drop_zero] at hpass
    rw [passes, hpass]
    generalize hk : needs (pieces E text) = k at *
    cases hrun : runPieces E (pieces E text) ⟨st.args, 0, st.world⟩ with
    | none =>
      rw [hrun] at hchunk
      have hnone : ∀ more, runPasses E (pieces E text) (st.args.take k :: more) st.world = none := by
        intro more
        rw [runPasses, hchunk]
        rfl
      by_cases hlast : k = 0 ∨ st.args.length ≤ k
      · rw [chunks_last hlast, hnone]
        rfl
      · rw [chunks_more hlast, hnone]
        rfl
    | some r =>
      rw [hrun] at hchunk
      have hargs : r.2.args = st.args.drop k := by
        rw [args_runPieces hrun, hk]
      have hlen : r.2.args.length = st.args.length - k := by
        rw [hargs, List.length_drop]
      dsimp only [Option.map_some]
      rw [← hargs] at hiff
      by_cases hlast : k = 0 ∨ st.args.length ≤ k
      · rw [if_neg (fun h => hiff.mp h hlast), chunks_last hlast, runPasses, hchunk]
        change _ = some (some (Outcome.mk (r.1 ++ []) _ _))
        rw [List.append_nil]
        rfl
      · have hless : r.2.args.length < n := by omega
        have hfirst : r.2.args.length ≤ first := by omega
        rw [if_pos (hiff.mpr hlast), chunks_more hlast, runPasses, hchunk,
          ih hless hfirst (fun h => absurd (Or.inl h) hlast), hargs]
        change _ = some (Option.map _ (Option.bind
          (runPasses E (pieces E text) (chunks k (st.args.drop k)) r.2.world) _))
        cases runPasses E (pieces E text) (chunks k (st.args.drop k)) r.2.world with
        | none => rfl
        | some rest => rfl

/-! ## A format that is changed -/

/-- Plain characters are printed, in a pass over the format, -/
theorem pass_plain {a r : List Nat} (hplain : ∀ c ∈ a, Plain c) {fmt fuel : Nat} {st : State σ}
    (hs : text.drop fmt = a ++ r) {m : List Nat × List Nat × State σ}
    (h : pass E fuel text fmt st = some (some m)) : ∃ v, m.1 = a ++ v := by
  induction a generalizing fmt fuel st m with
  | nil => exact ⟨m.1, rfl⟩
  | cons c a ih =>
    obtain ⟨hc, ha⟩ := List.forall_mem_cons.mp hplain
    cases fuel with
    | zero => cases h
    | succ fuel =>
      rw [pass_some hs (round_plain hs hc st)] at h
      obtain ⟨more, hmore, h⟩ := Option.map_eq_some_iff.mp h
      obtain ⟨m', rfl, rfl⟩ := Option.map_eq_some_iff.mp h
      obtain ⟨v, hv⟩ := ih ha (drop_conversion hs) hmore
      refine ⟨v, ?_⟩
      rw [hv]
      rfl

/-- and by its pieces. -/
theorem runPieces_plain {a r : List Nat} (hplain : ∀ c ∈ a, Plain c) {st : State σ}
    {m : List Nat × State σ} (h : runPieces E (pieces E (a ++ r)) st = some m) :
    ∃ u, m.1 = a ++ u := by
  induction a generalizing st m with
  | nil => exact ⟨m.1, rfl⟩
  | cons c a ih =>
    obtain ⟨hc, ha⟩ := List.forall_mem_cons.mp hplain
    rw [List.cons_append, pieces_cons, pieceAt_plain hc] at h
    obtain ⟨more, hmore, h⟩ := Option.bind_eq_some_iff.mp h
    cases h
    obtain ⟨u, hu⟩ := ih ha hmore
    refine ⟨u, ?_⟩
    rw [hu]
    rfl

theorem set_middle (a r : List Nat) (d e : Nat) : (a ++ d :: r).set a.length e = a ++ [e] ++ r := by
  rw [List.set_append_right _ _ (Nat.le_refl _), Nat.sub_self, List.append_assoc]
  rfl

theorem round_conversion {fmt : Nat} (hs : text.drop fmt = PERCENT :: s)
    (hpercent : s.head? ≠ some PERCENT) (st : State σ) :
    round E text fmt st = conversion E text fmt st := by
  unfold round
  rw [hs]
  simp only [hpercent, if_false, ne_eq, not_true_eq_false]
  rw [if_neg (by decide)]

/-- A parenthesis is printed in the place of a modifier. -/
theorem pass_modified (h0 : 0 ∉ text) (fmt : Nat) {fuel : Nat} {st : State σ}
    (hbad : ∃ p ∈ pieces E (text.drop fmt), p.Modified)
    {m : List Nat × List Nat × State σ} {o : List Nat × State σ}
    (hpass : pass E fuel text fmt st = some (some m))
    (hrun : runPieces E (pieces E (text.drop fmt)) st = some o) :
    ∃ x d u v, o.1 = x ++ d :: u ∧ m.1 = x ++ LPAREN :: v ∧ d ≠ LPAREN := by
  induction fuel generalizing fmt st m o with
  | zero => cases hpass
  | succ fuel ih =>
    cases hs : text.drop fmt with
    | nil =>
      rw [hs] at hbad
      obtain ⟨p, hp, -⟩ := hbad
      cases hp
    | cons c s =>
      rw [hs, pieces_cons] at hbad hrun
      obtain ⟨r, hpiece, hrun⟩ := Option.bind_eq_some_iff.mp hrun
      obtain ⟨more, hmore, heq⟩ := Option.bind_eq_some_iff.mp hrun
      cases heq
      by_cases hmod : (pieceAt E (c :: s)).1.Modified
      · obtain ⟨rfl, hpercent, hmod⟩ := pieceAt_modified hmod
        obtain ⟨rest, hrest, hmods, -, hat⟩ := of_modified hmod
        obtain ⟨st', hround⟩ := conversion_modified (E := E) hs hmod st
        obtain ⟨d, ds, hd⟩ := List.exists_cons_of_ne_nil hmods
        have hplain := plain_spec s
        have hdplain := plain_mods s d (by rw [hd]; exact List.mem_cons_self)
        rw [← round_conversion hs hpercent] at hround
        rw [pass_some hs hround] at hpass
        obtain ⟨m', hm', hpass⟩ := Option.map_eq_some_iff.mp hpass
        obtain ⟨m'', rfl, rfl⟩ := Option.map_eq_some_iff.mp hpass
        rw [pieceAt_conversion hpercent, hat] at hpiece hmore
        cases hpiece
        have hsplit : s = (scan s).spec ++ d :: (ds ++ (scan s).rest) := by
          conv_lhs => rw [← scan_text s, hd]
          rfl
        have hset : (text.set (fmt + 1 + (scan s).spec.length) LPAREN).drop (fmt + 1) =
            ((scan s).spec ++ [LPAREN]) ++ (ds ++ (scan s).rest) := by
          have hmiddle := set_middle (scan s).spec (ds ++ (scan s).rest) d LPAREN
          rw [← hsplit] at hmiddle
          rw [List.drop_set, if_neg (by omega), drop_conversion hs, Nat.add_sub_cancel_left]
          exact hmiddle
        obtain ⟨v, hv⟩ := pass_plain (a := (scan s).spec ++ [LPAREN]) (fun c hc => by
          rcases List.mem_append.mp hc with hc | hc
          · exact hplain c hc
          · rw [List.mem_singleton.mp hc]
            exact ⟨by decide, by decide, by decide⟩) hset hm'
        have htext : (PERCENT :: s).drop 1 = ((scan s).spec ++ [d]) ++ (ds ++ (scan s).rest) := by
          rw [List.append_assoc]
          exact hsplit
        rw [htext] at hmore
        obtain ⟨u, hu⟩ := runPieces_plain (a := (scan s).spec ++ [d]) (fun c hc => by
          rcases List.mem_append.mp hc with hc | hc
          · exact hplain c hc
          · rw [List.mem_singleton.mp hc]
            exact hdplain.1) hmore
        refine ⟨PERCENT :: (scan s).spec, d, u, v, ?_, ?_, hdplain.2⟩
        · rw [hu]
          simp
        · rw [hv]
          simp
      · have hround := round_piece h0 hs hmod st
        rw [hpiece] at hround
        rw [pass_some hs hround] at hpass
        obtain ⟨m', hm', hpass⟩ := Option.map_eq_some_iff.mp hpass
        obtain ⟨m'', rfl, rfl⟩ := Option.map_eq_some_iff.mp hpass
        have hdrop : (c :: s).drop (pieceAt E (c :: s)).2 =
            text.drop (fmt + (pieceAt E (c :: s)).2) := by
          rw [← hs, List.drop_drop]
        rw [hdrop] at hbad hmore
        obtain ⟨p, hp, hpmod⟩ := hbad
        have hlater : p ∈ pieces E (text.drop (fmt + (pieceAt E (c :: s)).2)) := by
          rcases List.mem_cons.mp hp with rfl | hp
          · exact absurd hpmod hmod
          · exact hp
        obtain ⟨x, d, u, v, ho, hm, hne⟩ := ih _ ⟨p, hlater, hpmod⟩ hm' hmore
        refine ⟨r.1 ++ x, d, u, v, ?_, ?_, hne⟩
        · rw [ho, List.append_assoc]
        · rw [hm, List.append_assoc]

theorem chunks_head (k : Nat) (args : List (List Nat)) :
    ∃ more, chunks k args = args.take k :: more := by
  by_cases h : k = 0 ∨ args.length ≤ k
  · exact ⟨[], chunks_last h⟩
  · exact ⟨_, chunks_more h⟩

/-- What is to be printed begins with the first pass. -/
theorem printed_first {format : List Nat} {args : List (List Nat)} {w : σ} {out : List Nat × σ}
    (hout : printed E format args w = some out) :
    ∃ r z, runPieces E (pieces E format) ⟨args, 0, w⟩ = some r ∧ out.1 = r.1 ++ z := by
  obtain ⟨more, hmore⟩ := chunks_head (needs (pieces E format)) args
  unfold printed at hout
  rw [hmore] at hout
  obtain ⟨r, hrun, hout⟩ := Option.bind_eq_some_iff.mp hout
  obtain ⟨rest, -, hout⟩ := Option.bind_eq_some_iff.mp hout
  cases hout
  rw [runPieces_chunk] at hrun
  obtain ⟨r', hrun', rfl⟩ := Option.map_eq_some_iff.mp hrun
  exact ⟨r', rest.1, hrun', rfl⟩

/-- What is printed begins with the first pass. -/
theorem passes_first {fuel first n : Nat} {st : State σ} {o : Outcome σ}
    (h : passes E fuel first n text st = some (some o)) :
    ∃ m y, pass E fuel text 0 { st with tw := 0 } = some (some m) ∧ o.bytes = m.1 ++ y := by
  cases n with
  | zero => cases h
  | succ n =>
    rw [passes] at h
    split at h
    · cases h
    · cases h
    · rename_i bytes text' st' hpass
      refine ⟨(bytes, text', st'), ?_⟩
      split at h
      · obtain ⟨more, -, h⟩ := Option.map_eq_some_iff.mp h
        obtain ⟨o', -, rfl⟩ := Option.map_eq_some_iff.mp h
        exact ⟨o'.bytes, hpass, rfl⟩
      · cases h
        exact ⟨[], hpass, (List.append_nil bytes).symm⟩

/-- A parenthesis in the place of a modifier is seen in what is printed. -/
theorem bytes_ne_of_modified {format : List Nat} {args : List (List Nat)} {w : σ}
    {out : List Nat × σ} (h0 : 0 ∉ format) (hout : printed E format args w = some out)
    (hbad : ∃ p ∈ pieces E format, p.Modified) {fuel : Nat} {o : Outcome σ}
    (ho : printf E fuel format args w = some (some o)) : o.bytes ≠ out.1 := by
  have hne : format ≠ [] := by
    rintro rfl
    obtain ⟨p, hp, -⟩ := hbad
    cases hp
  rw [printf, if_neg hne] at ho
  obtain ⟨m, y, hm, hy⟩ := passes_first ho
  obtain ⟨r, z, hr, hz⟩ := printed_first hout
  obtain ⟨x, d, u, v, hrx, hmx, hd⟩ := pass_modified h0 0 hbad hm hr
  intro hbytes
  rw [hy, hz, hmx, hrx, List.append_assoc, List.append_assoc, List.append_cancel_left_eq] at hbytes
  exact hd (List.cons.inj hbytes).1.symm

/-- `printf` prints what it is to print, and reuses its format unchanged, if and only if the format
has no malformed time format with length modifiers. -/
theorem printf_reuses (E : Env σ) {format : List Nat} {args : List (List Nat)} {w : σ}
    {out : List Nat × σ} (h0 : 0 ∉ format) (hout : printed E format args w = some out) :
    (∃ n, ∀ fuel, n ≤ fuel → ∃ o, printf E fuel format args w = some (some o) ∧
      o.bytes = out.1 ∧ o.world = out.2 ∧ ∀ text ∈ o.texts, text = format) ↔
      ∀ p ∈ pieces E format, ¬p.Modified := by
  constructor
  · rintro ⟨n, hn⟩ p hp hmod
    obtain ⟨o, ho, hbytes, -, -⟩ := hn n (Nat.le_refl n)
    exact bytes_ne_of_modified h0 hout ⟨p, hp, hmod⟩ ho hbytes
  · intro hgood
    refine ⟨max format.length args.length + 1, fun fuel hfuel => ?_⟩
    by_cases hne : format = []
    · subst hne
      change runPasses E [] (chunks 0 args) w = some out at hout
      rw [chunks_last (Or.inl rfl)] at hout
      cases hout
      rw [printf, if_pos rfl]
      exact ⟨_, rfl, rfl, rfl, fun text ht => absurd ht List.not_mem_nil⟩
    · have hlen : format.length < fuel := by omega
      have hargs : (State.mk args 0 w).args.length < fuel := by
        dsimp only
        omega
      have hpasses := passes_good h0 hgood hlen hargs (Nat.le_refl _) (fun _ => rfl)
      change _ = some (Option.map _ (printed E format args w)) at hpasses
      rw [hout] at hpasses
      rw [printf, if_neg hne]
      refine ⟨_, hpasses, rfl, rfl, ?_⟩
      intro t ht
      obtain ⟨_, -, rfl⟩ := List.mem_map.mp ht
      rfl

/-- Single bytes, and `%s` without anything else. -/
def plainEnv : Env Unit where
  coding := Coding.bytes
  u32cconv _ := []
  strtoimax _ := ⟨0, false, false⟩
  asciicode _ := 0
  report _ w := w
  convert _ arg _ w := some (arg.getD [], w)

theorem printf_reuses_strings : ∃ n, ∀ fuel, n ≤ fuel → ∃ o,
    printf plainEnv fuel [37, 115, 58] [[97], [98]] () = some (some o) ∧
      o.bytes = [97, 58, 98, 58] ∧ o.world = () ∧ ∀ text ∈ o.texts, text = [37, 115, 58] := by
  have hout : printed plainEnv [37, 115, 58] [[97], [98]] () = some ([97, 58, 98, 58], ()) := by
    unfold printed
    rw [show needs (pieces plainEnv [37, 115, 58]) = 1 from rfl, chunks_more (by decide),
      chunks_last (by decide)]
    rfl
  exact (printf_reuses plainEnv (by decide) hout).mpr (by decide)

/-- `printf '%l(abc'` does not print its format. -/
theorem printf_modified :
    printed plainEnv [37, 108, 40, 97, 98, 99] [] () = some ([37, 108, 40, 97, 98, 99], ()) ∧
      ¬∃ n, ∀ fuel, n ≤ fuel → ∃ o,
        printf plainEnv fuel [37, 108, 40, 97, 98, 99] [] () = some (some o) ∧
          o.bytes = [37, 108, 40, 97, 98, 99] := by
  have hout : printed plainEnv [37, 108, 40, 97, 98, 99] [] () =
      some ([37, 108, 40, 97, 98, 99], ()) := by
    unfold printed
    rw [show needs (pieces plainEnv [37, 108, 40, 97, 98, 99]) = 0 from rfl, chunks_last (Or.inl rfl)]
    rfl
  refine ⟨hout, ?_⟩
  rintro ⟨n, hn⟩
  obtain ⟨o, ho, hbytes⟩ := hn n (Nat.le_refl n)
  exact bytes_ne_of_modified (by decide) hout (by decide) ho hbytes

end Basht.Printf
