import Mathlib.Data.List.TakeWhile
import Basht.Library.Insertions
import Basht.Window.HandOff

/-!
# Queries in the replay

`scrub_queries` goes over the prefix from one control sequence to the next (`Reaches`), and
leaves out those that end in `n` or `c`. A sequence ends at the first byte from `@` to `~`, so a
`[` ends one, and bytes that no terminal accepts as parameters do not.
-/

namespace Basht.Window

/-- A parameter or an intermediate byte. -/
def isParam (c : UInt8) : Bool := 0x20 ≤ c && c ≤ 0x3f

/-- The final byte of a query. -/
def isReport (c : UInt8) : Bool := c == 'n'.toUInt8 || c == 'c'.toUInt8

/-- What a terminal reads as a query. -/
def IsQuery (q : List UInt8) : Prop :=
  ∃ p f, q = 0x1b :: '['.toUInt8 :: (p ++ [f]) ∧ (∀ c ∈ p, isParam c = true) ∧ isReport f = true

/-- What is left of the input after one turn of the loop. -/
def afterTurn : List UInt8 → List UInt8
  | [] => []
  | c :: s =>
    if c = 0x1b ∧ s.head? = some '['.toUInt8 then (s.tail.dropWhile (!isFinal ·)).tail else s

/-- The loop of `scrub_queries` comes to the rest `t` of the input `s`. -/
inductive Reaches (s : List UInt8) : List UInt8 → Prop where
  | start : Reaches s s
  | turn {t : List UInt8} : Reaches s t → Reaches s (afterTurn t)

/-- What the loop takes for a query has only parameter bytes before its final byte. -/
def DropsQueries (s : List UInt8) : Prop :=
  ∀ x f b, Reaches s (0x1b :: '['.toUInt8 :: (x ++ f :: b)) → (∀ c ∈ x, isFinal c = false) →
    isReport f = true → ∀ c ∈ x, isParam c = true

/-- Where the bytes of a query stand with only queries between them, there is none between them
and the loop comes to the first of them. -/
def MeetsQueries (s : List UInt8) : Prop :=
  ∀ a p t f b, s = a ++ 0x1b :: (t ++ f :: b) → (∀ c ∈ p, isParam c = true) →
    isReport f = true → Inserted IsQuery ('['.toUInt8 :: p) t →
      t = '['.toUInt8 :: p ∧ Reaches s (0x1b :: (t ++ f :: b))

/-! ## Bytes -/

theorem not_isFinal_of_isParam {c : UInt8} (h : isParam c = true) : isFinal c = false := by
  unfold isParam at h
  unfold isFinal
  simp only [Bool.and_eq_true, decide_eq_true_eq, Bool.and_eq_false_iff,
    decide_eq_false_iff_not] at h ⊢
  refine Or.inl fun hc => ?_
  exact absurd (UInt8.le_trans hc h.2) (by decide)

theorem isReport_cases {f : UInt8} (h : isReport f = true) :
    f = 'n'.toUInt8 ∨ f = 'c'.toUInt8 := by
  unfold isReport at h
  simpa only [Bool.or_eq_true, beq_iff_eq] using h

theorem isFinal_of_isReport {f : UInt8} (h : isReport f = true) : isFinal f = true := by
  rcases isReport_cases h with rfl | rfl <;> decide

theorem report_ne {f : UInt8} (h : isReport f = true) : f ≠ 0x1b := by
  rcases isReport_cases h with rfl | rfl <;> decide

theorem bracket_params_ne {p : List UInt8} (hp : ∀ c ∈ p, isParam c = true) :
    ∀ c ∈ '['.toUInt8 :: p, c ≠ 0x1b := by
  intro c hc hesc
  rcases List.mem_cons.mp hc with hc | hc
  · rw [hesc] at hc
    exact absurd hc (by decide)
  · have hparam := hp c hc
    rw [hesc] at hparam
    cases hparam

theorem unfinished_escape {x : List UInt8} (hx : ∀ c ∈ x, isFinal c = false) :
    ∀ c ∈ x ++ [0x1b], isFinal c = false := by
  intro c hc
  rcases List.mem_append.mp hc with hc | hc
  · exact hx c hc
  · rw [List.mem_singleton.mp hc]
    decide

theorem isFinal_bracket : isFinal '['.toUInt8 = true := by decide

/-! ## Turns of the loop -/

theorem takeWhile_params {x : List UInt8} (hx : ∀ c ∈ x, isFinal c = false) {f : UInt8}
    (hf : isFinal f = true) (b : List UInt8) :
    (x ++ f :: b).takeWhile (!isFinal ·) = x ∧ (x ++ f :: b).dropWhile (!isFinal ·) = f :: b := by
  have hall : ∀ c ∈ x, (!isFinal c) = true := by
    intro c hc
    rw [hx c hc]
    rfl
  have hstop : ¬(fun c => !isFinal c) f = true := by
    change ¬(!isFinal f) = true
    rw [hf]
    decide
  constructor
  · rw [List.takeWhile_append_of_pos hall, List.takeWhile_cons_of_neg (p := (!isFinal ·)) hstop,
      List.append_nil]
  · rw [List.dropWhile_append_of_pos hall, List.dropWhile_cons_of_neg (p := (!isFinal ·)) hstop]

theorem takeWhile_tail {x : List UInt8} (hx : ∀ c ∈ x, isFinal c = false) :
    x.takeWhile (!isFinal ·) = x ∧ x.dropWhile (!isFinal ·) = [] := by
  have hall : ∀ c ∈ x, (!isFinal c) = true := by
    intro c hc
    rw [hx c hc]
    rfl
  exact ⟨List.takeWhile_eq_self_iff.mpr hall, List.dropWhile_eq_nil_iff.mpr hall⟩

/-- The loop takes a byte, a control sequence, or an unfinished one at the end. -/
theorem turn_induction {P : List UInt8 → Prop} (nil : P [])
    (byte : ∀ c s, ¬(c = 0x1b ∧ s.head? = some '['.toUInt8) → P s → P (c :: s))
    (seq : ∀ x f s, (∀ c ∈ x, isFinal c = false) → isFinal f = true → P s →
      P (0x1b :: '['.toUInt8 :: (x ++ f :: s)))
    (tail : ∀ x, (∀ c ∈ x, isFinal c = false) → P (0x1b :: '['.toUInt8 :: x)) (s : List UInt8) :
    P s := by
  induction hn : s.length using Nat.strongRecOn generalizing s with
  | ind n ih =>
    cases s with
    | nil => exact nil
    | cons c s =>
      by_cases hstart : c = 0x1b ∧ s.head? = some '['.toUInt8
      · obtain ⟨rfl, hhead⟩ := hstart
        obtain ⟨u, rfl⟩ : ∃ u, s = '['.toUInt8 :: u := by
          cases s with
          | nil => cases hhead
          | cons d u =>
            cases hhead
            exact ⟨u, rfl⟩
        have hsplit := List.takeWhile_append_dropWhile (p := (!isFinal ·)) (l := u)
        have hparams : ∀ c ∈ u.takeWhile (!isFinal ·), isFinal c = false := by
          intro c hc
          simpa only [Bool.not_eq_true'] using List.mem_takeWhile_imp hc
        cases hrest : u.dropWhile (!isFinal ·) with
        | nil =>
          rw [hrest, List.append_nil] at hsplit
          rw [← hsplit]
          exact tail _ hparams
        | cons f b =>
          have hf : isFinal f = true := by
            have hhead := List.head?_dropWhile_not (!isFinal ·) u
            rw [hrest] at hhead
            simpa only [List.head?_cons, Bool.not_eq_false'] using hhead
          rw [hrest] at hsplit
          rw [← hsplit]
          refine seq _ f b hparams hf (ih b.length ?_ b rfl)
          have hlen := congrArg List.length hsplit
          rw [List.length_append, List.length_cons] at hlen
          rw [List.length_cons, List.length_cons] at hn
          omega
      · refine byte c s hstart (ih s.length ?_ s rfl)
        rw [List.length_cons] at hn
        omega

section Turns

variable {c f : UInt8} {s x : List UInt8}

theorem afterTurn_byte (h : ¬(c = 0x1b ∧ s.head? = some '['.toUInt8)) :
    afterTurn (c :: s) = s := if_neg h

theorem afterTurn_seq (hx : ∀ c ∈ x, isFinal c = false) (hf : isFinal f = true) :
    afterTurn (0x1b :: '['.toUInt8 :: (x ++ f :: s)) = s := by
  rw [afterTurn, if_pos ⟨rfl, rfl⟩, List.tail_cons, (takeWhile_params hx hf s).2, List.tail_cons]

theorem afterTurn_tail (hx : ∀ c ∈ x, isFinal c = false) :
    afterTurn (0x1b :: '['.toUInt8 :: x) = [] := by
  rw [afterTurn, if_pos ⟨rfl, rfl⟩, List.tail_cons, (takeWhile_tail hx).2, List.tail_nil]

theorem length_afterTurn (c : UInt8) (s : List UInt8) :
    (afterTurn (c :: s)).length ≤ s.length := by
  rw [afterTurn]
  split
  · have hdrop := List.length_dropWhile_le (!isFinal ·) s.tail
    rw [List.length_tail] at hdrop ⊢
    omega
  · exact Nat.le_refl _

theorem reaches_iff {t : List UInt8} : Reaches s t ↔ t = s ∨ Reaches (afterTurn s) t := by
  constructor
  · intro h
    induction h with
    | start => exact Or.inl rfl
    | turn _ ih =>
      rcases ih with rfl | ih
      · exact Or.inr .start
      · exact Or.inr ih.turn
  · intro h
    rcases h with rfl | h
    · exact .start
    · induction h with
      | start => exact .turn .start
      | turn _ ih => exact ih.turn

theorem Reaches.length_le {t : List UInt8} (h : Reaches s t) : t.length ≤ s.length := by
  induction h with
  | start => exact Nat.le_refl _
  | @turn t _ ih =>
    cases t with
    | nil => exact ih
    | cons c t =>
      have hturn := length_afterTurn c t
      rw [List.length_cons] at ih
      omega

theorem Reaches.trans {t u : List UInt8} (h : Reaches s t) (h' : Reaches t u) : Reaches s u := by
  induction h' with
  | start => exact h
  | turn _ ih => exact ih.turn

theorem scrubLoop_byte {n : Nat} (h : ¬(c = 0x1b ∧ s.head? = some '['.toUInt8)) :
    scrubLoop (n + 1) (c :: s) = c :: scrubLoop n s := if_neg h

theorem scrubLoop_seq {n : Nat} (hx : ∀ c ∈ x, isFinal c = false) (hf : isFinal f = true) :
    scrubLoop (n + 1) (0x1b :: '['.toUInt8 :: (x ++ f :: s)) =
      if isReport f = true then scrubLoop n s
      else 0x1b :: '['.toUInt8 :: (x ++ f :: scrubLoop n s) := by
  have hsplit := takeWhile_params hx hf s
  rw [scrubLoop, if_pos ⟨rfl, rfl⟩]
  simp only [List.tail_cons, hsplit.1, hsplit.2]
  by_cases hreport : isReport f = true
  · rw [if_pos hreport, if_pos (isReport_cases hreport)]
  · rw [if_neg hreport, if_neg]
    · rfl
    · intro hcases
      apply hreport
      rcases hcases with rfl | rfl <;> decide

theorem scrubLoop_tail {n : Nat} (hx : ∀ c ∈ x, isFinal c = false) :
    scrubLoop (n + 1) (0x1b :: '['.toUInt8 :: x) = 0x1b :: '['.toUInt8 :: x := by
  have hsplit := takeWhile_tail hx
  rw [scrubLoop, if_pos ⟨rfl, rfl⟩]
  simp only [List.tail_cons, hsplit.1, hsplit.2]

/-- As many turns as there are bytes are enough. -/
theorem scrubLoop_eq (s : List UInt8) : ∀ n, s.length ≤ n → scrubLoop n s = scrubQueries s := by
  unfold scrubQueries
  induction s using turn_induction with
  | nil =>
    intro n _
    cases n <;> rfl
  | byte c s h ih =>
    intro n hn
    obtain ⟨m, rfl⟩ := Nat.exists_eq_add_of_le' (Nat.lt_of_lt_of_le (Nat.succ_pos _) hn)
    rw [scrubLoop_byte h, List.length_cons, scrubLoop_byte h, ih m (Nat.le_of_succ_le_succ hn)]
  | seq x f s hx hf ih =>
    intro n hn
    obtain ⟨m, rfl⟩ := Nat.exists_eq_add_of_le' (Nat.lt_of_lt_of_le (Nat.succ_pos _) hn)
    simp only [List.length_cons, List.length_append] at hn ⊢
    rw [scrubLoop_seq hx hf, scrubLoop_seq hx hf, ih m (by omega),
      ih (x.length + (s.length + 1) + 1) (by omega)]
  | tail x hx =>
    intro n hn
    obtain ⟨m, rfl⟩ := Nat.exists_eq_add_of_le' (Nat.lt_of_lt_of_le (Nat.succ_pos _) hn)
    rw [scrubLoop_tail hx, List.length_cons, scrubLoop_tail hx]

theorem scrubQueries_byte (h : ¬(c = 0x1b ∧ s.head? = some '['.toUInt8)) :
    scrubQueries (c :: s) = c :: scrubQueries s := scrubLoop_byte h

theorem scrubQueries_seq (hx : ∀ c ∈ x, isFinal c = false) (hf : isFinal f = true) :
    scrubQueries (0x1b :: '['.toUInt8 :: (x ++ f :: s)) =
      if isReport f = true then scrubQueries s
      else 0x1b :: '['.toUInt8 :: (x ++ f :: scrubQueries s) := by
  have hlen : s.length ≤ ('['.toUInt8 :: (x ++ f :: s)).length := by
    rw [List.length_cons, List.length_append, List.length_cons]
    omega
  rw [scrubQueries, List.length_cons, scrubLoop_seq hx hf, scrubLoop_eq s _ hlen]

theorem scrubQueries_tail (hx : ∀ c ∈ x, isFinal c = false) :
    scrubQueries (0x1b :: '['.toUInt8 :: x) = 0x1b :: '['.toUInt8 :: x := scrubLoop_tail hx

theorem not_start_of_ne (h : c ≠ 0x1b) : ¬(c = 0x1b ∧ s.head? = some '['.toUInt8) :=
  fun hstart => h hstart.1

theorem scrubQueries_query {q : List UInt8} (h : IsQuery q) :
    scrubQueries (q ++ s) = scrubQueries s := by
  obtain ⟨p, f, rfl, hp, hf⟩ := h
  rw [List.cons_append, List.cons_append, List.append_assoc, List.singleton_append,
    scrubQueries_seq (fun c hc => not_isFinal_of_isParam (hp c hc)) (isFinal_of_isReport hf),
    if_pos hf]

/-- Bytes with queries between them lose the queries. -/
theorem scrubQueries_inserted {w t : List UInt8} (h : Inserted IsQuery w t)
    (hw : ∀ c ∈ w, c ≠ 0x1b) (s : List UInt8) :
    scrubQueries (t ++ s) = w ++ scrubQueries s := by
  induction h with
  | nil => rfl
  | keep c _ ih =>
    rw [List.cons_append, scrubQueries_byte (not_start_of_ne (hw c List.mem_cons_self)),
      ih fun d hd => hw d (List.mem_cons_of_mem _ hd)]
    rfl
  | block hq _ ih => rw [List.append_assoc, scrubQueries_query hq, ih hw]

/-- What the loop has written when it comes to the rest `t` stays. -/
theorem Reaches.written {t : List UInt8} (h : Reaches s t) :
    ∃ out, scrubQueries s = out ++ scrubQueries t := by
  induction h with
  | start => exact ⟨[], rfl⟩
  | @turn t _ ih =>
    obtain ⟨out, hout⟩ := ih
    suffices hturn : ∃ out', scrubQueries t = out' ++ scrubQueries (afterTurn t) by
      obtain ⟨out', hout'⟩ := hturn
      exact ⟨out ++ out', by rw [hout, hout', List.append_assoc]⟩
    induction t using turn_induction with
    | nil => exact ⟨[], rfl⟩
    | byte c u hc =>
      rw [afterTurn_byte hc, scrubQueries_byte hc]
      exact ⟨[c], rfl⟩
    | seq x f u hx hf =>
      rw [afterTurn_seq hx hf, scrubQueries_seq hx hf]
      split
      · exact ⟨[], rfl⟩
      · exact ⟨0x1b :: '['.toUInt8 :: (x ++ [f]), by simp⟩
    | tail x hx =>
      rw [afterTurn_tail hx]
      exact ⟨_, (List.append_nil _).symm⟩

end Turns

/-! ## What is left out -/

/-- A byte that can stand in a control sequence, and that the loop does not take for its end, is
no parameter. -/
def isStray (c : UInt8) : Bool := !isFinal c && !isParam c

theorem countP_query {q : List UInt8} (h : IsQuery q) :
    q.countP isStray = q.countP (· == '['.toUInt8) := by
  obtain ⟨p, f, rfl, hp, hf⟩ := h
  have hstray : p.countP isStray = 0 := by
    rw [List.countP_eq_zero]
    intro c hc
    rw [isStray, hp c hc]
    simp
  have hbracket : p.countP (· == '['.toUInt8) = 0 := by
    rw [List.countP_eq_zero]
    intro c hc hb
    have hfinal := not_isFinal_of_isParam (hp c hc)
    rw [beq_iff_eq.mp hb] at hfinal
    cases hfinal
  simp only [List.countP_cons, List.countP_append, List.countP_nil, hstray, hbracket]
  rcases isReport_cases hf with rfl | rfl <;> decide

theorem params_unique {x x' s s' : List UInt8} {f f' : UInt8} (hx : ∀ c ∈ x, isFinal c = false)
    (hf : isFinal f = true) (hx' : ∀ c ∈ x', isFinal c = false) (hf' : isFinal f' = true)
    (h : x ++ f :: s = x' ++ f' :: s') : x = x' ∧ f = f' ∧ s = s' := by
  obtain ⟨hparams, hrest⟩ := takeWhile_params hx hf s
  obtain ⟨hparams', hrest'⟩ := takeWhile_params hx' hf' s'
  rw [h, hparams'] at hparams
  rw [h, hrest'] at hrest
  obtain ⟨rfl, rfl⟩ := List.cons.inj hrest
  exact ⟨hparams.symm, rfl, rfl⟩

section Drops

variable {c f : UInt8} {s x : List UInt8}

theorem dropsQueries_nil : DropsQueries [] := by
  intro x f b hreach
  exact absurd hreach.length_le (by simp)

theorem dropsQueries_byte (h : ¬(c = 0x1b ∧ s.head? = some '['.toUInt8)) :
    DropsQueries (c :: s) ↔ DropsQueries s := by
  constructor
  · intro hdrops x f b hreach
    apply hdrops x f b
    rw [reaches_iff, afterTurn_byte h]
    exact Or.inr hreach
  · intro hdrops x f b hreach
    rw [reaches_iff, afterTurn_byte h] at hreach
    rcases hreach with heq | hreach
    · cases heq
      exact absurd ⟨rfl, rfl⟩ h
    · exact hdrops x f b hreach

theorem dropsQueries_seq (hx : ∀ c ∈ x, isFinal c = false) (hf : isFinal f = true) :
    DropsQueries (0x1b :: '['.toUInt8 :: (x ++ f :: s)) ↔
      (isReport f = true → ∀ c ∈ x, isParam c = true) ∧ DropsQueries s := by
  constructor
  · intro hdrops
    refine ⟨fun hreport => hdrops x f s .start hx hreport, ?_⟩
    intro x' f' b hreach
    apply hdrops x' f' b
    rw [reaches_iff, afterTurn_seq hx hf]
    exact Or.inr hreach
  · intro h x' f' b hreach hx' hreport
    rw [reaches_iff, afterTurn_seq hx hf] at hreach
    rcases hreach with heq | hreach
    · obtain ⟨rfl, rfl, -⟩ := params_unique hx' (isFinal_of_isReport hreport) hx hf
        (List.cons.inj (List.cons.inj heq).2).2
      exact h.1 hreport
    · exact h.2 x' f' b hreach hx' hreport

theorem dropsQueries_tail (hx : ∀ c ∈ x, isFinal c = false) :
    DropsQueries (0x1b :: '['.toUInt8 :: x) := by
  intro x' f b hreach hx' hreport
  rw [reaches_iff, afterTurn_tail hx] at hreach
  rcases hreach with heq | hreach
  · have hfx : isFinal f = false := by
      apply hx
      rw [← (List.cons.inj (List.cons.inj heq).2).2]
      exact List.mem_append_right _ List.mem_cons_self
    rw [isFinal_of_isReport hreport] at hfx
    cases hfx
  · exact absurd hreach.length_le (by simp)

end Drops

theorem countP_unfinished {x : List UInt8} (hx : ∀ c ∈ x, isFinal c = false) :
    x.countP (· == '['.toUInt8) = 0 ∧
      (x.countP isStray = 0 → ∀ c ∈ x, isParam c = true) := by
  constructor
  · rw [List.countP_eq_zero]
    intro c hc hb
    have hfinal := hx c hc
    rw [beq_iff_eq.mp hb] at hfinal
    cases hfinal
  · intro hzero c hc
    have hstray := List.countP_eq_zero.mp hzero c hc
    rw [isStray, hx c hc] at hstray
    simpa using hstray

/-- Relative to the brackets, the stray bytes do not become more; and they become fewer if a
sequence is dropped that has one. -/
theorem scrubQueries_stray (s : List UInt8) :
    (scrubQueries s).countP isStray + s.countP (· == '['.toUInt8) ≤
        s.countP isStray + (scrubQueries s).countP (· == '['.toUInt8) ∧
      ((scrubQueries s).countP isStray + s.countP (· == '['.toUInt8) =
        s.countP isStray + (scrubQueries s).countP (· == '['.toUInt8) → DropsQueries s) := by
  induction s using turn_induction with
  | nil => exact ⟨Nat.le_refl _, fun _ => dropsQueries_nil⟩
  | byte c s h ih =>
    obtain ⟨hle, heq⟩ := ih
    rw [scrubQueries_byte h, dropsQueries_byte h]
    simp only [List.countP_cons]
    refine ⟨by omega, fun hsum => heq (by omega)⟩
  | tail x hx =>
    rw [scrubQueries_tail hx]
    exact ⟨Nat.le_refl _, fun _ => dropsQueries_tail hx⟩
  | seq x f s hx hf ih =>
    obtain ⟨hle, heq⟩ := ih
    rw [scrubQueries_seq hx hf, dropsQueries_seq hx hf]
    obtain ⟨hbracket, hparams⟩ := countP_unfinished hx
    split
    · rename_i hreport
      have hstrayF : isStray f = false := by
        rw [isStray, hf]
        rfl
      have hbracketF : (f == '['.toUInt8) = false := by
        rcases isReport_cases hreport with rfl | rfl <;> decide
      have hstrayE : isStray 0x1b = true := by decide
      have hstrayB : isStray '['.toUInt8 = false := by decide
      have hbracketE : ((0x1b : UInt8) == '['.toUInt8) = false := by decide
      simp only [List.countP_cons, List.countP_append, hbracket, hstrayF, hbracketF, hstrayE,
        hstrayB, hbracketE, beq_self_eq_true, if_true, Bool.false_eq_true, if_false]
      refine ⟨by omega, fun hsum => ⟨fun _ => hparams (by omega), heq (by omega)⟩⟩
    · rename_i hkept
      simp only [List.countP_cons, List.countP_append]
      refine ⟨by omega, fun hsum => ⟨fun hreport => absurd hreport hkept, heq (by omega)⟩⟩

/-- Only queries are left out if and only if every sequence that is dropped is one. -/
theorem inserted_iff_dropsQueries (s : List UInt8) :
    Inserted IsQuery (scrubQueries s) s ↔ DropsQueries s := by
  constructor
  · intro h
    apply (scrubQueries_stray s).2
    have hcount := h.countP fun q hq => countP_query hq
    omega
  · intro h
    induction s using turn_induction with
    | nil => exact .nil
    | byte c s hc ih =>
      rw [scrubQueries_byte hc]
      exact (ih ((dropsQueries_byte hc).mp h)).keep c
    | tail x hx =>
      rw [scrubQueries_tail hx]
      exact .refl _
    | seq x f s hx hf ih =>
      obtain ⟨hparams, hrest⟩ := (dropsQueries_seq hx hf).mp h
      rw [scrubQueries_seq hx hf]
      split
      · rename_i hreport
        have hsplit : 0x1b :: '['.toUInt8 :: (x ++ f :: s) =
            (0x1b :: '['.toUInt8 :: (x ++ [f])) ++ s := by simp
        rw [hsplit]
        exact .block ⟨x, f, rfl, hparams hreport, hreport⟩ (ih hrest)
      · have hsplit : ∀ u, 0x1b :: '['.toUInt8 :: (x ++ f :: u) =
            (0x1b :: '['.toUInt8 :: (x ++ [f])) ++ u := by simp
        rw [hsplit, hsplit s]
        exact (ih hrest).prepend _

/-! ## What is left -/

/-- No query is left in the output. -/
def NoQuery (out : List UInt8) : Prop := ∀ q, IsQuery q → ¬q <:+: out

section Left

variable {s t v w x : List UInt8}

theorem Reaches.noQuery (h : Reaches s t) (hs : NoQuery (scrubQueries s)) :
    NoQuery (scrubQueries t) := by
  obtain ⟨out, hout⟩ := h.written
  intro q hq hinfix
  apply hs q hq
  rw [hout]
  exact hinfix.trans (List.suffix_append _ _).isInfix

/-- At an escape byte the loop stands between two sequences, or in an unfinished one. -/
theorem reaches_or_inside (a : List UInt8) (h : s = a ++ 0x1b :: v) :
    Reaches s (0x1b :: v) ∨
      ∃ x, (∀ c ∈ x, isFinal c = false) ∧
        Reaches s (0x1b :: '['.toUInt8 :: (x ++ 0x1b :: v)) := by
  have hesc : isFinal 0x1b = false := by decide
  induction s using turn_induction generalizing a with
  | nil => exact absurd h (by simp)
  | byte c s hc ih =>
    cases a with
    | nil =>
      rw [h]
      exact Or.inl .start
    | cons d a =>
      obtain ⟨rfl, hrest⟩ := List.cons.inj h
      rcases ih a hrest with hreach | ⟨x, hx, hreach⟩
      · refine Or.inl (reaches_iff.mpr (Or.inr ?_))
        rw [afterTurn_byte hc]
        exact hreach
      · refine Or.inr ⟨x, hx, reaches_iff.mpr (Or.inr ?_)⟩
        rw [afterTurn_byte hc]
        exact hreach
  | tail y hy =>
    rcases a with - | ⟨d, - | ⟨e, a⟩⟩
    · rw [h]
      exact Or.inl .start
    · exact absurd (List.cons.inj (List.cons.inj h).2).1 (by decide)
    · obtain ⟨rfl, hrest⟩ := List.cons.inj h
      obtain ⟨rfl, rfl⟩ := List.cons.inj hrest
      exact Or.inr ⟨a, fun c hc => hy c (List.mem_append_left _ hc), .start⟩
  | seq y f s hy hf ih =>
    rcases a with - | ⟨d, - | ⟨e, a⟩⟩
    · rw [h]
      exact Or.inl .start
    · exact absurd (List.cons.inj (List.cons.inj h).2).1 (by decide)
    · obtain ⟨rfl, hrest⟩ := List.cons.inj h
      obtain ⟨rfl, hrest₂⟩ := List.cons.inj hrest
      rcases List.append_eq_append_iff.mp hrest₂ with ⟨l, hl, hl'⟩ | ⟨l, hl, hl'⟩
      · cases l with
        | nil =>
          obtain ⟨rfl, -⟩ := List.cons.inj hl'
          rw [hesc] at hf
          cases hf
        | cons g l =>
          obtain ⟨rfl, htail⟩ := List.cons.inj hl'
          rcases ih l htail with hreach | ⟨x, hx, hreach⟩
          · refine Or.inl (reaches_iff.mpr (Or.inr ?_))
            rw [afterTurn_seq hy hf]
            exact hreach
          · refine Or.inr ⟨x, hx, reaches_iff.mpr (Or.inr ?_)⟩
            rw [afterTurn_seq hy hf]
            exact hreach
      · refine Or.inr ⟨a, fun c hc => hy c ?_, ?_⟩
        · rw [hl]
          exact List.mem_append_left _ hc
        · rw [show a ++ 0x1b :: v = y ++ f :: s from hrest₂.symm]
          exact .start

/-- A query whose introducer ends an unfinished sequence is left. -/
theorem query_of_unmet {p b : List UInt8} {f : UInt8} (hx : ∀ c ∈ x, isFinal c = false)
    (hp : ∀ c ∈ p, isParam c = true) (hf : isReport f = true) (hin : Inserted IsQuery p t) :
    ¬NoQuery (scrubQueries
      (0x1b :: '['.toUInt8 :: (x ++ 0x1b :: '['.toUInt8 :: (t ++ f :: b)))) := by
  have hparams := unfinished_escape hx
  have hne : ∀ c ∈ p, c ≠ 0x1b := fun c hc => bracket_params_ne hp c (List.mem_cons_of_mem _ hc)
  have hfesc := report_ne hf
  have hsplit : x ++ 0x1b :: '['.toUInt8 :: (t ++ f :: b) =
      (x ++ [0x1b]) ++ '['.toUInt8 :: (t ++ f :: b) := by simp
  have hout : scrubQueries (0x1b :: '['.toUInt8 :: (x ++ 0x1b :: '['.toUInt8 :: (t ++ f :: b))) =
      0x1b :: '['.toUInt8 :: (x ++ [0x1b] ++ '['.toUInt8 :: (p ++ f :: scrubQueries b)) := by
    rw [hsplit, scrubQueries_seq hparams isFinal_bracket, if_neg (by decide),
      scrubQueries_inserted hin hne, scrubQueries_byte (not_start_of_ne hfesc)]
  intro h
  refine h (0x1b :: '['.toUInt8 :: (p ++ [f])) ⟨p, f, rfl, hp, hf⟩ ?_
  rw [hout]
  exact ⟨0x1b :: '['.toUInt8 :: x, scrubQueries b, by simp⟩

theorem meetsQueries_of_noQuery (h : NoQuery (scrubQueries s)) : MeetsQueries s := by
  intro a p t f b hs hp hf hin
  have hfesc := report_ne hf
  rcases reaches_or_inside a hs with hreach | ⟨x, hx, hreach⟩
  · have hleft := hreach.noQuery h
    cases hin with
    | keep _ hin =>
      rename_i t
      rcases hin.eq_or_first with rfl | ⟨us, vs, q, zs, rfl, ⟨p', g, rfl, hp', hg⟩, rfl⟩
      · exact ⟨rfl, hreach⟩
      · -- the first query in between is left
        refine absurd hleft ?_
        have hus : ∀ c ∈ us, isFinal c = false := fun c hc =>
          not_isFinal_of_isParam (hp c (List.mem_append_left _ hc))
        rw [show '['.toUInt8 :: (us ++ (0x1b :: '['.toUInt8 :: (p' ++ [g]) ++ zs)) ++ f :: b =
          '['.toUInt8 :: (us ++ 0x1b :: '['.toUInt8 :: (p' ++ g :: (zs ++ f :: b))) by simp]
        exact query_of_unmet hus hp' hg (.refl p')
    | block hq hin =>
      -- the loop takes the escape byte for itself, and removes what stands behind it
      rename_i q t
      have hne := bracket_params_ne hp
      have hbyte : ¬((0x1b : UInt8) = 0x1b ∧ (q ++ t ++ f :: b).head? = some '['.toUInt8) := by
        obtain ⟨p', g, rfl, -, -⟩ := hq
        intro hstart
        exact absurd (Option.some.inj hstart.2) (by decide)
      refine absurd ⟨[], scrubQueries b, ?_⟩ (hleft (0x1b :: '['.toUInt8 :: (p ++ [f]))
        ⟨p, f, rfl, hp, hf⟩)
      rw [scrubQueries_byte hbyte, scrubQueries_inserted (.block hq hin) hne,
        scrubQueries_byte (not_start_of_ne hfesc)]
      simp
  · have hleft := hreach.noQuery h
    refine absurd hleft ?_
    cases hin with
    | keep _ hin => exact query_of_unmet hx hp hf hin
    | block hq hin =>
      rename_i q t
      obtain ⟨p', g, rfl, hp', hg⟩ := hq
      have hx' := unfinished_escape hx
      rw [show x ++ 0x1b :: (0x1b :: '['.toUInt8 :: (p' ++ [g]) ++ t ++ f :: b) =
        x ++ [0x1b] ++ 0x1b :: '['.toUInt8 :: (p' ++ g :: (t ++ f :: b)) by simp]
      exact query_of_unmet hx' hp' hg (.refl p')

theorem not_prefix_escape {f : UInt8} (hw : ∀ c ∈ w, c ≠ 0x1b) (hf : f ≠ 0x1b)
    (u : List UInt8) : ¬w ++ [f] <+: 0x1b :: u := by
  intro hu
  cases w with
  | nil => exact hf (List.cons_prefix_cons.mp hu).1
  | cons c w => exact hw c List.mem_cons_self (List.cons_prefix_cons.mp hu).1

/-- Bytes at the head of the output, and where they come from. -/
theorem inserted_of_prefix {f : UInt8} (hdrops : DropsQueries s) (hw : ∀ c ∈ w, c ≠ 0x1b)
    (hf : f ≠ 0x1b) (h : w ++ [f] <+: scrubQueries s) :
    ∃ t b, s = t ++ f :: b ∧ Inserted IsQuery w t := by
  induction s using turn_induction generalizing w with
  | nil => exact absurd (List.prefix_nil.mp h) (by simp)
  | byte c s hc ih =>
    rw [scrubQueries_byte hc] at h
    have hrest := (dropsQueries_byte hc).mp hdrops
    cases w with
    | nil =>
      obtain ⟨rfl, -⟩ := List.cons_prefix_cons.mp h
      exact ⟨[], s, rfl, .nil⟩
    | cons d w =>
      obtain ⟨rfl, hprefix⟩ := List.cons_prefix_cons.mp h
      obtain ⟨t, b, rfl, hin⟩ := ih hrest (fun c hc => hw c (List.mem_cons_of_mem _ hc)) hprefix
      exact ⟨d :: t, b, rfl, hin.keep d⟩
  | tail x hx =>
    rw [scrubQueries_tail hx] at h
    exact absurd h (not_prefix_escape hw hf _)
  | seq x g s hx hg ih =>
    obtain ⟨hparams, hrest⟩ := (dropsQueries_seq hx hg).mp hdrops
    rw [scrubQueries_seq hx hg] at h
    split at h
    · rename_i hreport
      obtain ⟨t, b, rfl, hin⟩ := ih hrest hw h
      refine ⟨0x1b :: '['.toUInt8 :: (x ++ [g]) ++ t, b, by simp, ?_⟩
      exact .block ⟨x, g, rfl, hparams hreport, hreport⟩ hin
    · exact absurd h (not_prefix_escape hw hf _)

theorem Reaches.linear {u : List UInt8} (h : Reaches s t) (h' : Reaches s u) :
    Reaches t u ∨ Reaches u t := by
  induction h with
  | start => exact Or.inl h'
  | turn _ ih =>
    rcases ih with ih | ih
    · rcases reaches_iff.mp ih with rfl | ih
      · exact Or.inr (.turn .start)
      · exact Or.inl ih
    · exact Or.inr ih.turn

theorem Reaches.suffix (h : Reaches s t) : t <:+ s := by
  induction h with
  | start => exact List.suffix_refl _
  | @turn t _ ih =>
    refine List.IsSuffix.trans ?_ ih
    induction t using turn_induction with
    | nil => exact List.suffix_refl _
    | byte c u hc =>
      rw [afterTurn_byte hc]
      exact List.suffix_cons _ _
    | seq x f u hx hf =>
      rw [afterTurn_seq hx hf]
      exact ⟨0x1b :: '['.toUInt8 :: (x ++ [f]), by simp⟩
    | tail x hx =>
      rw [afterTurn_tail hx]
      exact List.nil_suffix

/-- What holds of the input holds of the rest that the loop comes to. -/
theorem MeetsQueries.reaches (h : MeetsQueries s) (hreach : Reaches s t) : MeetsQueries t := by
  intro a p u f b ht hp hf hin
  obtain ⟨pre, hpre⟩ := hreach.suffix
  have hs : s = (pre ++ a) ++ 0x1b :: (u ++ f :: b) := by
    rw [← hpre, ht, List.append_assoc]
  obtain ⟨hu, hmet⟩ := h (pre ++ a) p u f b hs hp hf hin
  refine ⟨hu, ?_⟩
  rcases hreach.linear hmet with hfrom | hto
  · exact hfrom
  · have hlen := hto.length_le
    have hsuffix : 0x1b :: (u ++ f :: b) <:+ t := ⟨a, ht.symm⟩
    have heq := hsuffix.eq_of_length_le hlen
    rw [← heq]
    exact .start

/-- Where an infix of an appended list begins. -/
theorem infix_append_cases {q : List UInt8} (h : q <:+: x ++ t) :
    q <:+: t ∨ ∃ x₁ x₂, x = x₁ ++ x₂ ∧ x₂ ≠ [] ∧ q <+: x₂ ++ t := by
  induction x with
  | nil => exact Or.inl h
  | cons c x ih =>
    rcases List.infix_cons_iff.mp h with hprefix | hinfix
    · exact Or.inr ⟨[], c :: x, rfl, List.cons_ne_nil _ _, hprefix⟩
    · rcases ih hinfix with hrest | ⟨x₁, x₂, rfl, hne, hprefix⟩
      · exact Or.inl hrest
      · exact Or.inr ⟨c :: x₁, x₂, rfl, hne, hprefix⟩

/-- A query that begins inside a kept sequence begins with the last two bytes of it. -/
theorem unfinished_end {a y u p : List UInt8} {f g : UInt8} (hx : ∀ c ∈ x, isFinal c = false)
    (hg : isFinal g = true) (hcut : x ++ [g] = a ++ y) (hne : y ≠ [])
    (h : 0x1b :: '['.toUInt8 :: (p ++ [f]) <+: y ++ u) :
    x = a ++ [0x1b] ∧ g = '['.toUInt8 ∧ p ++ [f] <+: u := by
  rcases y with - | ⟨c, - | ⟨d, y⟩⟩
  · exact absurd rfl hne
  · obtain ⟨rfl, -⟩ := List.cons_prefix_cons.mp h
    obtain ⟨-, hlast⟩ := List.append_inj' hcut rfl
    obtain ⟨rfl, -⟩ := List.cons.inj hlast
    exact absurd hg (by decide)
  · obtain ⟨rfl, hrest⟩ := List.cons_prefix_cons.mp h
    obtain ⟨rfl, hbytes⟩ := List.cons_prefix_cons.mp hrest
    rcases List.eq_nil_or_concat y with rfl | ⟨z, l, rfl⟩
    · have hcut' : x ++ [g] = (a ++ [0x1b]) ++ ['['.toUInt8] := by
        rw [hcut, List.append_assoc]
        rfl
      obtain ⟨rfl, hlast⟩ := List.append_inj' hcut' rfl
      exact ⟨rfl, (List.cons.inj hlast).1, hbytes⟩
    · have hcut' : x ++ [g] = (a ++ 0x1b :: '['.toUInt8 :: z) ++ [l] := by
        rw [hcut]
        simp
      obtain ⟨rfl, -⟩ := List.append_inj' hcut' rfl
      have hbracket := hx '['.toUInt8 (by simp)
      rw [isFinal_bracket] at hbracket
      cases hbracket

theorem noQuery_of_meetsQueries (hdrops : DropsQueries s) (hmeets : MeetsQueries s) :
    NoQuery (scrubQueries s) := by
  induction s using turn_induction with
  | nil =>
    intro q hq hinfix
    obtain ⟨p, f, rfl, -⟩ := hq
    exact absurd (List.infix_nil.mp hinfix) (List.cons_ne_nil _ _)
  | tail x hx =>
    intro q hq hinfix
    rw [scrubQueries_tail hx] at hinfix
    obtain ⟨p, f, rfl, hp, hf⟩ := hq
    have hmem : f ∈ 0x1b :: '['.toUInt8 :: x := hinfix.subset (by simp)
    have hfinal := isFinal_of_isReport hf
    rcases List.mem_cons.mp hmem with rfl | hmem
    · cases hf
    · rcases List.mem_cons.mp hmem with rfl | hmem
      · cases hf
      · rw [hx f hmem] at hfinal
        cases hfinal
  | byte c s hc ih =>
    have hafter : Reaches (c :: s) s := by
      rw [reaches_iff, afterTurn_byte hc]
      exact Or.inr .start
    have hrest := (dropsQueries_byte hc).mp hdrops
    intro q hq hinfix
    rw [scrubQueries_byte hc] at hinfix
    rcases List.infix_cons_iff.mp hinfix with hprefix | hinfix
    · -- the escape byte and bytes behind removed queries
      obtain ⟨p, f, rfl, hp, hf⟩ := hq
      obtain ⟨rfl, hbytes⟩ := List.cons_prefix_cons.mp hprefix
      obtain ⟨t, b, rfl, hin⟩ :=
        inserted_of_prefix hrest (bracket_params_ne hp) (report_ne hf) hbytes
      obtain ⟨rfl, -⟩ := hmeets [] p t f b rfl hp hf hin
      exact hc ⟨rfl, rfl⟩
    · exact ih hrest (hmeets.reaches hafter) q hq hinfix
  | seq x g s hx hg ih =>
    have hafter : Reaches (0x1b :: '['.toUInt8 :: (x ++ g :: s)) s := by
      rw [reaches_iff, afterTurn_seq hx hg]
      exact Or.inr .start
    have hrest := ((dropsQueries_seq hx hg).mp hdrops).2
    have hs := ih hrest (hmeets.reaches hafter)
    rw [scrubQueries_seq hx hg]
    split
    · exact hs
    · rename_i hkept
      intro q hq hinfix
      have hsplit : 0x1b :: '['.toUInt8 :: (x ++ g :: scrubQueries s) =
          (0x1b :: '['.toUInt8 :: (x ++ [g])) ++ scrubQueries s := by simp
      rw [hsplit] at hinfix
      rcases infix_append_cases hinfix with hinfix | ⟨x₁, x₂, hcut, hne, hprefix⟩
      · exact hs q hq hinfix
      · obtain ⟨p, f, rfl, hp, hf⟩ := hq
        rcases x₁ with - | ⟨d, - | ⟨e, a⟩⟩
        · -- the kept sequence itself is no query
          rw [← List.nil_append x₂, ← hcut, ← hsplit] at hprefix
          obtain ⟨r, hr⟩ := (List.cons_prefix_cons.mp (List.cons_prefix_cons.mp hprefix).2).2
          rw [List.append_assoc, List.singleton_append] at hr
          obtain ⟨-, rfl, -⟩ := params_unique
            (fun c hc => not_isFinal_of_isParam (hp c hc)) (isFinal_of_isReport hf) hx hg hr
          exact hkept hf
        · cases hcut
          exact absurd (List.cons_prefix_cons.mp hprefix).1 (by decide)
        · -- its `[` may follow an escape byte, and what stands behind it is no query
          have hlast := (List.cons.inj (List.cons.inj hcut).2).2
          obtain ⟨rfl, rfl, hbytes⟩ := unfinished_end hx hg hlast hne hprefix
          have hne' : ∀ c ∈ p, c ≠ 0x1b := fun c hc =>
            bracket_params_ne hp c (List.mem_cons_of_mem _ hc)
          obtain ⟨t, b, rfl, hin⟩ := inserted_of_prefix hrest hne' (report_ne hf) hbytes
          obtain ⟨-, hmet⟩ := hmeets (0x1b :: '['.toUInt8 :: a) p ('['.toUInt8 :: t) f b
            (by simp) hp hf (hin.keep _)
          rw [reaches_iff, afterTurn_seq hx hg] at hmet
          rcases hmet with heq | hmet
          · have hlen := congrArg List.length heq
            simp only [List.length_cons, List.length_append, List.length_nil] at hlen
            omega
          · have hlen := hmet.length_le
            simp only [List.length_cons, List.length_append] at hlen
            omega

end Left

/-- No query is left in the replay, and nothing but queries is left out of it, if and only if
what the loop takes for a query is one, and it comes to every one there is, also to those that
would only be there without the queries in between. -/
theorem scrubQueries_iff (s : List UInt8) :
    (NoQuery (scrubQueries s) ∧ Inserted IsQuery (scrubQueries s) s) ↔
      DropsQueries s ∧ MeetsQueries s := by
  rw [inserted_iff_dropsQueries]
  constructor
  · intro h
    exact ⟨h.2, meetsQueries_of_noQuery h.1⟩
  · intro h
    exact ⟨noQuery_of_meetsQueries h.1 h.2, h.1⟩

/-- The `[` of a query ends the sequence before it. -/
theorem query_behind_unfinished :
    scrubQueries ("\x1b[1\x1b[6n".toList.map Char.toUInt8) =
        "\x1b[1\x1b[6n".toList.map Char.toUInt8 ∧
      ¬NoQuery (scrubQueries ("\x1b[1\x1b[6n".toList.map Char.toUInt8)) := by
  have hsame : scrubQueries ("\x1b[1\x1b[6n".toList.map Char.toUInt8) =
      "\x1b[1\x1b[6n".toList.map Char.toUInt8 := by decide
  refine ⟨hsame, ?_⟩
  rw [hsame]
  intro h
  refine h ("\x1b[6n".toList.map Char.toUInt8) ⟨['6'.toUInt8], 'n'.toUInt8, rfl, ?_, rfl⟩ ?_
  · intro c hc
    rw [List.mem_singleton.mp hc]
    decide
  · exact ⟨"\x1b[1".toList.map Char.toUInt8, [], rfl⟩

end Basht.Window
