import Basht.Words.ListString

/-!
# A quoted value in word splitting

`quote_string` puts a `CTLESC` before each character, and `list_string` goes past the character
behind a `CTLESC`. So a word can only end at a character of the text around the quoted
value. Text without separators keeps the word together as long as each of its characters is
compared with the characters of `IFS`; a byte that begins no character is compared with the
bytes of `IFS` instead, and a longer character with the wide characters of `IFS`, which are
there only if `mbstowcs` finds `IFS` to consist of characters.
-/

namespace Basht.Words

variable {K : Coding} {ifs x y : List Nat} {us vs : List (List Nat)} {u : List Nat} {b : Nat}

/-! ## The text of a word -/

/-- What a word says: its text without `CTLNUL`s and without quoting. -/
def dequoted (s : List Nat) : List Nat := unescape (fun _ => true) (dropNulls s)

@[simp] theorem dequoted_nil : dequoted [] = [] := rfl

@[simp] theorem dequoted_nul (s : List Nat) : dequoted (CTLNUL :: s) = dequoted s := by
  rw [dequoted, dropNulls_nul, dequoted]

@[simp] theorem dequoted_esc (c : Nat) (s : List Nat) :
    dequoted (CTLESC :: c :: s) = c :: dequoted s := by
  rw [dequoted, dropNulls, if_pos rfl, unescape, if_pos ⟨rfl, rfl⟩, dequoted]

theorem dequoted_cons (hesc : b ≠ CTLESC) (hnul : b ≠ CTLNUL) (s : List Nat) :
    dequoted (b :: s) = b :: dequoted s := by
  rw [dequoted, dropNulls_cons_of_ne hesc hnul, unescape_cons_of_ne hesc, dequoted]

theorem dequoted_append (h : ∀ b ∈ x, b ≠ CTLESC ∧ b ≠ CTLNUL) (s : List Nat) :
    dequoted (x ++ s) = x ++ dequoted s := by
  rw [dequoted, dropNulls_append h, unescape_append fun b hb => (h b hb).1, dequoted]

/-- Text up to a byte that is no marker says less than the whole text. -/
theorem dequoted_ne (hesc : b ≠ CTLESC) (hnul : b ≠ CTLNUL) (x y : List Nat) :
    dequoted x ≠ dequoted (x ++ b :: y) := by
  induction x using dropNulls.induct with
  | case1 =>
    rw [List.nil_append, dequoted_cons hesc hnul]
    exact (List.cons_ne_nil _ _).symm
  | case2 =>
    rw [List.singleton_append, dequoted_nul, dequoted_nul, dequoted_cons hesc hnul]
    exact (List.cons_ne_nil _ _).symm
  | case3 c hc =>
    by_cases hcesc : c = CTLESC
    · -- the `CTLESC` at the end is not one before `b`
      subst hcesc
      intro h
      have hhead : CTLESC = b := List.head_eq_of_cons_eq (h.trans (dequoted_esc b y))
      exact hesc hhead.symm
    · rw [List.singleton_append, dequoted_cons hcesc hc, dequoted_cons hcesc hc,
        dequoted_cons hesc hnul]
      intro h
      exact absurd (List.cons.inj h).2 (List.cons_ne_nil _ _).symm
  | case4 c s ih =>
    rw [List.cons_append, List.cons_append, dequoted_esc, dequoted_esc]
    exact fun h => ih (List.cons.inj h).2
  | case5 c s _ ih =>
    rw [List.cons_append, dequoted_nul, dequoted_nul]
    exact ih
  | case6 c d s hcesc hcnul ih =>
    rw [List.cons_append, dequoted_cons hcesc hcnul, dequoted_cons hcesc hcnul]
    exact fun h => ih (List.cons.inj h).2

theorem dequoted_quoteString {s : List Nat} (r : List Nat) :
    dequoted (quoteString K s ++ r) = s ++ dequoted r := by
  by_cases hs : s = []
  · subst hs
    exact dequoted_nul r
  · exact unescape_quoteString K hs r

/-- No text is turned into a quoted null argument. -/
theorem dropNulls_ne_nul (s : List Nat) : dropNulls s ≠ [CTLNUL] := by
  induction s using dropNulls.induct with
  | case1 => exact (List.cons_ne_nil _ _).symm
  | case2 =>
    rw [dropNulls, if_pos rfl]
    exact (List.cons_ne_nil _ _).symm
  | case3 c hc =>
    rw [dropNulls, if_neg hc]
    exact fun h => hc (List.cons.inj h).1
  | case4 c s ih =>
    rw [dropNulls, if_pos rfl]
    exact fun h => absurd (List.cons.inj h).1 (by decide)
  | case5 c s _ ih =>
    rw [dropNulls_nul]
    exact ih
  | case6 c d s hcesc hcnul ih =>
    rw [dropNulls_cons_of_ne hcesc hcnul]
    exact fun h => hcnul (List.cons.inj h).1

/-- The word that is made of text says what the text says. -/
theorem makeWords_dequoted (rest : List Nat) (quoted : Bool)
    (h : x ≠ [] ∨ (shStyleSplit ifs = false ∧ ifsWhitespace (rest.headD 0) = false)) :
    ∃ w, makeWords K ifs quoted x rest = [w] ∧ dequoteString K w.word = dequoted x := by
  unfold makeWords
  by_cases hnull : quotedNull x = true
  · rw [if_pos hnull]
    have hx : x = [CTLNUL] := of_decide_eq_true hnull
    refine ⟨Word.null, rfl, ?_⟩
    rw [hx]
    rfl
  · rw [if_neg hnull]
    by_cases hx : x = []
    · subst hx
      rw [if_neg fun h => h rfl, if_pos (h.resolve_left fun h => h rfl)]
      exact ⟨Word.null, rfl, rfl⟩
    · rw [if_pos hx]
      refine ⟨_, rfl, ?_⟩
      have hdrop : quotedNull (dropNulls x) = false := decide_eq_false (dropNulls_ne_nul x)
      rw [removeQuotedNulls_eq, dequoteString_eq, hdrop]
      rfl

/-! ## The characters that are not quoted -/

theorem mem_of_mem_unquoted (hu : u ∈ unquoted us) : u ∈ us := by
  induction us using unquoted.induct with
  | case1 => exact hu
  | case2 =>
    rw [unquoted, if_pos rfl] at hu
    cases hu
  | case3 v hv => rwa [unquoted, if_neg hv] at hu
  | case4 v us ih =>
    rw [unquoted, if_pos rfl] at hu
    exact List.mem_cons_of_mem _ (List.mem_cons_of_mem _ (ih hu))
  | case5 v w us hv ih =>
    rw [unquoted, if_neg hv] at hu
    rcases List.mem_cons.mp hu with rfl | hu
    · exact List.mem_cons_self ..
    · exact List.mem_cons_of_mem _ (ih hu)

theorem unquoted_cons (hu : u ≠ [CTLESC]) (us : List (List Nat)) :
    unquoted (u :: us) = u :: unquoted us := by
  cases us with
  | nil => simp [unquoted, hu]
  | cons v us => rw [unquoted, if_neg hu]

theorem unquoted_append (h : [CTLESC] ∉ us) (vs : List (List Nat)) :
    unquoted (us ++ vs) = us ++ unquoted vs := by
  induction us with
  | nil => rfl
  | cons u us ih =>
    rw [List.mem_cons, not_or] at h
    rw [List.cons_append, unquoted_cons (Ne.symm h.1), ih h.2]
    rfl

/-- A quoted character may take bytes of the text behind it along; what is left are units of
the text. -/
theorem unquoted_after (hu : u ∈ K.units x) (hv : vs = K.units (CTLESC :: (u ++ y))) :
    ∀ v ∈ unquoted vs, v ∈ K.units y := by
  have hne : u ++ y ≠ [] := List.append_ne_nil_of_left_ne_nil (K.ne_nil_of_mem_units hu) y
  rw [hv, K.units_ascii (by decide), K.units_of_ne_nil hne, unquoted, if_pos rfl]
  intro v hv
  have hmem := mem_of_mem_unquoted hv
  have hstep : u.length ≤ K.step (u ++ y) := by
    by_cases htwo : 2 ≤ u.length
    · exact Nat.le_of_eq (K.step_append_of_two hu htwo y).symm
    · have hpos := K.step_pos (u ++ y)
      omega
  have hle := K.step_le hne
  rw [List.length_append] at hle
  rw [List.drop_append, List.drop_eq_nil_of_le hstep, List.nil_append] at hmem
  -- the bytes that are taken along are none that begins a character
  have htrail : ∀ b ∈ y.take (K.step (u ++ y) - u.length), ∀ r, K.len (b :: r) = 0 := by
    have hfirst : (u ++ y).take (K.step (u ++ y)) ∈ K.units (u ++ y) := by
      rw [K.units_of_ne_nil hne]
      exact List.mem_cons_self ..
    intro b hb
    refine (K.trail_of_mem_units hfirst b ?_).2
    obtain ⟨c, u, rfl⟩ := List.exists_cons_of_ne_nil (K.ne_nil_of_mem_units hu)
    rw [List.take_append, List.take_of_length_le hstep, List.cons_append, List.tail_cons]
    exact List.mem_append_right _ hb
  have hsplit := K.units_append_zero htrail (y.drop (K.step (u ++ y) - u.length))
  rw [List.take_append_drop] at hsplit
  rw [hsplit]
  exact List.mem_append_right _ hmem

theorem not_mem_units {c : Nat} (hc : c < 128) (h : c ∉ x) : [c] ∉ K.units x :=
  fun hmem => h ((K.mem_units_of_len (K.ascii c [] hc)).mpr hmem)

/-- Only characters of the text around a quoted string are not quoted. -/
theorem unquoted_quoteString (s post : List Nat) :
    ∀ u ∈ unquoted (K.units (quoteString K s ++ post)), u ∈ K.units post ∨ u = [CTLNUL] := by
  by_cases hs : s = []
  · subst hs
    have hunits : K.units (quoteString K [] ++ post) = [CTLNUL] :: K.units post :=
      K.units_ascii (by decide) post
    rw [hunits, unquoted_cons (by decide)]
    intro u hu
    rcases List.mem_cons.mp hu with rfl | hu
    · exact Or.inr rfl
    · exact Or.inl (mem_of_mem_unquoted hu)
  · rw [quoteString, if_neg hs]
    intro u hu
    have hpieces : ∀ us : List (List Nat), us ≠ [] → (∀ v ∈ us, v ∈ K.units s) →
        ∀ u ∈ unquoted (K.units (us.flatMap (CTLESC :: ·) ++ post)), u ∈ K.units post := by
      intro us hne hus
      induction us with
      | nil => exact absurd rfl hne
      | cons v us ih =>
        obtain ⟨hv, hus⟩ := List.forall_mem_cons.mp hus
        by_cases hlast : us = []
        · subst hlast
          refine unquoted_after hv ?_
          rw [List.flatMap_singleton, List.cons_append]
        · -- the character ends before the next `CTLESC`
          obtain ⟨r, hr⟩ : ∃ r, us.flatMap (CTLESC :: ·) ++ post = CTLESC :: r := by
            obtain ⟨w, us, rfl⟩ := List.exists_cons_of_ne_nil hlast
            exact ⟨_, rfl⟩
          have hself : K.units v = [v] := by
            have happend := K.units_append (r := []) (K.ne_nil_of_mem_units hv)
              (by rw [List.append_nil]; exact K.step_of_mem_units hv)
            rwa [List.append_nil] at happend
          have hunits : K.units ((v :: us).flatMap (CTLESC :: ·) ++ post) =
              [CTLESC] :: v :: K.units (us.flatMap (CTLESC :: ·) ++ post) := by
            rw [List.flatMap_cons, List.cons_append, List.cons_append, List.append_assoc, hr,
              K.units_ascii (by decide), K.units_append_ascii (by decide), hself]
            rfl
          rw [hunits, unquoted, if_pos rfl]
          exact ih hlast hus
    exact Or.inl (hpieces _ (K.units_ne_nil hs) (fun _ hv => hv) u hu)

/-- The characters of text around a quoted string that are not quoted. -/
theorem unquoted_around {pre : List Nat} (hpre : CTLESC ∉ pre) (s post : List Nat) :
    ∀ u ∈ unquoted (K.units (pre ++ quoteString K s ++ post)),
      u ∈ K.units pre ∨ u ∈ K.units post ∨ u = [CTLNUL] := by
  obtain ⟨c, q, hc, hq⟩ : ∃ c q, c < 128 ∧ quoteString K s ++ post = c :: q := by
    by_cases hs : s = []
    · exact ⟨CTLNUL, post, by decide, by rw [hs]; rfl⟩
    · obtain ⟨v, us, hus⟩ := List.exists_cons_of_ne_nil (K.units_ne_nil hs)
      rw [quoteString, if_neg hs, hus]
      exact ⟨CTLESC, _, by decide, rfl⟩
  rw [List.append_assoc, hq, K.units_append_ascii hc, ← hq,
    unquoted_append (not_mem_units (by decide) hpre)]
  intro u hu
  rcases List.mem_append.mp hu with hu | hu
  · exact Or.inl hu
  · exact Or.inr (unquoted_quoteString s post u hu)

/-! ## Where a word ends -/

/-- The characters that do not end a word, as the code compares them. -/
def staysIn (K : Coding) (ifs u : List Nat) : Prop :=
  (∀ b, u = [b] → b ∉ ifs) ∧ (2 ≤ u.length → mbstowcs K ifs ≠ none)

instance (K : Coding) (ifs u : List Nat) : Decidable (staysIn K ifs u) :=
  decidable_of_iff ((u.length = 1 → u.headD 0 ∉ ifs) ∧ (2 ≤ u.length → mbstowcs K ifs ≠ none)) <|
    and_congr_left fun _ => by
      constructor
      · rintro h b rfl
        exact h rfl
      · intro h hone
        obtain ⟨b, rfl⟩ := List.length_eq_one_iff.mp hone
        exact h b rfl

theorem isSeparator_byte (b : Nat) : isSeparator K ifs [b] = some (decide (b ∈ ifs)) := by
  have hle := K.len_le [b]
  rw [List.length_singleton] at hle
  rw [isSeparator, if_neg (by omega)]
  rfl

theorem isSeparator_long (hu : u ∈ K.units x) (htwo : 2 ≤ u.length) :
    isSeparator K ifs u = wcschr K ifs u := by
  have hstep := K.step_of_mem_units hu
  have hlen : K.len u > 1 := by
    rw [Coding.step] at hstep
    split at hstep
    · omega
    · omega
  rw [isSeparator, if_pos hlen]

/-- A character of a string that is not one of `IFS`: does it end a word? -/
theorem isSeparator_iff (hu : u ∈ K.units x) (hifs : u ∉ K.units ifs) :
    isSeparator K ifs u = some false ↔ staysIn K ifs u := by
  by_cases htwo : 2 ≤ u.length
  · have hbyte : ∀ b, u = [b] → b ∉ ifs := by
      rintro b rfl
      exact absurd htwo (Nat.not_le.mpr Nat.one_lt_two)
    rw [isSeparator_long hu htwo, wcschr, mbstowcs]
    constructor
    · intro h
      refine ⟨hbyte, fun _ hnone => ?_⟩
      rw [mbstowcs] at hnone
      rw [hnone] at h
      dsimp only at h
      split at h
      · split at h
        · cases h
        · cases h
      · cases h
    · intro h
      have hsome := h.2 htwo
      rw [mbstowcs] at hsome
      split
      · rename_i ws hws
        split at hws
        · cases hws
          rw [decide_eq_false hifs]
        · cases hws
      · rename_i hnone
        exact absurd hnone hsome
  · obtain ⟨b, rfl⟩ : ∃ b, u = [b] := by
      have hpos := List.length_pos_iff.mpr (K.ne_nil_of_mem_units hu)
      exact List.length_eq_one_iff.mp (by omega)
    rw [isSeparator_byte, Option.some.injEq, decide_eq_false_iff_not]
    constructor
    · intro h
      refine ⟨fun c hc => ?_, fun hlen => absurd hlen htwo⟩
      rwa [List.head_eq_of_cons_eq hc] at h
    · exact fun h => h.1 b rfl

/-- If such a character ends a word, it is a byte from 128 on. -/
theorem byte_of_isSeparator (hu : u ∈ K.units x) (hifs : u ∉ K.units ifs)
    (h : isSeparator K ifs u = some true) : ∃ b, u = [b] ∧ b ∈ ifs ∧ 128 ≤ b := by
  by_cases htwo : 2 ≤ u.length
  · rw [isSeparator_long hu htwo, wcschr, mbstowcs] at h
    exfalso
    split at h
    · rename_i ws hws
      split at hws
      · cases hws
        rw [decide_eq_false hifs] at h
        cases h
      · cases hws
    · split at h
      · rename_i w ws hw
        split at h
        · rename_i heq
          apply hifs
          rw [hw, heq.2]
          exact List.mem_cons_self ..
        · cases h
      · cases h
  · obtain ⟨b, rfl⟩ : ∃ b, u = [b] := by
      have hpos := List.length_pos_iff.mpr (K.ne_nil_of_mem_units hu)
      exact List.length_eq_one_iff.mp (by omega)
    rw [isSeparator_byte, Option.some.injEq, decide_eq_true_eq] at h
    refine ⟨b, rfl, h, ?_⟩
    by_contra hlt
    exact hifs ((K.mem_units_of_len (K.ascii b [] (by omega))).mp h)

/-! ## The words of a string -/

/-- A string none of whose unquoted characters ends a word is one word. -/
theorem listLoop_whole (hesc : CTLESC ∉ ifs) (hnul : CTLNUL ∉ ifs) (hx : x ≠ [])
    (h : ifs = [] ∨ ∀ u ∈ unquoted (K.units x), isSeparator K ifs u = some false) :
    ∃ w, listLoop K ifs false x.length x = some [w] ∧ dequoteString K w.word = dequoted x := by
  have hextract : stringExtractVerbatim K ifs false false x = some (x, []) := by
    unfold stringExtractVerbatim
    by_cases hifs : ifs = []
    · rw [if_pos hifs]
    · rw [if_neg hifs]
      have hall := h.resolve_left hifs
      rcases extractUnits_cases (K := K) ifs (K.units x) with ⟨hcut, -⟩ |
        ⟨w, u, r, -, hu, -, -, hstop⟩
      · rw [hcut]
        have hflat : (K.units x).flatten = x := K.flatten_units x
        exact congrArg (fun w => some (w, [])) hflat
      · have hfalse := hall u hu
        rcases hstop with ⟨htrue, -⟩ | ⟨hnone, -⟩
        · rw [hfalse] at htrue
          cases htrue
        · rw [hfalse] at hnone
          cases hnone
  obtain ⟨w, hw, htext⟩ := makeWords_dequoted (K := K) [] false (Or.inl hx)
  refine ⟨w, ?_, htext⟩
  obtain ⟨n, hn⟩ := Nat.exists_eq_succ_of_ne_zero (Nat.ne_of_gt (List.length_pos_iff.mpr hx))
  rw [hn, listLoop_round hx, decide_eq_false hesc, decide_eq_false hnul, hextract,
    Option.bind_some, skipSeparator, listLoop_nil, Option.bind_some, hw]
  rfl

/-- A string with an unquoted character that ends a word is not one word that says what the
string says. -/
theorem listLoop_cut (hesc : CTLESC ∉ ifs) (hnul : CTLNUL ∉ ifs) (hifs : ifs ≠ [])
    (hno : ∀ u ∈ unquoted (K.units x), u ∉ K.units ifs)
    (hu : u ∈ unquoted (K.units x)) (hstop : isSeparator K ifs u ≠ some false) (fuel : Nat) :
    ¬∃ w, listLoop K ifs false fuel x = some [w] ∧ dequoteString K w.word = dequoted x := by
  rintro ⟨word, hword, htext⟩
  have hx : x ≠ [] := by
    rintro rfl
    cases hu
  cases fuel with
  | zero => cases hword
  | succ fuel =>
    rw [listLoop_round hx, decide_eq_false hesc, decide_eq_false hnul, stringExtractVerbatim,
      if_neg hifs] at hword
    rcases extractUnits_cases (K := K) ifs (K.units x) with ⟨-, hall⟩ |
      ⟨w, v, r, hunits, hv, -, -, ⟨htrue, hcut⟩ | ⟨-, hcut⟩⟩
    · exact hstop (hall u hu)
    · obtain ⟨b, rfl, hb, hlarge⟩ :=
        byte_of_isSeparator (mem_of_mem_unquoted hv) (hno v hv) htrue
      have hflat : x = w.flatten ++ b :: r.flatten := by
        rw [← K.flatten_units x, hunits, List.flatten_append, List.flatten_cons]
        rfl
      -- the separator is no ASCII character, so that the text before it makes a word
      have hstyle : shStyleSplit ifs = false := by
        refine decide_eq_false ?_
        rintro rfl
        simp only [List.mem_cons, List.not_mem_nil, or_false] at hb
        omega
      have hspace : ifsWhitespace b = false := by
        refine decide_eq_false ?_
        omega
      obtain ⟨w0, hw0, htext0⟩ := makeWords_dequoted (K := K) (x := w.flatten)
        ([b] :: r).flatten false (Or.inr ⟨hstyle, hspace⟩)
      rw [hcut, Option.map_some, Option.bind_some] at hword
      obtain ⟨more, -, hmore⟩ := Option.bind_eq_some_iff.mp hword
      dsimp only at hmore
      rw [hw0, Option.some.injEq, List.singleton_append, List.cons.injEq] at hmore
      rw [← hmore.1, htext0, hflat] at htext
      have hb1 : b ≠ CTLESC := by unfold CTLESC; omega
      have hb2 : b ≠ CTLNUL := by unfold CTLNUL; omega
      exact dequoted_ne hb1 hb2 w.flatten r.flatten htext
    · rw [hcut] at hword
      cases hword

/-- White space before a quoted string is skipped only if it is in `IFS`. -/
theorem listString_around {pre : List Nat} (hno : ∀ u ∈ K.units pre, u ∉ K.units ifs)
    (s post : List Nat) :
    listString K (pre ++ quoteString K s ++ post) ifs false =
      listLoop K ifs false (pre ++ quoteString K s ++ post).length
        (pre ++ quoteString K s ++ post) := by
  have hdrop : (pre ++ quoteString K s ++ post).dropWhile
      (fun c => issep ifs c && ifsWhitespace c) = pre ++ quoteString K s ++ post := by
    cases pre with
    | nil =>
      by_cases hs : s = []
      · subst hs
        exact List.dropWhile_cons_of_neg (by simp [ifsWhitespace, isspace, CTLNUL])
      · obtain ⟨v, us, hus⟩ := List.exists_cons_of_ne_nil (K.units_ne_nil hs)
        rw [quoteString, if_neg hs, hus]
        exact List.dropWhile_cons_of_neg (by simp [ifsWhitespace, isspace, CTLESC])
    | cons c pre =>
      refine List.dropWhile_cons_of_neg ?_
      rw [issep_eq]
      intro h
      rw [Bool.and_eq_true, decide_eq_true_eq] at h
      have hspace : c = 32 ∨ (9 ≤ c ∧ c ≤ 13) := of_decide_eq_true h.2
      have hascii : K.len [c] = 1 := K.ascii c [] (by omega)
      exact hno [c] ((K.mem_units_of_len hascii).mp (List.mem_cons_self ..))
        ((K.mem_units_of_len hascii).mp h.1)
  rw [listString, if_pos rfl, hdrop]

/-! ## Survival -/

/-- A quoted value survives word splitting, and so does unquoted text around it as long as no
unquoted character of the whole is a byte of `IFS` or, when `mbstowcs` cannot convert `IFS`,
has more than one byte. -/
theorem quoted_survives (l : Locale) {ifs : List Nat} (hesc : CTLESC ∉ ifs) (hnul : CTLNUL ∉ ifs) :
    (∀ s, ∃ w, listString l.coding (quoteString l.coding s) ifs false = some [w] ∧
        dequoteString l.coding w.word = s) ∧
      (∀ pre s post, (∀ b ∈ pre ++ post, b ≠ CTLESC ∧ b ≠ CTLNUL) →
        (∀ u, u ∈ l.coding.units pre ∨ u ∈ l.coding.units post → u ∉ l.coding.units ifs) →
        ((∃ w, listString l.coding (pre ++ quoteString l.coding s ++ post) ifs false = some [w] ∧
            dequoteString l.coding w.word = pre ++ s ++ post) ↔
          ifs = [] ∨
            ∀ u ∈ unquoted (l.coding.units (pre ++ quoteString l.coding s ++ post)),
              staysIn l.coding ifs u)) ∧
      ∀ s, dequoteEscapes l.coding ifs (quoteEscapes l.coding ifs s) = s := by
  generalize l.coding = K
  have haround : ∀ pre s post, (∀ b ∈ pre ++ post, b ≠ CTLESC ∧ b ≠ CTLNUL) →
      (∀ u, u ∈ K.units pre ∨ u ∈ K.units post → u ∉ K.units ifs) →
      ((∃ w, listString K (pre ++ quoteString K s ++ post) ifs false = some [w] ∧
          dequoteString K w.word = pre ++ s ++ post) ↔
        ifs = [] ∨ ∀ u ∈ unquoted (K.units (pre ++ quoteString K s ++ post)), staysIn K ifs u) := by
    intro pre s post hplain hno
    have hpre : ∀ b ∈ pre, b ≠ CTLESC ∧ b ≠ CTLNUL :=
      fun b hb => hplain b (List.mem_append_left _ hb)
    have hpost : ∀ b ∈ post, b ≠ CTLESC ∧ b ≠ CTLNUL :=
      fun b hb => hplain b (List.mem_append_right _ hb)
    have htext : dequoted (pre ++ quoteString K s ++ post) = pre ++ s ++ post := by
      have hlast := dequoted_append hpost []
      rw [List.append_nil, dequoted_nil, List.append_nil] at hlast
      rw [List.append_assoc, dequoted_append hpre, dequoted_quoteString, hlast, List.append_assoc]
    have hne : pre ++ quoteString K s ++ post ≠ [] := by
      have hq : quoteString K s ≠ [] := by
        intro hnil
        by_cases hs : s = []
        · subst hs
          cases hnil
        · obtain ⟨v, us, hus⟩ := List.exists_cons_of_ne_nil (K.units_ne_nil hs)
          rw [quoteString, if_neg hs, hus] at hnil
          cases hnil
      exact List.append_ne_nil_of_left_ne_nil (List.append_ne_nil_of_right_ne_nil _ hq) _
    have hunq : ∀ u ∈ unquoted (K.units (pre ++ quoteString K s ++ post)), u ∉ K.units ifs := by
      intro u hu
      rcases unquoted_around (fun h => (hpre _ h).1 rfl) s post u hu with hu | hu | rfl
      · exact hno u (Or.inl hu)
      · exact hno u (Or.inr hu)
      · exact not_mem_units (by decide) hnul
    rw [listString_around (fun u hu => hno u (Or.inl hu)), ← htext]
    constructor
    · intro hone
      by_contra hcut
      rw [not_or] at hcut
      obtain ⟨u, hu⟩ := not_forall.mp hcut.2
      rw [Classical.not_imp] at hu
      refine listLoop_cut hesc hnul hcut.1 hunq hu.1 ?_ _ hone
      intro hfalse
      exact hu.2 ((isSeparator_iff (mem_of_mem_unquoted hu.1) (hunq u hu.1)).mp hfalse)
    · intro hstays
      refine listLoop_whole hesc hnul hne (hstays.imp_right fun h u hu => ?_)
      exact (isSeparator_iff (mem_of_mem_unquoted hu) (hunq u hu)).mpr (h u hu)
  refine ⟨fun s => ?_, haround, fun s => dequoteEscapes_quoteEscapes K s hesc hnul⟩
  have halone := haround [] s [] (fun b hb => by cases hb) (fun u hu => by
    rw [Coding.units_nil, or_self] at hu
    cases hu)
  rw [List.nil_append, List.append_nil, List.nil_append, List.append_nil] at halone
  refine halone.mpr (Or.inr fun u hu => ?_)
  -- nothing but the `CTLNUL` of an empty string is left unquoted
  have hmem := unquoted_quoteString (K := K) s [] u (by rwa [List.append_nil])
  rw [Coding.units_nil] at hmem
  rcases hmem with hmem | rfl
  · cases hmem
  · constructor
    · intro b hb
      rw [← List.head_eq_of_cons_eq hb]
      exact hnul
    · exact fun htwo => absurd htwo (Nat.not_le.mpr Nat.one_lt_two)

/-- `IFS` is `", "` and `é`, and the text has another two-byte character. -/
theorem quoted_survives_letters :
    (∃ w, listString Locale.utf8.coding
        ([0xc3, 0xa8] ++ quoteString Locale.utf8.coding [97, 44, 0xc3, 0xa9] ++ [98])
        [44, 32, 0xc3, 0xa9] false = some [w] ∧
      dequoteString Locale.utf8.coding w.word = [0xc3, 0xa8] ++ [97, 44, 0xc3, 0xa9] ++ [98]) ∧
    dequoteEscapes Locale.utf8.coding [44, 32, 0xc3, 0xa9]
      (quoteEscapes Locale.utf8.coding [44, 32, 0xc3, 0xa9] [1, 127]) = [1, 127] := by
  have hifs : CTLESC ∉ [44, 32, 0xc3, 0xa9] ∧ CTLNUL ∉ [44, 32, 0xc3, 0xa9] := by decide
  have h := quoted_survives .utf8 hifs.1 hifs.2
  refine ⟨(h.2.1 [0xc3, 0xa8] [97, 44, 0xc3, 0xa9] [98] (by decide) ?_).mpr (Or.inr ?_), h.2.2 _⟩
  · have hpre : ∀ u ∈ Locale.utf8.coding.units [0xc3, 0xa8],
        u ∉ Locale.utf8.coding.units [44, 32, 0xc3, 0xa9] := by
      decide +kernel
    have hpost : ∀ u ∈ Locale.utf8.coding.units [98],
        u ∉ Locale.utf8.coding.units [44, 32, 0xc3, 0xa9] := by
      decide +kernel
    exact fun u hu => hu.elim (hpre u) (hpost u)
  · decide +kernel

/-- `IFS` is the euro sign, and the unquoted text its last byte alone, which is a separator all
the same. -/
theorem stray_byte_splits :
    CTLESC ∉ [0xe2, 0x82, 0xac] ∧ CTLNUL ∉ [0xe2, 0x82, 0xac] ∧
      (∀ b ∈ [] ++ [0xac], b ≠ CTLESC ∧ b ≠ CTLNUL) ∧
      (∀ u ∈ Locale.utf8.coding.units [0xac], u ∉ Locale.utf8.coding.units [0xe2, 0x82, 0xac]) ∧
      ¬∃ w, listString Locale.utf8.coding ([] ++ quoteString Locale.utf8.coding [97] ++ [0xac])
          [0xe2, 0x82, 0xac] false = some [w] ∧
        dequoteString Locale.utf8.coding w.word = [] ++ [97] ++ [0xac] := by
  refine ⟨by decide, by decide, by decide, by decide +kernel, ?_⟩
  have hword : listString Locale.utf8.coding ([] ++ quoteString Locale.utf8.coding [97] ++ [0xac])
      [0xe2, 0x82, 0xac] false = some [⟨[CTLESC, 97], false, false, false⟩] := by
    decide +kernel
  rintro ⟨w, hw, htext⟩
  rw [hword, Option.some.injEq, List.cons.injEq] at hw
  rw [← hw.1] at htext
  revert htext
  decide +kernel

end Basht.Words
