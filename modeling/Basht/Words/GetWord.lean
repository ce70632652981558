import Basht.Words.Fields

/-!
# Splitting for `read`

`get_word_from_string` of `subst.c` cuts one word off a string. It is a copy of a round of
`list_string` that skips, behind the separator, spaces, tabs and newlines only, where
`list_string` skips all white space of `IFS`. The next call skips the rest, but a separator behind
it then ends an empty word (`getWords_eq_iff`).
-/

namespace Basht.Words

open Splitting

variable (K : Coding)

/-- `islocalsep`. -/
def islocalsep (separators : List Nat) (c : Nat) : Bool := c ∈ separators

/-- What a call leaves: the word, the string behind it, and what `*endptr` points to. -/
structure Cut where
  word : Option (List Nat)
  string : List Nat
  endptr : Option (List Nat)
  deriving DecidableEq

/-- `get_word_from_string` moves past the separator. -/
def skipLocal (separators s : List Nat) : List Nat :=
  match s with
  | [] => []
  | c :: _ =>
    let whitesep := ifsWhitesep separators c
    let rest := s.drop (K.step s)
    match rest.dropWhile fun c => spctabnl c && islocalsep separators c with
    | [] => []
    | d :: after =>
      if whitesep && islocalsep separators d && !ifsWhitesep separators d then
        after.dropWhile fun c => ifsWhitesep separators c && islocalsep separators c
      else d :: after

/-- `get_word_from_string`. -/
def getWordFromString (string separators : List Nat) : Option Cut :=
  if string = [] then some ⟨none, [], none⟩
  else
    let s :=
      if shStyleSplit separators then
        string.dropWhile fun c => spctabnl c && islocalsep separators c
      else string.dropWhile fun c => ifsWhitespace c && islocalsep separators c
    if s = [] then some ⟨none, [], some []⟩
    else do
      let noctlesc := decide (CTLESC ∈ separators)
      let noescctlnul := decide (CTLNUL ∈ separators)
      let (currentWord, rest) ← stringExtractVerbatim K separators noctlesc noescctlnul s
      some ⟨some currentWord, skipLocal K separators rest, some rest⟩

/-- Calls until the string is empty or there is no word. -/
def getWords (separators : List Nat) : Nat → List Nat → Option (List (List Nat))
  | 0, _ => none
  | fuel + 1, string =>
    if string = [] then some []
    else do
      let cut ← getWordFromString K string separators
      match cut.word with
      | none => some []
      | some word => do
        let words ← getWords separators fuel cut.string
        some (word :: words)

/-- A word as `list_string` gives it; an empty one is a quoted null argument. -/
def plainWord (word : List Nat) : Word :=
  if word = [] then Word.null else ⟨word, false, false, false⟩

/-- A byte of `IFS`. -/
def byteSep (ifs : List Nat) (c : Nat) : Bool := c ∈ ifs

/-- IFS white space. -/
def byteSpace (ifs : List Nat) (c : Nat) : Bool := decide (c ∈ ifs) && isspace c

/-- Each byte of `IFS` is a character. -/
def SingleByte (ifs : List Nat) : Prop := ∀ c ∈ ifs, K.len [c] = 1

variable {K} {ifs s r u : List Nat} {us : List (List Nat)} {c : Nat}

theorem byteSpace_sep (ifs : List Nat) (c : Nat) (h : byteSpace ifs c = true) :
    byteSep ifs c = true := (Bool.and_eq_true_iff.mp h).1

theorem byteSpace_spctabnl (ifs : List Nat) (c : Nat) (h : spctabnl c = true)
    (hc : byteSep ifs c = true) : byteSpace ifs c = true := by
  have hspace : isspace c = true := by
    unfold spctabnl at h
    unfold isspace
    rw [decide_eq_true_eq] at h ⊢
    omega
  exact Bool.and_eq_true_iff.mpr ⟨hc, hspace⟩

/-! ## Single bytes -/

/-- A byte of `IFS` is a unit of its own. -/
theorem single_cases (hifs : SingleByte K ifs) (hu : u ∈ K.units s) :
    (∃ c ∈ ifs, u = [c]) ∨ ∀ b ∈ u, b ∉ ifs := by
  refine or_iff_not_imp_right.mpr fun hno => ?_
  push Not at hno
  obtain ⟨b, hb, hmem⟩ := hno
  have hlen := hifs b hmem
  obtain ⟨c, t, rfl⟩ := List.exists_cons_of_ne_nil (K.ne_nil_of_mem_units hu)
  rcases List.mem_cons.mp hb with rfl | hb
  · have hstep := K.step_of_mem_units hu
    have hlen' : K.len ([b] ++ t) = 1 := (K.len_append_of_pos (by omega) t).trans hlen
    rw [Coding.step, ← List.singleton_append, hlen', if_neg Nat.one_ne_zero] at hstep
    rw [List.length_append, List.length_singleton] at hstep
    have ht : t = [] := List.length_eq_zero_iff.mp (by omega)
    exact ⟨b, hmem, by rw [ht]⟩
  · have htrail := (K.trail_of_mem_units hu b hb).2 []
    omega

theorem valid_single (hifs : SingleByte K ifs) : Valid K ifs := by
  intro u hu
  rcases single_cases hifs hu with ⟨c, hc, rfl⟩ | hno
  · rw [hifs c hc]
    exact Nat.one_ne_zero
  · obtain ⟨c, t, rfl⟩ := List.exists_cons_of_ne_nil (K.ne_nil_of_mem_units hu)
    refine absurd ?_ (hno c (List.mem_cons_self ..))
    rw [← K.flatten_units ifs]
    exact List.mem_flatten.mpr ⟨_, hu, List.mem_cons_self ..⟩

theorem stops_single (hifs : SingleByte K ifs) (hu : u ∈ K.units s) :
    (stops K ifs u = true ∧ ∃ c ∈ ifs, u = [c]) ∨ (stops K ifs u = false ∧ ∀ b ∈ u, b ∉ ifs) := by
  unfold stops
  rcases single_cases hifs hu with ⟨c, hc, rfl⟩ | hno
  · refine Or.inl ⟨?_, c, hc, rfl⟩
    rw [if_neg (by rw [hifs c hc]; omega)]
    exact decide_eq_true hc
  · refine Or.inr ⟨?_, hno⟩
    obtain ⟨c, t, rfl⟩ := List.exists_cons_of_ne_nil (K.ne_nil_of_mem_units hu)
    have hc := hno c (List.mem_cons_self ..)
    split
    · rw [sepChar_eq]
      refine decide_eq_false fun hmem => hc ?_
      rw [← K.flatten_units ifs]
      exact List.mem_flatten.mpr ⟨_, hmem, List.mem_cons_self ..⟩
    · exact decide_eq_false hc

/-- A word ends at the first byte of `IFS`. -/
theorem cut_single (h : ∀ u ∈ us, (stops K ifs u = true ∧ ∃ c ∈ ifs, u = [c]) ∨
      (stops K ifs u = false ∧ ∀ b ∈ u, b ∉ ifs)) :
    (us.takeWhile fun u => !stops K ifs u).flatten =
        us.flatten.takeWhile (fun c => !byteSep ifs c) ∧
      (us.dropWhile fun u => !stops K ifs u).flatten =
        us.flatten.dropWhile fun c => !byteSep ifs c := by
  induction us with
  | nil => exact ⟨rfl, rfl⟩
  | cons u us ih =>
    obtain ⟨hu, hus⟩ := List.forall_mem_cons.mp h
    rcases hu with ⟨hstop, c, hc, rfl⟩ | ⟨hstop, hno⟩
    · have hsep : byteSep ifs c = true := decide_eq_true hc
      rw [takeWhile_of_sep hstop, dropWhile_of_sep hstop, List.flatten_cons,
        List.singleton_append, takeWhile_of_sep hsep, dropWhile_of_sep hsep]
      exact ⟨rfl, rfl⟩
    · have hpass : ∀ b ∈ u, (!byteSep ifs b) = true := fun b hb => by
        rw [byteSep, decide_eq_false (hno b hb)]
        rfl
      rw [takeWhile_of_not_sep hstop, dropWhile_of_not_sep hstop, List.flatten_cons,
        List.flatten_cons, List.takeWhile_append_of_pos hpass, List.dropWhile_append_of_pos hpass,
        (ih hus).1, (ih hus).2]
      exact ⟨rfl, rfl⟩

theorem extract_single (hne : ifs ≠ []) (hifs : SingleByte K ifs) (hesc : CTLESC ∉ s)
    (noctlesc noescctlnul : Bool) :
    stringExtractVerbatim K ifs noctlesc noescctlnul s =
      some (s.takeWhile (fun c => !byteSep ifs c), s.dropWhile fun c => !byteSep ifs c) := by
  have hunits : [CTLESC] ∉ K.units s :=
    fun hmem => hesc ((K.mem_units_of_len (K.ascii _ [] (by decide))).mpr hmem)
  obtain ⟨htake, hdrop⟩ := cut_single fun u (hu : u ∈ K.units s) => stops_single hifs hu
  rw [K.flatten_units] at htake hdrop
  rw [stringExtractVerbatim, if_neg hne, extractUnits_valid (valid_single hifs) hunits,
    Option.map_some]
  dsimp only
  rw [htake, hdrop]

/-! ## The text behind a word -/

theorem drop_single (hifs : SingleByte K ifs) (hc : c ∈ ifs) (s : List Nat) :
    (c :: s).drop (K.step (c :: s)) = s := by
  have hlen : K.len ([c] ++ s) = 1 :=
    (K.len_append_of_pos (by rw [hifs c hc]; omega) s).trans (hifs c hc)
  rw [List.singleton_append] at hlen
  rw [Coding.step, hlen, if_neg Nat.one_ne_zero]
  rfl

theorem skipped_byte (ifs : List Nat) :
    (fun c => ifsWhitesep ifs c && issep ifs c) = byteSpace ifs :=
  funext skipped_eq

theorem skipped_local (ifs : List Nat) :
    (fun c => ifsWhitesep ifs c && islocalsep ifs c) = byteSpace ifs := by
  rw [← skipped_byte]
  funext c
  rw [issep_eq]
  rfl

/-- The separator that is part of the delimiter. -/
theorem adjacent_byte {w : Bool} (d : Nat) :
    (w && islocalsep ifs d && !ifsWhitesep ifs d) =
      (w && byteSep ifs d && !byteSpace ifs d) := by
  by_cases hd : d ∈ ifs
  · have hspace : byteSpace ifs d = isspace d := by
      rw [byteSpace, decide_eq_true hd, Bool.true_and]
    rw [ifsWhitesep_eq (Or.inl hd), hspace]
    rfl
  · have hno : decide (d ∈ ifs) = false := decide_eq_false hd
    rw [islocalsep, byteSep, hno, Bool.and_false, Bool.false_and, Bool.false_and]

theorem whitesep_byte (hc : c ∈ ifs) : ifsWhitesep ifs c = byteSpace ifs c := by
  rw [ifsWhitesep_eq (Or.inl hc), byteSpace, decide_eq_true hc, Bool.true_and]

theorem skipLocal_single (hifs : SingleByte K ifs)
    (hr : ∀ c t, r = c :: t → byteSep ifs c = true) :
    skipLocal K ifs r = afterFirst (byteSep ifs) (byteSpace ifs) spctabnl r := by
  cases r with
  | nil => rfl
  | cons c t =>
    have hc : c ∈ ifs := of_decide_eq_true (hr c t rfl)
    rw [skipLocal, afterFirst, drop_single hifs hc]
    rw [whitesep_byte hc, skipped_local]
    have hfirst : (t.dropWhile fun c => spctabnl c && islocalsep ifs c) =
        t.dropWhile fun c => spctabnl c && byteSep ifs c := rfl
    rw [hfirst]
    cases t.dropWhile fun c => spctabnl c && byteSep ifs c with
    | nil => rfl
    | cons d rest =>
      dsimp only
      rw [adjacent_byte]

theorem skipSeparator_single (hifs : SingleByte K ifs)
    (hr : ∀ c t, r = c :: t → byteSep ifs c = true) :
    skipSeparator K ifs r = afterDelimiter (byteSep ifs) (byteSpace ifs) r := by
  cases r with
  | nil => rfl
  | cons c t =>
    have hsep := hr c t rfl
    have hc : c ∈ ifs := of_decide_eq_true hsep
    rw [skipSeparator, drop_single hifs hc]
    rw [whitesep_byte hc, skipped_byte]
    by_cases hspace : byteSpace ifs c = true
    · rw [hspace, afterDelimiter, List.dropWhile_cons_of_pos hspace]
      cases hrest : t.dropWhile (byteSpace ifs) with
      | nil => rfl
      | cons d rest =>
        have hd := head_dropWhile t d rest hrest
        rw [skipAdjacent_true, skipped_byte]
        by_cases hmem : d ∈ ifs
        · rw [byteSpace, decide_eq_true hmem, Bool.true_and] at hd
          have hsep' : byteSep ifs d = true := decide_eq_true hmem
          dsimp only
          rw [if_pos ⟨hmem, hd⟩, if_pos hsep']
        · have hsep' : ¬byteSep ifs d = true := Bool.eq_false_iff.mp (decide_eq_false hmem)
          dsimp only
          rw [if_neg fun h => hmem h.1, if_neg hsep']
    · have hspace' := Bool.eq_false_iff.mpr hspace
      have hafter : afterDelimiter (byteSep ifs) (byteSpace ifs) ([] ++ c :: t) = _ :=
        afterDelimiter_append nofun hspace' t
      rw [List.nil_append, if_pos hsep] at hafter
      rw [hspace', skipAdjacent_false, hafter]

/-! ## All words -/

/-- A call gives the next word; behind it, the white space at the head does not matter. -/
theorem getWord_single (hne : ifs ≠ []) (hifs : SingleByte K ifs) (hs : s ≠ []) (hesc : CTLESC ∉ s) :
    getWordFromString K s ifs =
      let t := s.dropWhile (byteSpace ifs)
      if t = [] then some ⟨none, [], some []⟩
      else some ⟨some (t.takeWhile fun c => !byteSep ifs c),
        afterFirst (byteSep ifs) (byteSpace ifs) spctabnl (t.dropWhile fun c => !byteSep ifs c),
        some (t.dropWhile fun c => !byteSep ifs c)⟩ := by
  have hskip : (if shStyleSplit ifs then
      s.dropWhile fun c => spctabnl c && islocalsep ifs c
    else s.dropWhile fun c => ifsWhitespace c && islocalsep ifs c) =
      s.dropWhile (byteSpace ifs) := by
    rw [← skipped_local]
    unfold ifsWhitesep
    cases shStyleSplit ifs <;> rfl
  have hesc' : CTLESC ∉ s.dropWhile (byteSpace ifs) :=
    fun hmem => hesc ((List.dropWhile_suffix _).subset hmem)
  rw [getWordFromString, if_neg hs, hskip]
  dsimp only
  split
  next => rfl
  next =>
    rw [extract_single hne hifs hesc']
    dsimp only [Option.bind_eq_bind, Option.bind_some]
    rw [skipLocal_single hifs fun c t => sep_of_dropWhile]

theorem getWords_single (hne : ifs ≠ []) (hifs : SingleByte K ifs) (hesc : CTLESC ∉ s) {n : Nat}
    (hn : s.length < n) :
    getWords K ifs n s =
      some (lateFrom (byteSep ifs) (byteSpace ifs) spctabnl (s.dropWhile (byteSpace ifs))) := by
  induction n generalizing s with
  | zero => cases hn
  | succ n ih =>
    by_cases hs : s = []
    · subst hs
      rfl
    · rw [getWords, if_neg hs, getWord_single hne hifs hs hesc]
      dsimp only
      split
      next hnil =>
        rw [hnil]
        rfl
      next hnil =>
        dsimp only [Option.bind_eq_bind, Option.bind_some]
        have hword : s.dropWhile (byteSpace ifs) <:+ s := List.dropWhile_suffix _
        have hsub := ((afterFirst_suffix' (byteSep ifs) (byteSpace ifs) spctabnl _).trans
          (List.dropWhile_suffix fun c => !byteSep ifs c)).trans hword
        have hlt := length_afterFirst (byteSep ifs) (byteSpace ifs) spctabnl hnil
        have hle := hword.length_le
        rw [ih (fun hmem => hesc (hsub.subset hmem)) (by omega), Option.bind_some,
          lateFrom_of_ne_nil hnil]

theorem plain_single {word rest : List Nat} (hnul : CTLNUL ∉ word)
    (hrest : word = [] → ∃ c t, rest = c :: t ∧ byteSep ifs c = true ∧ byteSpace ifs c = false) :
    makeWords K ifs false word rest = [plainWord word] := by
  unfold plainWord
  split
  next hnil =>
    obtain ⟨c, t, rfl, hsep, hspace⟩ := hrest hnil
    have hc : c ∈ ifs := of_decide_eq_true hsep
    rw [byteSpace, decide_eq_true hc, Bool.true_and] at hspace
    rw [hnil, makeWords_null hc hspace]
  next hword => exact makeWords_plain hword hnul rest

theorem listLoop_single (hne : ifs ≠ []) (hifs : SingleByte K ifs) (hesc : CTLESC ∉ s)
    (hnul : CTLNUL ∉ s) (hhead : ∀ a r, s = a :: r → byteSpace ifs a = false) {n : Nat}
    (hn : s.length ≤ n) :
    listLoop K ifs false n s =
      some ((fieldsFrom (byteSep ifs) (byteSpace ifs) s).map plainWord) := by
  induction n generalizing s with
  | zero =>
    rw [List.length_eq_zero_iff.mp (Nat.le_zero.mp hn)]
    rfl
  | succ n ih =>
    by_cases hs : s = []
    · subst hs
      rfl
    · have hlt := length_afterDelimiter (byteSep ifs) (byteSpace ifs) hs
      have hsub : afterDelimiter (byteSep ifs) (byteSpace ifs)
          (s.dropWhile fun c => !byteSep ifs c) <:+ s :=
        (afterDelimiter_suffix _ _ _).trans (List.dropWhile_suffix _)
      have hmore := ih (fun hmem => hesc (hsub.subset hmem)) (fun hmem => hnul (hsub.subset hmem))
        (head_afterDelimiter _) (by omega)
      rw [listLoop_round hs, extract_single hne hifs hesc, Option.bind_some]
      dsimp only
      rw [skipSeparator_single hifs fun c t => sep_of_dropWhile, hmore, Option.bind_some,
        fieldsFrom_of_ne_nil hs, plain_single]
      · rfl
      · exact fun hmem => hnul ((List.takeWhile_prefix _).subset hmem)
      · intro hnil
        obtain ⟨c, t, rfl⟩ := List.exists_cons_of_ne_nil hs
        have hsep : byteSep ifs c = true := by
          by_contra hsep
          rw [takeWhile_of_not_sep (Bool.eq_false_iff.mpr hsep)] at hnil
          cases hnil
        exact ⟨c, t, dropWhile_of_sep hsep t, hsep, hhead c t rfl⟩

theorem listString_single (hne : ifs ≠ []) (hifs : SingleByte K ifs) (hesc : CTLESC ∉ s)
    (hnul : CTLNUL ∉ s) :
    listString K s ifs false =
      some ((fields (byteSep ifs) (byteSpace ifs) s).map plainWord) := by
  have hskip : (fun c => issep ifs c && ifsWhitespace c) = byteSpace ifs := by
    funext c
    rw [issep_eq]
    rfl
  have hsub : s.dropWhile (byteSpace ifs) <:+ s := List.dropWhile_suffix _
  rw [listString, if_pos rfl, hskip]
  exact listLoop_single hne hifs (fun hmem => hesc (hsub.subset hmem))
    (fun hmem => hnul (hsub.subset hmem)) (head_dropWhile _) (Nat.le_refl _)

theorem plainWord_injective : Function.Injective plainWord := by
  intro v w h
  unfold plainWord at h
  split at h
  next hnil =>
    split at h
    next hnil' => rw [hnil, hnil']
    next => cases h
  next =>
    split at h
    next => cases h
    next => exact congrArg Word.word h

theorem getWords_mono {n m : Nat} {words : List (List Nat)} (hle : n ≤ m)
    (h : getWords K ifs n s = some words) : getWords K ifs m s = some words := by
  induction n generalizing s m words with
  | zero => cases h
  | succ n ih =>
    obtain ⟨m, rfl⟩ := Nat.exists_eq_succ_of_ne_zero (Nat.ne_of_gt (Nat.lt_of_lt_of_le
      (Nat.succ_pos n) hle))
    rw [getWords] at h ⊢
    split
    next hs => rwa [if_pos hs] at h
    next hs =>
      rw [if_neg hs] at h
      obtain ⟨cut, hcut, h⟩ := Option.bind_eq_some_iff.mp h
      rw [hcut]
      dsimp only [Option.bind_eq_bind, Option.bind_some]
      cases hword : cut.word with
      | none =>
        rw [hword] at h
        exact h
      | some word =>
        rw [hword] at h
        obtain ⟨more, hmore, h⟩ := Option.bind_eq_some_iff.mp h
        dsimp only
        rw [ih (Nat.le_of_succ_le_succ hle) hmore]
        exact h

theorem getWords_eq (hne : ifs ≠ []) (hifs : SingleByte K ifs) (hesc : CTLESC ∉ s)
    {words : List (List Nat)} :
    (∃ fuel, getWords K ifs fuel s = some words) ↔
      words = lateFrom (byteSep ifs) (byteSpace ifs) spctabnl (s.dropWhile (byteSpace ifs)) := by
  have hall {n : Nat} (hn : s.length < n) := getWords_single hne hifs hesc hn
  constructor
  · rintro ⟨fuel, h⟩
    have hmax := getWords_mono (Nat.le_max_left fuel (s.length + 1)) h
    rw [hall (Nat.lt_of_lt_of_le (Nat.lt_succ_self _) (Nat.le_max_right _ _))] at hmax
    exact (Option.some.inj hmax).symm
  · rintro rfl
    exact ⟨s.length + 1, hall (Nat.lt_succ_self _)⟩

/-- A word ends before IFS white space of two bytes at least, of which not all behind the first are
spaces, tabs or newlines, and another separator follows. -/
def LateSpace (ifs s : List Nat) : Prop :=
  ∃ pre c run d post, s = pre ++ c :: (run ++ d :: post) ∧ c ∉ ifs ∧
    (∀ b ∈ run, b ∈ ifs ∧ isspace b = true) ∧ (d ∈ ifs ∧ isspace d = false) ∧
    ∃ b ∈ run.tail, spctabnl b = false

theorem lateSpace_iff (ifs s : List Nat) : LateSpace ifs s ↔
    AfterField (byteSep ifs) (Late (byteSep ifs) (byteSpace ifs) spctabnl) s := by
  have hspace (b : Nat) : byteSpace ifs b = true ↔ b ∈ ifs ∧ isspace b = true := by
    simp [byteSpace]
  constructor
  · rintro ⟨pre, c, run, d, post, rfl, hc, hrun, hd, hb⟩
    refine ⟨pre, c, _, rfl, decide_eq_false hc, run, d, post, rfl,
      fun b hb => (hspace b).mpr (hrun b hb), decide_eq_true hd.1, ?_, hb⟩
    rw [byteSpace, hd.2, Bool.and_false]
  · rintro ⟨pre, c, r, rfl, hc, run, d, post, rfl, hrun, hsep, hd, hb⟩
    refine ⟨pre, c, run, d, post, rfl, of_decide_eq_false hc,
      fun b hb => (hspace b).mp (hrun b hb), ⟨of_decide_eq_true hsep, ?_⟩, hb⟩
    rw [byteSpace, show decide (d ∈ ifs) = true from hsep, Bool.true_and] at hd
    exact hd

/-- The two splitters agree exactly if no white space is left in front of a separator. -/
theorem read_splits_alike (l : Locale) {ifs s : List Nat} (hne : ifs ≠ [])
    (hifs : SingleByte l.coding ifs) (hesc : CTLESC ∉ s) (hnul : CTLNUL ∉ s) :
    (∃ words, (∃ fuel, getWords l.coding ifs fuel s = some words) ∧
        listString l.coding s ifs false = some (words.map plainWord)) ↔ ¬LateSpace ifs s := by
  have hhead : ∀ a r, s.dropWhile (byteSpace ifs) = a :: r → byteSpace ifs a = false :=
    head_dropWhile s
  have hlate := lateFrom_eq_iff (byteSpace_sep ifs) (byteSpace_spctabnl ifs) hhead
  rw [lateSpace_iff, ← afterField_dropWhile (byteSpace_sep ifs), ← hlate.2,
    listString_single hne hifs hesc hnul]
  constructor
  · rintro ⟨words, hwords, hlist⟩
    rw [(getWords_eq hne hifs hesc).mp hwords, Option.some.injEq] at hlist
    exact (plainWord_injective.list_map hlist).symm
  · intro heq
    refine ⟨_, (getWords_eq hne hifs hesc).mpr rfl, ?_⟩
    rw [heq]
    rfl

/-- `IFS` is a colon and a space. -/
theorem read_splits_alike_colon :
    ∃ words, (∃ fuel, getWords Locale.utf8.coding [58, 32] fuel [97, 32, 32, 58, 98] =
        some words) ∧
      listString Locale.utf8.coding [97, 32, 32, 58, 98] [58, 32] false =
        some (words.map plainWord) := by
  refine (read_splits_alike .utf8 (by decide) (by unfold SingleByte; decide) (by decide)
    (by decide)).mpr ?_
  rintro ⟨pre, c, run, d, post, -, -, hrun, -, b, hb, hspace⟩
  obtain ⟨hmem, hb⟩ := hrun b (List.mem_of_mem_tail hb)
  rcases List.mem_pair.mp hmem with rfl | rfl
  · cases hb
  · cases hspace

/-- `IFS` is a vertical tab and a colon, and there are two vertical tabs before the colon. -/
theorem read_empty_word :
    SingleByte Locale.c.coding [11, 58] ∧
      getWords Locale.c.coding [11, 58] 6 [97, 11, 11, 58, 98] = some [[97], [], [98]] ∧
      listString Locale.c.coding [97, 11, 11, 58, 98] [11, 58] false =
        some ([[97], [98]].map plainWord) ∧
      ¬∃ words, (∃ fuel, getWords Locale.c.coding [11, 58] fuel [97, 11, 11, 58, 98] =
          some words) ∧
        listString Locale.c.coding [97, 11, 11, 58, 98] [11, 58] false =
          some (words.map plainWord) := by
  have hsingle : SingleByte Locale.c.coding [11, 58] := by
    unfold SingleByte
    decide
  have hread : getWords Locale.c.coding [11, 58] 6 [97, 11, 11, 58, 98] =
      some [[97], [], [98]] := by decide +kernel
  have hlist : listString Locale.c.coding [97, 11, 11, 58, 98] [11, 58] false =
      some ([[97], [98]].map plainWord) := by decide +kernel
  refine ⟨hsingle, hread, hlist, ?_⟩
  rintro ⟨words, hwords, heq⟩
  have hlate := (getWords_eq (by decide) hsingle (by decide)).mp ⟨6, hread⟩
  rw [(getWords_eq (by decide) hsingle (by decide)).mp hwords, ← hlate, hlist] at heq
  revert heq
  decide

end Basht.Words
