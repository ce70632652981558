import Mathlib.Data.List.Basic
import Mathlib.Data.List.TakeWhile

/-!
# Splitting into fields

A text is split at the characters for which `sep` holds; some of these are white space (`ws`).
A delimiter is a run of white space with at most one other separator in it, and it ends the
field before it. White space at the beginning of the text is left out.

A splitter that behind the first character of a delimiter skips less white space (`sp`) makes the
same fields unless a field ends before white space of which `sp` leaves a part, and another
separator follows (`lateFrom_eq_iff`).
-/

namespace Basht.Splitting

variable {α : Type*} (sep ws : α → Bool)

/-- The text behind the delimiter at its head. -/
def afterDelimiter (s : List α) : List α :=
  match s.dropWhile ws with
  | [] => []
  | d :: rest => if sep d then rest.dropWhile ws else d :: rest

def fieldsAux : Nat → List α → List (List α)
  | 0, _ => []
  | _ + 1, [] => []
  | fuel + 1, a :: s => (a :: s).takeWhile (fun c => !sep c) ::
    fieldsAux fuel (afterDelimiter sep ws ((a :: s).dropWhile fun c => !sep c))

/-- The fields of a text that does not begin with white space. -/
def fieldsFrom (s : List α) : List (List α) := fieldsAux sep ws s.length s

/-- The fields of a text. -/
def fields (s : List α) : List (List α) := fieldsFrom sep ws (s.dropWhile ws)

variable {sep ws} {s run post : List α} {v : α}

theorem head_dropWhile (s : List α) : ∀ a r, s.dropWhile ws = a :: r → ws a = false := by
  intro a r heq
  have hne : s.dropWhile ws ≠ [] := by
    rw [heq]
    exact List.cons_ne_nil _ _
  have hhead := List.head_dropWhile_not ws hne
  simpa only [heq, List.head_cons] using hhead

theorem dropWhile_of_sep (hv : sep v = true) (s : List α) :
    (v :: s).dropWhile (fun c => !sep c) = v :: s := by
  simp [hv]

theorem dropWhile_of_not_sep (hv : sep v = false) (s : List α) :
    (v :: s).dropWhile (fun c => !sep c) = s.dropWhile fun c => !sep c := by
  simp [hv]

theorem sep_of_dropWhile (heq : (s.dropWhile fun c => !sep c) = v :: post) : sep v = true := by
  simpa using head_dropWhile s v post heq

theorem takeWhile_of_sep (hv : sep v = true) (s : List α) :
    (v :: s).takeWhile (fun c => !sep c) = [] := by
  simp [hv]

theorem takeWhile_of_not_sep (hv : sep v = false) (s : List α) :
    (v :: s).takeWhile (fun c => !sep c) = v :: s.takeWhile fun c => !sep c := by
  simp [hv]

theorem not_sep_of_mem_takeWhile (hv : v ∈ s.takeWhile fun c => !sep c) : sep v = false := by
  simpa using List.mem_takeWhile_imp hv

theorem afterDelimiter_suffix (sep ws : α → Bool) (s : List α) : afterDelimiter sep ws s <:+ s := by
  have hdrop : s.dropWhile ws <:+ s := List.dropWhile_suffix ws
  unfold afterDelimiter
  split
  · exact List.nil_suffix
  · rename_i d rest heq
    rw [heq] at hdrop
    split
    · exact ((List.dropWhile_suffix ws).trans (List.suffix_cons d rest)).trans hdrop
    · exact hdrop

/-- A delimiter that has no other separator than white space, or one. -/
theorem afterDelimiter_append (hrun : ∀ c ∈ run, ws c = true) (hv : ws v = false)
    (post : List α) : afterDelimiter sep ws (run ++ v :: post) =
      if sep v then post.dropWhile ws else v :: post := by
  have hdrop : (run ++ v :: post).dropWhile ws = v :: post := by
    rw [List.dropWhile_append_of_pos hrun, List.dropWhile_cons_of_neg]
    rw [hv]
    exact Bool.false_ne_true
  rw [afterDelimiter, hdrop]

theorem afterDelimiter_run (hrun : ∀ c ∈ run, ws c = true) : afterDelimiter sep ws run = [] := by
  rw [afterDelimiter, List.dropWhile_eq_nil_iff.mpr hrun]

/-- A run of white space, and what is behind it. -/
theorem exists_run (ws : α → Bool) (s : List α) : ∃ run, (∀ c ∈ run, ws c = true) ∧
    (s = run ∨ ∃ v post, s = run ++ v :: post ∧ ws v = false) := by
  refine ⟨s.takeWhile ws, fun c hc => List.mem_takeWhile_imp hc, ?_⟩
  have hsplit := List.takeWhile_append_dropWhile (p := ws) (l := s)
  cases hdrop : s.dropWhile ws with
  | nil =>
    rw [hdrop, List.append_nil] at hsplit
    exact Or.inl hsplit.symm
  | cons v post =>
    rw [hdrop] at hsplit
    exact Or.inr ⟨v, post, hsplit.symm, head_dropWhile s v post hdrop⟩

theorem afterDelimiter_cons (hv : sep v = true) (post : List α) :
    (afterDelimiter sep ws (v :: post)).length ≤ post.length := by
  obtain ⟨run, hrun, heq | ⟨d, after, heq, hd⟩⟩ := exists_run ws (v :: post)
  · rw [heq, afterDelimiter_run hrun]
    exact Nat.zero_le _
  · rw [heq, afterDelimiter_append hrun hd]
    cases run with
    | nil =>
      rw [List.nil_append, List.cons.injEq] at heq
      rw [← heq.1, if_pos hv, ← heq.2]
      exact (List.dropWhile_suffix ws).length_le
    | cons c run =>
      have hlen : post.length = (run ++ d :: after).length :=
        congrArg List.length (List.cons.inj heq).2
      rw [List.length_append, List.length_cons] at hlen
      have hdrop : (after.dropWhile ws).length ≤ after.length :=
        (List.dropWhile_suffix ws).length_le
      split
      · omega
      · rw [List.length_cons]
        omega

/-- The text behind a delimiter does not begin with white space. -/
theorem head_afterDelimiter (s : List α) :
    ∀ a r, afterDelimiter sep ws s = a :: r → ws a = false := by
  intro a r heq
  unfold afterDelimiter at heq
  split at heq
  · cases heq
  · rename_i d rest hdrop
    split at heq
    · exact head_dropWhile rest a r heq
    · rw [← (List.cons.inj heq).1]
      exact head_dropWhile s d rest hdrop

/-- A character that is no separator stays. -/
theorem dropWhile_append_cons (hv : ws v = false) (s post : List α) :
    (s ++ v :: post).dropWhile ws = s.dropWhile ws ++ v :: post := by
  induction s with
  | nil => simp [hv]
  | cons a s ih =>
    by_cases ha : ws a = true
    · rw [List.cons_append, List.dropWhile_cons_of_pos ha, List.dropWhile_cons_of_pos ha, ih]
    · rw [List.cons_append, List.dropWhile_cons_of_neg ha, List.dropWhile_cons_of_neg ha]
      rfl

theorem afterDelimiter_append_cons (hws : ∀ c, ws c = true → sep c = true) (hv : sep v = false)
    (s post : List α) : ∃ s', afterDelimiter sep ws (s ++ v :: post) = s' ++ v :: post := by
  have hwv : ws v = false := by
    rw [Bool.eq_false_iff]
    intro h
    rw [hws v h] at hv
    cases hv
  rw [afterDelimiter, dropWhile_append_cons hwv]
  cases s.dropWhile ws with
  | nil => exact ⟨[], by simp [hv]⟩
  | cons d rest =>
    by_cases hd : sep d = true
    · exact ⟨rest.dropWhile ws, by simp [hd, dropWhile_append_cons hwv]⟩
    · exact ⟨d :: rest, by simp [hd]⟩

/-- What one field takes is not empty. -/
theorem length_afterDelimiter (sep ws : α → Bool) (hs : s ≠ []) :
    (afterDelimiter sep ws (s.dropWhile fun c => !sep c)).length < s.length := by
  obtain ⟨a, s, rfl⟩ := List.exists_cons_of_ne_nil hs
  by_cases ha : sep a = true
  · rw [dropWhile_of_sep ha]
    exact Nat.lt_succ_of_le (afterDelimiter_cons ha s)
  · rw [dropWhile_of_not_sep (Bool.eq_false_iff.mpr ha)]
    have hle := (afterDelimiter_suffix sep ws
      (s.dropWhile fun c => !sep c)).length_le
    have hdrop : (s.dropWhile fun c => !sep c).length ≤ s.length :=
      (List.dropWhile_suffix _).length_le
    rw [List.length_cons]
    omega

theorem fieldsAux_eq {fuel : Nat} (h : s.length ≤ fuel) :
    fieldsAux sep ws fuel s = fieldsFrom sep ws s := by
  induction fuel using Nat.strongRecOn generalizing s with
  | ind fuel ih =>
    cases s with
    | nil => cases fuel <;> rfl
    | cons a s =>
      obtain ⟨fuel, rfl⟩ := Nat.exists_eq_succ_of_ne_zero (Nat.ne_of_gt (Nat.lt_of_lt_of_le
        (Nat.succ_pos _) h))
      have hlt := length_afterDelimiter sep ws (List.cons_ne_nil a s)
      rw [List.length_cons] at h hlt
      rw [fieldsFrom, List.length_cons, fieldsAux, fieldsAux,
        ih fuel (Nat.lt_succ_self _) (by omega)]
      by_cases heq : s.length = fuel
      · rw [heq, ih fuel (Nat.lt_succ_self _) (by omega)]
      · rw [ih s.length (by omega) (by omega)]

@[simp] theorem fieldsFrom_nil : fieldsFrom sep ws [] = [] := rfl

theorem fieldsFrom_of_ne_nil (hs : s ≠ []) :
    fieldsFrom sep ws s = s.takeWhile (fun c => !sep c) ::
      fieldsFrom sep ws (afterDelimiter sep ws (s.dropWhile fun c => !sep c)) := by
  have hlt := length_afterDelimiter sep ws hs
  obtain ⟨a, s, rfl⟩ := List.exists_cons_of_ne_nil hs
  rw [fieldsFrom, List.length_cons, fieldsAux, fieldsAux_eq]
  rw [List.length_cons] at hlt
  omega

/-- Somewhere, behind a character that is no separator, the text has the property `P`. -/
def AfterField (sep : α → Bool) (P : List α → Prop) (s : List α) : Prop :=
  ∃ pre c r, s = pre ++ c :: r ∧ sep c = false ∧ P r

variable {P : List α → Prop}

/-- If `P` is about white space and what follows it, it holds behind the first field or later. -/
theorem afterField_iff (hws : ∀ c, ws c = true → sep c = true)
    (hP : ∀ r, P r → ∃ v t, r = v :: t ∧ ws v = true)
    (hhead : ∀ a r, s = a :: r → ws a = false) :
    AfterField sep P s ↔ P (s.dropWhile fun c => !sep c) ∨
      AfterField sep P (afterDelimiter sep ws (s.dropWhile fun c => !sep c)) := by
  have hsplit := List.takeWhile_append_dropWhile (p := fun c => !sep c) (l := s)
  have hword : ∀ c ∈ s.takeWhile (fun c => !sep c), sep c = false :=
    fun c hc => not_sep_of_mem_takeWhile hc
  constructor
  · rintro ⟨pre, c, r, hs, hc, hr⟩
    have hcut := hsplit.trans hs
    rw [List.append_eq_append_iff] at hcut
    rcases hcut with ⟨a, hpre, hrest⟩ | ⟨a, hw, hrest⟩
    · -- the character is not in the first field
      refine Or.inr ?_
      obtain ⟨s', hs'⟩ := afterDelimiter_append_cons hws hc a r
      exact ⟨s', c, r, by rw [hrest, hs'], hc, hr⟩
    · cases a with
      | nil =>
        rw [List.nil_append] at hrest
        have hsep := sep_of_dropWhile hrest.symm
        rw [hc] at hsep
        cases hsep
      | cons d a =>
        rw [List.cons_append, List.cons.injEq] at hrest
        obtain ⟨rfl, hrest⟩ := hrest
        cases a with
        | nil =>
          rw [List.nil_append] at hrest
          exact Or.inl (hrest ▸ hr)
        | cons e a =>
          -- the white space would be in the first field
          obtain ⟨v, t, rfl, hv⟩ := hP r hr
          rw [List.cons_append, List.cons.injEq] at hrest
          have he : sep e = false := by
            refine hword e ?_
            rw [hw]
            exact List.mem_append_right _ (List.mem_cons_of_mem _ (List.mem_cons_self ..))
          rw [← hrest.1, hws v hv] at he
          cases he
  · rintro (hr | ⟨pre, c, r, hpre, hc, hr⟩)
    · rcases List.eq_nil_or_concat' (s.takeWhile fun c => !sep c) with hw | ⟨pre, c, hw⟩
      · -- the white space would be at the head
        obtain ⟨v, t, ht, hv⟩ := hP _ hr
        rw [hw, List.nil_append, ht] at hsplit
        rw [hhead v t hsplit.symm] at hv
        cases hv
      · refine ⟨pre, c, _, ?_, hword c ?_, hr⟩
        · rw [hw, List.append_assoc] at hsplit
          exact hsplit.symm
        · rw [hw]
          exact List.mem_append_right _ (List.mem_singleton_self c)
    · obtain ⟨front, hfront⟩ := (afterDelimiter_suffix sep ws _).trans
        (List.dropWhile_suffix (l := s) fun c => !sep c)
      refine ⟨front ++ pre, c, r, ?_, hc, hr⟩
      rw [← hfront, hpre, List.append_assoc]

/-- White space at the beginning does not matter. -/
theorem afterField_dropWhile (hws : ∀ c, ws c = true → sep c = true) :
    AfterField sep P (s.dropWhile ws) ↔ AfterField sep P s := by
  have hsplit := List.takeWhile_append_dropWhile (p := ws) (l := s)
  constructor
  · rintro ⟨pre, c, r, heq, hc, hr⟩
    refine ⟨s.takeWhile ws ++ pre, c, r, ?_, hc, hr⟩
    rw [List.append_assoc, ← heq, hsplit]
  · rintro ⟨pre, c, r, rfl, hc, hr⟩
    have hspace : ws c = false := by
      rw [Bool.eq_false_iff]
      intro hspace
      rw [hws c hspace] at hc
      cases hc
    exact ⟨_, c, r, dropWhile_append_cons hspace pre r, hc, hr⟩

/-! ## White space that is skipped late -/

variable (sep ws) (sp : α → Bool)

/-- The text behind the first character of a delimiter and, of what follows, the white space for
which `sp` holds, and one more separator if it is there and the first was white space. -/
def afterFirst : List α → List α
  | [] => []
  | c :: s =>
    match s.dropWhile fun c => sp c && sep c with
    | [] => []
    | d :: rest => if ws c && sep d && !ws d then rest.dropWhile ws else d :: rest

def lateAux : Nat → List α → List (List α)
  | 0, _ => []
  | _ + 1, [] => []
  | fuel + 1, a :: s => (a :: s).takeWhile (fun c => !sep c) ::
    lateAux fuel ((afterFirst sep ws sp ((a :: s).dropWhile fun c => !sep c)).dropWhile ws)

/-- The fields of a text that does not begin with white space, if the white space that is not
skipped behind a field is skipped before the next one. -/
def lateFrom (s : List α) : List (List α) := lateAux sep ws sp s.length s

/-- White space of which a part is left, and a separator behind it. -/
def Late (r : List α) : Prop :=
  ∃ run d post, r = run ++ d :: post ∧ (∀ c ∈ run, ws c = true) ∧ sep d = true ∧ ws d = false ∧
    ∃ c ∈ run.tail, sp c = false

variable {sep ws sp}

theorem late_head {r : List α} (h : Late sep ws sp r) : ∃ v t, r = v :: t ∧ ws v = true := by
  obtain ⟨run, d, post, rfl, hrun, -, -, c, hc, -⟩ := h
  cases run with
  | nil => cases hc
  | cons v run => exact ⟨v, _, rfl, hrun v (List.mem_cons_self ..)⟩

theorem not_late_of_all {r : List α} (hr : ∀ c ∈ r, ws c = true) : ¬Late sep ws sp r := by
  rintro ⟨run, d, post, rfl, -, -, hd, -⟩
  rw [hr d (List.mem_append_right _ (List.mem_cons_self ..))] at hd
  cases hd

/-- The run in front of the character that is no white space is all of it. -/
theorem late_append {d : α} (hrun : ∀ c ∈ run, ws c = true) (hd : ws d = false) :
    Late sep ws sp (run ++ d :: post) ↔ sep d = true ∧ ∃ c ∈ run.tail, sp c = false := by
  constructor
  · rintro ⟨run', d', post', heq, hrun', hsep, hd', hc⟩
    have hcut : ∀ {run : List α} {d : α}, (∀ c ∈ run, ws c = true) → ws d = false → ∀ post,
        (run ++ d :: post).takeWhile ws = run := by
      intro run d hrun hd post
      rw [List.takeWhile_append_of_pos hrun, List.takeWhile_cons_of_neg, List.append_nil]
      exact Bool.eq_false_iff.mp hd
    have hrunEq : run = run' := by rw [← hcut hrun hd post, heq, hcut hrun' hd']
    subst hrunEq
    obtain ⟨rfl, -⟩ := List.cons.inj (List.append_cancel_left heq)
    exact ⟨hsep, hc⟩
  · rintro ⟨hsep, hc⟩
    exact ⟨run, d, post, rfl, hrun, hsep, hd, hc⟩

theorem dropWhile_dropWhile_of_imp {p q : α → Bool} (h : ∀ c, p c = true → q c = true)
    (s : List α) : (s.dropWhile p).dropWhile q = s.dropWhile q := by
  have hsplit := List.takeWhile_append_dropWhile (p := p) (l := s)
  have hall : ∀ c ∈ s.takeWhile p, q c = true := fun c hc => h c (List.mem_takeWhile_imp hc)
  conv_rhs => rw [← hsplit]
  rw [List.dropWhile_append_of_pos hall]

theorem afterFirst_of_not_ws {c : α} (hc : ws c = false) (s : List α) :
    afterFirst sep ws sp (c :: s) = s.dropWhile fun c => sp c && sep c := by
  rw [afterFirst, hc]
  split
  next heq => exact heq.symm
  next d rest heq => exact heq.symm

theorem afterFirst_of_ws {c d : α} (hc : ws c = true) {s rest : List α}
    (hs : (s.dropWhile fun c => sp c && sep c) = d :: rest) :
    afterFirst sep ws sp (c :: s) =
      if sep d = true ∧ ws d = false then rest.dropWhile ws else d :: rest := by
  rw [afterFirst, hs, hc]
  dsimp only
  congr 1
  simp

theorem afterFirst_suffix (sep ws sp : α → Bool) (c : α) (s : List α) :
    afterFirst sep ws sp (c :: s) <:+ s := by
  have hdrop : (s.dropWhile fun c => sp c && sep c) <:+ s := List.dropWhile_suffix _
  rw [afterFirst]
  cases hs : s.dropWhile fun c => sp c && sep c with
  | nil => exact List.nil_suffix
  | cons d rest =>
    rw [hs] at hdrop
    dsimp only
    split
    · exact ((List.dropWhile_suffix ws).trans (List.suffix_cons d rest)).trans hdrop
    · exact hdrop

theorem afterFirst_suffix' (sep ws sp : α → Bool) (s : List α) : afterFirst sep ws sp s <:+ s := by
  cases s with
  | nil => exact List.nil_suffix
  | cons c s => exact (afterFirst_suffix sep ws sp c s).trans (List.suffix_cons c s)

/-- If one of the run is not dropped, a part of the run is left. -/
theorem exists_left {p : α → Bool} (hrun : ∃ c ∈ run, p c = false) (post : List α) :
    ∃ e left, (run ++ post).dropWhile p = e :: (left ++ post) ∧ ∀ c ∈ e :: left, c ∈ run := by
  obtain ⟨c, hc, hpc⟩ := hrun
  obtain ⟨e, left, hleft⟩ : ∃ e left, run.dropWhile p = e :: left := by
    apply List.exists_cons_of_ne_nil
    intro hnil
    have hdropped := List.dropWhile_eq_nil_iff.mp hnil c hc
    rw [hpc] at hdropped
    cases hdropped
  refine ⟨e, left, ?_, fun c hc => (List.dropWhile_suffix p).subset (hleft ▸ hc)⟩
  rw [List.dropWhile_append, hleft]
  rfl

/-- White space at the head of the delimiter, and behind it a character that is none. -/
theorem afterFirst_run (hws : ∀ c, ws c = true → sep c = true)
    (hsp : ∀ c, sp c = true → sep c = true → ws c = true) {d : α} (hv : ws v = true)
    (hrun : ∀ c ∈ run, ws c = true) (hd : ws d = false) :
    (afterFirst sep ws sp (v :: run ++ d :: post)).dropWhile ws =
      if sep d = true ∧ ¬∃ c ∈ run, sp c = false then post.dropWhile ws else d :: post := by
  have hnd : ¬ws d = true := Bool.eq_false_iff.mp hd
  by_cases hskip : ∃ c ∈ run, sp c = false
  · obtain ⟨e, left, hleft, hmem⟩ := exists_left (p := fun c => sp c && sep c)
      (by obtain ⟨c, hc, hspc⟩ := hskip; exact ⟨c, hc, by rw [hspc, Bool.false_and]⟩) (d :: post)
    have hspace : ∀ c ∈ e :: left, ws c = true := fun c hc => hrun c (hmem c hc)
    have he := hspace e (List.mem_cons_self ..)
    have hdrop : (e :: (left ++ d :: post)).dropWhile ws = d :: post := by
      rw [← List.cons_append, List.dropWhile_append_of_pos hspace,
        List.dropWhile_cons_of_neg hnd]
    rw [List.cons_append, afterFirst_of_ws hv hleft, if_neg fun h => Bool.eq_false_iff.mp h.2 he,
      hdrop, if_neg fun h => h.2 hskip]
  · have hboth : ∀ c ∈ run, (sp c && sep c) = true := by
      intro c hc
      have hspc : sp c = true := by
        by_contra hspc
        exact hskip ⟨c, hc, Bool.eq_false_iff.mpr hspc⟩
      rw [hspc, hws c (hrun c hc)]
      rfl
    have hrest : ((run ++ d :: post).dropWhile fun c => sp c && sep c) = d :: post := by
      rw [List.dropWhile_append_of_pos hboth, List.dropWhile_cons_of_neg]
      intro h
      exact hnd (hsp d (Bool.and_eq_true_iff.mp h).1 (Bool.and_eq_true_iff.mp h).2)
    rw [List.cons_append, afterFirst_of_ws hv hrest]
    cases hsep : sep d with
    | false => rw [if_neg nofun, if_neg nofun, List.dropWhile_cons_of_neg hnd]
    | true =>
      rw [if_pos ⟨rfl, hd⟩, if_pos ⟨rfl, hskip⟩, dropWhile_dropWhile_of_imp fun _ h => h]

/-- Behind one delimiter: the same text, or the one in front of the next separator. -/
theorem afterFirst_cases (hws : ∀ c, ws c = true → sep c = true)
    (hsp : ∀ c, sp c = true → sep c = true → ws c = true) {r : List α}
    (hr : ∀ c t, r = c :: t → sep c = true) :
    (¬Late sep ws sp r ∧ (afterFirst sep ws sp r).dropWhile ws = afterDelimiter sep ws r) ∨
      (Late sep ws sp r ∧ ∃ d post, (afterFirst sep ws sp r).dropWhile ws = d :: post ∧
        sep d = true ∧ ws d = false ∧ afterDelimiter sep ws r = post.dropWhile ws) := by
  cases r with
  | nil => exact Or.inl ⟨not_late_of_all nofun, rfl⟩
  | cons v r =>
    have hv := hr v r rfl
    by_cases hwv : ws v = true
    · obtain ⟨run, hrun, rfl | ⟨d, post, rfl, hd⟩⟩ := exists_run ws r
      · -- nothing but white space
        have hall : ∀ c ∈ v :: r, ws c = true := List.forall_mem_cons.mpr ⟨hwv, hrun⟩
        refine Or.inl ⟨not_late_of_all hall, ?_⟩
        rw [afterDelimiter_run hall, List.dropWhile_eq_nil_iff]
        exact fun c hc => hrun c ((afterFirst_suffix sep ws sp v r).subset hc)
      · have hall : ∀ c ∈ v :: run, ws c = true := List.forall_mem_cons.mpr ⟨hwv, hrun⟩
        rw [← List.cons_append, late_append hall hd, afterDelimiter_append hall hd,
          afterFirst_run hws hsp hwv hrun hd, List.tail_cons]
        by_cases hlate : sep d = true ∧ ∃ c ∈ run, sp c = false
        · rw [if_neg fun h => h.2 hlate.2, if_pos hlate.1]
          exact Or.inr ⟨hlate, d, post, rfl, hlate.1, hd, rfl⟩
        · refine Or.inl ⟨hlate, ?_⟩
          cases hsep : sep d with
          | false => rw [if_neg nofun, if_neg nofun]
          | true => rw [if_pos ⟨rfl, fun h => hlate ⟨hsep, h⟩⟩, if_pos rfl]
    · -- a separator that is no white space
      have hwv' := Bool.eq_false_iff.mpr hwv
      have hlate : Late sep ws sp ([] ++ v :: r) ↔ _ := late_append nofun hwv'
      have hafter : afterDelimiter sep ws ([] ++ v :: r) = _ := afterDelimiter_append nofun hwv' r
      rw [List.nil_append] at hlate hafter
      refine Or.inl ⟨fun h => ?_, ?_⟩
      · obtain ⟨-, c, hc, -⟩ := hlate.mp h
        cases hc
      · rw [hafter, if_pos hv, afterFirst_of_not_ws hwv', dropWhile_dropWhile_of_imp]
        exact fun c h => hsp c (Bool.and_eq_true_iff.mp h).1 (Bool.and_eq_true_iff.mp h).2

theorem length_afterFirst (sep ws sp : α → Bool) (hs : s ≠ []) :
    (afterFirst sep ws sp (s.dropWhile fun c => !sep c)).length < s.length := by
  have hword : (s.dropWhile fun c => !sep c).length ≤ s.length :=
    (List.dropWhile_suffix _).length_le
  cases hrest : s.dropWhile fun c => !sep c with
  | nil => exact List.length_pos_iff.mpr hs
  | cons c r =>
    have hafter := (afterFirst_suffix sep ws sp c r).length_le
    rw [hrest, List.length_cons] at hword
    omega

theorem length_afterFirst_dropWhile (sep ws sp : α → Bool) (hs : s ≠ []) :
    ((afterFirst sep ws sp (s.dropWhile fun c => !sep c)).dropWhile ws).length < s.length :=
  Nat.lt_of_le_of_lt (List.dropWhile_suffix ws).length_le (length_afterFirst sep ws sp hs)

theorem lateAux_eq {fuel : Nat} (h : s.length ≤ fuel) :
    lateAux sep ws sp fuel s = lateFrom sep ws sp s := by
  induction fuel using Nat.strongRecOn generalizing s with
  | ind fuel ih =>
    cases s with
    | nil => cases fuel <;> rfl
    | cons a s =>
      obtain ⟨fuel, rfl⟩ := Nat.exists_eq_succ_of_ne_zero (Nat.ne_of_gt (Nat.lt_of_lt_of_le
        (Nat.succ_pos _) h))
      have hlt := length_afterFirst_dropWhile sep ws sp (List.cons_ne_nil a s)
      rw [List.length_cons] at h hlt
      rw [lateFrom, List.length_cons, lateAux, lateAux,
        ih fuel (Nat.lt_succ_self _) (by omega)]
      by_cases heq : s.length = fuel
      · rw [heq, ih fuel (Nat.lt_succ_self _) (by omega)]
      · rw [ih s.length (by omega) (by omega)]

@[simp] theorem lateFrom_nil : lateFrom sep ws sp [] = [] := rfl

theorem lateFrom_of_ne_nil (hs : s ≠ []) :
    lateFrom sep ws sp s = s.takeWhile (fun c => !sep c) ::
      lateFrom sep ws sp
        ((afterFirst sep ws sp (s.dropWhile fun c => !sep c)).dropWhile ws) := by
  have hlt := length_afterFirst_dropWhile sep ws sp hs
  obtain ⟨a, s, rfl⟩ := List.exists_cons_of_ne_nil hs
  rw [lateFrom, List.length_cons, lateAux, lateAux_eq]
  rw [List.length_cons] at hlt
  omega

/-- A separator that is no white space at the head is an empty field. -/
theorem lateFrom_sep (hsp : ∀ c, sp c = true → sep c = true → ws c = true) {d : α}
    (hsep : sep d = true) (hd : ws d = false) (post : List α) :
    lateFrom sep ws sp (d :: post) = [] :: lateFrom sep ws sp (post.dropWhile ws) := by
  rw [lateFrom_of_ne_nil (List.cons_ne_nil d post), takeWhile_of_sep hsep, dropWhile_of_sep hsep,
    afterFirst_of_not_ws hd, dropWhile_dropWhile_of_imp]
  exact fun c h => hsp c (Bool.and_eq_true_iff.mp h).1 (Bool.and_eq_true_iff.mp h).2

/-- Skipping late never makes fewer fields, and makes more exactly if white space is left in front
of another separator. -/
theorem lateFrom_eq_iff (hws : ∀ c, ws c = true → sep c = true)
    (hsp : ∀ c, sp c = true → sep c = true → ws c = true)
    (hhead : ∀ a r, s = a :: r → ws a = false) :
    (fieldsFrom sep ws s).length ≤ (lateFrom sep ws sp s).length ∧
      (lateFrom sep ws sp s = fieldsFrom sep ws s ↔ ¬AfterField sep (Late sep ws sp) s) := by
  induction h : s.length using Nat.strongRecOn generalizing s with
  | ind n ih =>
    by_cases hs : s = []
    · subst hs
      refine ⟨Nat.le_refl _, iff_of_true rfl ?_⟩
      rintro ⟨pre, c, r, heq, -⟩
      exact List.append_ne_nil_of_right_ne_nil pre (List.cons_ne_nil c r) heq.symm
    · have hlt := length_afterDelimiter sep ws hs
      obtain ⟨hle, hiff⟩ := ih _ (h ▸ hlt) (head_afterDelimiter _) rfl
      rw [lateFrom_of_ne_nil hs, fieldsFrom_of_ne_nil hs,
        afterField_iff hws (fun r => late_head) hhead]
      rcases afterFirst_cases hws hsp (fun c t => sep_of_dropWhile (s := s)) with
          ⟨hlate, hafter⟩ | ⟨hlate, d, post, hafter, hsep, hd, hpost⟩
      · rw [hafter, List.length_cons, List.length_cons, List.cons.injEq, hiff]
        exact ⟨Nat.succ_le_succ hle, by simp [hlate]⟩
      · -- the separator makes another field
        rw [hafter, lateFrom_sep hsp hsep hd, ← hpost, List.length_cons, List.length_cons,
          List.length_cons]
        refine ⟨by omega, iff_of_false (fun heq => ?_) (fun hno => hno (Or.inl hlate))⟩
        have hlen := congrArg List.length (List.cons.inj heq).2
        rw [List.length_cons] at hlen
        omega

end Basht.Splitting
