import Mathlib.Data.List.Basic

/-!
# Paths as stacks of elements

A path is a text whose elements are split by a separator. They come onto a stack from left to
right: empty elements and single dots are left out, and two dots take an ordinary element from
the stack. The canonical path is what is on the stack at the end (`canonical`), behind the
separators that the path begins with. It is its own canonical path (`canonical_canonical`).
-/

namespace Basht.Paths

variable {α : Type*} [DecidableEq α] (dot sep : α) (rooted : Bool)

/-- The element `e` comes onto a stack; the head of the list is the top of the stack. -/
def push (stack : List (List α)) (e : List α) : List (List α) :=
  if e = [] ∨ e = [dot] then stack
  else if e = [dot, dot] then
    match stack with
    | [] => if rooted then [] else [e]
    | top :: rest => if top = [dot, dot] then e :: top :: rest else rest
  else e :: stack

/-- The elements of a text come onto a stack. -/
def process (stack : List (List α)) (text : List α) : List (List α) :=
  (text.splitOn sep).foldl (push dot rooted) stack

/-- The text of a stack. -/
def render : List (List α) → List α
  | [] => []
  | e :: stack => if stack = [] then e else render stack ++ sep :: e

/-- The separators at the beginning of a canonical path: both, if there are two. -/
def lead (path : List α) : List α :=
  if path.head? = some sep then
    if path[1]? = some sep ∧ path[2]? ≠ some sep then [sep, sep] else [sep]
  else []

def isRooted (path : List α) : Bool := path.head? = some sep

def canonical (path : List α) : List α :=
  let text := lead sep path ++ render sep (process dot sep (isRooted sep path) [] path)
  if text = [] then [dot] else text

/-- The stacks there are: two dots only at the bottom, and not below the root. -/
inductive Resolved : List (List α) → Prop where
  | nil : Resolved []
  | dotdot {stack : List (List α)} (h : Resolved stack) (hall : ∀ e ∈ stack, e = [dot, dot])
      (hrooted : rooted = false) : Resolved ([dot, dot] :: stack)
  | ordinary {stack : List (List α)} {e : List α} (h : Resolved stack) (hnil : e ≠ [])
      (hdot : e ≠ [dot]) (hdotdot : e ≠ [dot, dot]) (hsep : sep ∉ e) : Resolved (e :: stack)

variable {dot sep rooted} {stack : List (List α)} {e s t : List α} {a : α}

/-! ## Pushing -/

theorem push_nil : push dot rooted stack [] = stack := by
  unfold push
  exact if_pos (Or.inl rfl)

theorem push_dot : push dot rooted stack [dot] = stack := by
  unfold push
  exact if_pos (Or.inr rfl)

theorem push_ordinary (hnil : e ≠ []) (hdot : e ≠ [dot]) (hdotdot : e ≠ [dot, dot]) :
    push dot rooted stack e = e :: stack := by
  unfold push
  rw [if_neg (not_or.mpr ⟨hnil, hdot⟩), if_neg hdotdot]

theorem push_dotdot_nil : push dot rooted [] [dot, dot] = if rooted then [] else [[dot, dot]] := by
  simp [push]

theorem push_dotdot_cons {top : List α} : push dot rooted (top :: stack) [dot, dot] =
    if top = [dot, dot] then [dot, dot] :: top :: stack else stack := by
  simp [push]

theorem Resolved.push (h : Resolved dot sep rooted stack) (he : sep ∉ e) :
    Resolved dot sep rooted (push dot rooted stack e) := by
  by_cases hnil : e = []
  · rw [hnil, push_nil]
    exact h
  by_cases hdot : e = [dot]
  · rw [hdot, push_dot]
    exact h
  by_cases hdotdot : e = [dot, dot]
  · rw [hdotdot]
    cases h with
    | nil =>
      rw [push_dotdot_nil]
      cases rooted with
      | true => exact .nil
      | false => exact .dotdot .nil (by simp) rfl
    | dotdot h hall hrooted =>
      rw [push_dotdot_cons, if_pos rfl]
      refine .dotdot (.dotdot h hall hrooted) (fun e he => ?_) hrooted
      exact (List.mem_cons.mp he).elim id (hall e)
    | ordinary h _ _ hne _ =>
      rw [push_dotdot_cons, if_neg hne]
      exact h
  · rw [push_ordinary hnil hdot hdotdot]
    exact .ordinary h hnil hdot hdotdot he

/-! ## Processing a text -/

theorem process_nil : process dot sep rooted stack [] = stack := by
  rw [process, List.splitOn_nil, List.foldl_cons, push_nil, List.foldl_nil]

theorem process_of_not_mem (he : sep ∉ e) :
    process dot sep rooted stack e = push dot rooted stack e := by
  rw [process, List.splitOn_eq_singleton he, List.foldl_cons, List.foldl_nil]

theorem process_append_cons (s t : List α) : process dot sep rooted stack (s ++ sep :: t) =
    process dot sep rooted (process dot sep rooted stack s) t := by
  unfold process
  rw [List.splitOn_append_cons_self, List.foldl_append]

theorem process_cons (t : List α) :
    process dot sep rooted stack (sep :: t) = process dot sep rooted stack t := by
  have h : process dot sep rooted stack ([] ++ sep :: t) = _ := process_append_cons [] t
  rw [process_nil] at h
  exact h

omit [DecidableEq α] in
/-- The element at the head of a text. -/
theorem exists_element (sep : α) (s : List α) :
    ∃ e t, s = e ++ t ∧ sep ∉ e ∧ (t.head? = none ∨ t.head? = some sep) := by
  induction s with
  | nil => exact ⟨[], [], rfl, List.not_mem_nil, Or.inl rfl⟩
  | cons a s ih =>
    by_cases ha : a = sep
    · exact ⟨[], a :: s, rfl, List.not_mem_nil, Or.inr (congrArg some ha)⟩
    · obtain ⟨e, t, rfl, he, ht⟩ := ih
      exact ⟨a :: e, t, rfl, fun hmem => (List.mem_cons.mp hmem).elim (Ne.symm ha) he, ht⟩

/-- An element at the head of a text, which a separator or the end of the text follows. -/
theorem process_element (he : sep ∉ e) (ht : t.head? = none ∨ t.head? = some sep) :
    process dot sep rooted stack (e ++ t) =
      process dot sep rooted (push dot rooted stack e) t := by
  cases t with
  | nil => rw [List.append_nil, process_nil, process_of_not_mem he]
  | cons a t =>
    obtain rfl : a = sep := by simpa using ht
    rw [process_append_cons, process_of_not_mem he, process_cons]

theorem not_mem_of_mem_splitOn (sep : α) (s : List α) : ∀ e ∈ s.splitOn sep, sep ∉ e := by
  induction s with
  | nil => simp
  | cons a s ih =>
    intro e he
    rw [List.splitOn_cons_eq_if_modifyHead] at he
    split at he
    · rcases List.mem_cons.mp he with rfl | he
      · exact List.not_mem_nil
      · exact ih e he
    · rename_i hne
      cases hparts : s.splitOn sep with
      | nil => exact absurd hparts (List.splitOn_ne_nil sep s)
      | cons p parts =>
        rw [hparts] at he ih
        obtain ⟨hp, hrest⟩ := List.forall_mem_cons.mp ih
        rcases List.mem_cons.mp he with rfl | he
        · simp only [beq_iff_eq] at hne
          exact fun hmem => (List.mem_cons.mp hmem).elim (Ne.symm hne) hp
        · exact hrest e he

theorem Resolved.process (h : Resolved dot sep rooted stack) (s : List α) :
    Resolved dot sep rooted (process dot sep rooted stack s) := by
  unfold Paths.process
  have hparts := not_mem_of_mem_splitOn sep s
  generalize s.splitOn sep = parts at hparts
  induction parts generalizing stack with
  | nil => exact h
  | cons e parts ih =>
    obtain ⟨he, hrest⟩ := List.forall_mem_cons.mp hparts
    exact ih (h.push he) hrest

/-! ## The text of a stack -/

omit [DecidableEq α] in
theorem render_cons (hstack : stack ≠ []) :
    render sep (e :: stack) = render sep stack ++ sep :: e := if_neg hstack

omit [DecidableEq α] in
theorem render_singleton : render sep [e] = e := if_pos rfl

omit [DecidableEq α] in
theorem length_render_append (sep : α) (upper lower : List (List α)) :
    (render sep lower).length ≤ (render sep (upper ++ lower)).length := by
  induction upper with
  | nil => exact Nat.le_refl _
  | cons e upper ih =>
    refine Nat.le_trans ih ?_
    rw [List.cons_append]
    by_cases hnil : upper ++ lower = []
    · rw [hnil]
      exact Nat.zero_le _
    · rw [render_cons hnil, List.length_append]
      exact Nat.le_add_right _ _

omit [DecidableEq α] in
theorem Resolved.ne_nil (h : Resolved dot sep rooted stack) (hsep : dot ≠ sep) (he : e ∈ stack) :
    e ≠ [] ∧ sep ∉ e := by
  induction h with
  | nil => cases he
  | dotdot h hall hrooted ih =>
    rcases List.mem_cons.mp he with rfl | he
    · simp [hsep.symm]
    · exact ih he
  | ordinary h hnil hdot hdotdot hmem ih =>
    rcases List.mem_cons.mp he with rfl | he
    · exact ⟨hnil, hmem⟩
    · exact ih he

omit [DecidableEq α] in
/-- The text of a stack begins with the first character of an element. -/
theorem Resolved.head_render (h : Resolved dot sep rooted stack) (hsep : dot ≠ sep)
    (hstack : stack ≠ []) : ∃ a, (render sep stack).head? = some a ∧ a ≠ sep := by
  have hfirst : ∀ e ∈ stack, ∃ a, e.head? = some a ∧ a ≠ sep := by
    intro e he
    obtain ⟨hnil, hmem⟩ := h.ne_nil hsep he
    cases e with
    | nil => exact absurd rfl hnil
    | cons a e =>
      refine ⟨a, rfl, ?_⟩
      rintro rfl
      exact hmem List.mem_cons_self
  clear h
  induction stack with
  | nil => exact absurd rfl hstack
  | cons e stack ih =>
    obtain ⟨he, hrest⟩ := List.forall_mem_cons.mp hfirst
    by_cases hnil : stack = []
    · rw [hnil, render_singleton]
      exact he
    · obtain ⟨a, ha, hne⟩ := ih hnil hrest
      refine ⟨a, ?_, hne⟩
      rw [render_cons hnil, List.head?_append, ha]
      rfl

/-- The text of a stack gives the stack. -/
theorem Resolved.process_render (h : Resolved dot sep rooted stack) (hsep : dot ≠ sep) :
    Paths.process dot sep rooted [] (render sep stack) = stack := by
  have hstep : ∀ {e stack}, sep ∉ e → Paths.push dot rooted stack e = e :: stack →
      Paths.process dot sep rooted [] (render sep stack) = stack →
      Paths.process dot sep rooted [] (render sep (e :: stack)) = e :: stack := by
    intro e stack he hpush ih
    by_cases hnil : stack = []
    · rw [hnil, render_singleton, process_of_not_mem he, ← hnil]
      exact hpush
    · rw [render_cons hnil, process_append_cons, ih, process_of_not_mem he]
      exact hpush
  induction h with
  | nil => exact process_nil
  | @dotdot stack h hall hrooted ih =>
    refine hstep (by simp [hsep.symm]) ?_ ih
    cases stack with
    | nil => rw [push_dotdot_nil, hrooted, if_neg Bool.false_ne_true]
    | cons top stack => rw [push_dotdot_cons, if_pos (hall top (by simp))]
  | ordinary h hnil hdot hdotdot hmem ih => exact hstep hmem (push_ordinary hnil hdot hdotdot) ih

/-! ## The characters of a stack -/

theorem mem_push {e' : List α} (h : e' ∈ push dot rooted stack e) : e' ∈ stack ∨ e' = e := by
  by_cases hnil : e = []
  · rw [hnil, push_nil] at h
    exact Or.inl h
  by_cases hdot : e = [dot]
  · rw [hdot, push_dot] at h
    exact Or.inl h
  by_cases hdotdot : e = [dot, dot]
  · rw [hdotdot] at h ⊢
    cases stack with
    | nil =>
      rw [push_dotdot_nil] at h
      split at h
      · cases h
      · exact Or.inr (List.mem_singleton.mp h)
    | cons top stack =>
      rw [push_dotdot_cons] at h
      split at h
      · exact (List.mem_cons.mp h).symm
      · exact Or.inl (List.mem_cons_of_mem top h)
  · rw [push_ordinary hnil hdot hdotdot] at h
    exact (List.mem_cons.mp h).symm

theorem mem_of_mem_splitOn {s : List α} (he : e ∈ s.splitOn sep) (ha : a ∈ e) : a ∈ s := by
  induction s generalizing e with
  | nil =>
    rw [List.splitOn_nil, List.mem_singleton] at he
    rw [he] at ha
    exact ha
  | cons b s ih =>
    rw [List.splitOn_cons_eq_if_modifyHead] at he
    split at he
    · rcases List.mem_cons.mp he with rfl | he
      · cases ha
      · exact List.mem_cons_of_mem b (ih he ha)
    · cases hparts : s.splitOn sep with
      | nil => exact absurd hparts (List.splitOn_ne_nil sep s)
      | cons p parts =>
        rw [hparts] at he ih
        rcases List.mem_cons.mp he with rfl | he
        · rcases List.mem_cons.mp ha with rfl | ha
          · exact List.mem_cons_self
          · exact List.mem_cons_of_mem b (ih List.mem_cons_self ha)
        · exact List.mem_cons_of_mem b (ih (List.mem_cons_of_mem p he) ha)

theorem mem_process (h : e ∈ process dot sep rooted stack s) : e ∈ stack ∨ e ∈ s.splitOn sep := by
  unfold process at h
  generalize s.splitOn sep = parts at h ⊢
  induction parts generalizing stack with
  | nil => exact Or.inl h
  | cons p parts ih =>
    rcases ih h with hpush | hparts
    · rcases mem_push hpush with hstack | rfl
      · exact Or.inl hstack
      · exact Or.inr List.mem_cons_self
    · exact Or.inr (List.mem_cons_of_mem p hparts)

omit [DecidableEq α] in
theorem mem_render (h : a ∈ render sep stack) : a = sep ∨ ∃ e ∈ stack, a ∈ e := by
  induction stack with
  | nil => cases h
  | cons e stack ih =>
    by_cases hnil : stack = []
    · rw [hnil, render_singleton] at h
      exact Or.inr ⟨e, List.mem_cons_self, h⟩
    · rw [render_cons hnil] at h
      rcases List.mem_append.mp h with h | h
      · rcases ih h with rfl | ⟨e', he', ha⟩
        · exact Or.inl rfl
        · exact Or.inr ⟨e', List.mem_cons_of_mem e he', ha⟩
      · rcases List.mem_cons.mp h with rfl | h
        · exact Or.inl rfl
        · exact Or.inr ⟨e, List.mem_cons_self, h⟩

/-- No new characters, except separators. -/
theorem mem_render_process (h : a ∈ render sep (process dot sep rooted [] s)) :
    a = sep ∨ a ∈ s := by
  rcases mem_render h with rfl | ⟨e, he, ha⟩
  · exact Or.inl rfl
  · rcases mem_process he with hnil | hpart
    · cases hnil
    · exact Or.inr (mem_of_mem_splitOn hpart ha)

/-! ## Canonical paths -/

theorem isRooted_iff {path : List α} : isRooted sep path = true ↔ path.head? = some sep := by
  simp [isRooted]

theorem lead_of_not_rooted {path : List α} (h : isRooted sep path = false) : lead sep path = [] :=
  if_neg fun hhead => by
    rw [isRooted_iff.mpr hhead] at h
    cases h

theorem lead_cases {path : List α} (h : isRooted sep path = true) :
    lead sep path = [sep] ∨ lead sep path = [sep, sep] := by
  unfold lead
  rw [if_pos (isRooted_iff.mp h)]
  split
  · exact Or.inr rfl
  · exact Or.inl rfl

theorem lead_append_drop (sep : α) (path : List α) :
    lead sep path ++ path.drop (lead sep path).length = path := by
  unfold lead
  cases path with
  | nil => rfl
  | cons a path =>
    split
    · rename_i hhead
      cases hhead
      split
      · rename_i hboth
        cases path with
        | nil => cases hboth.1
        | cons b path =>
          cases hboth.1
          rfl
      · rfl
    · rfl

/-- The separators in front of a text that does not begin with one. -/
theorem lead_append (hs : s.head? ≠ some sep) (hl : t = [sep] ∨ t = [sep, sep]) :
    lead sep (t ++ s) = t := by
  have hget : s[0]? ≠ some sep := by
    rw [← List.head?_eq_getElem?]
    exact hs
  rcases hl with rfl | rfl
  · simp [lead, hget]
  · simp [lead, hget]

theorem process_lead {path : List α} (h : isRooted sep path = true) (s : List α) :
    process dot sep rooted stack (lead sep path ++ s) = process dot sep rooted stack s := by
  rcases lead_cases h with hlead | hlead
  · rw [hlead, List.singleton_append, process_cons]
  · rw [hlead, List.cons_append, List.singleton_append, process_cons, process_cons]

theorem canonical_of_ne_nil {path : List α}
    (h : lead sep path ++ render sep (process dot sep (isRooted sep path) [] path) ≠ []) :
    canonical dot sep path =
      lead sep path ++ render sep (process dot sep (isRooted sep path) [] path) := if_neg h

theorem canonical_ne_nil (path : List α) : canonical dot sep path ≠ [] := by
  unfold canonical
  dsimp only
  split
  · exact List.cons_ne_nil dot []
  · assumption

theorem mem_canonical {path : List α} (h : a ∈ canonical dot sep path) :
    a = dot ∨ a = sep ∨ a ∈ path := by
  unfold canonical at h
  dsimp only at h
  split at h
  · exact Or.inl (List.mem_singleton.mp h)
  · rcases List.mem_append.mp h with hlead | hrender
    · cases hrooted : isRooted sep path with
      | false =>
        rw [lead_of_not_rooted hrooted] at hlead
        cases hlead
      | true =>
        rcases lead_cases hrooted with hone | htwo
        · rw [hone] at hlead
          exact Or.inr (Or.inl (List.mem_singleton.mp hlead))
        · rw [htwo] at hlead
          exact Or.inr (Or.inl (by simpa using hlead))
    · exact Or.inr (mem_render_process hrender)

theorem canonical_dot (hsep : dot ≠ sep) : canonical dot sep [dot] = [dot] := by
  have hrooted : isRooted sep [dot] = false := by simp [isRooted, hsep]
  unfold canonical
  rw [lead_of_not_rooted hrooted, process_of_not_mem (by simp [hsep.symm]), push_dot]
  rfl

/-- The canonical path is its own canonical path. -/
theorem canonical_canonical (hsep : dot ≠ sep) (path : List α) :
    canonical dot sep (canonical dot sep path) = canonical dot sep path := by
  have hresolved : Resolved dot sep (isRooted sep path)
      (process dot sep (isRooted sep path) [] path) := Resolved.nil.process path
  have hprocess := hresolved.process_render hsep
  have hhead := hresolved.head_render hsep
  by_cases hempty : lead sep path ++ render sep (process dot sep (isRooted sep path) [] path) = []
  · have hdot : canonical dot sep path = [dot] := if_pos hempty
    rw [hdot]
    exact canonical_dot hsep
  rw [canonical_of_ne_nil hempty]
  generalize process dot sep (isRooted sep path) [] path = stack at *
  have hfirst : (render sep stack).head? ≠ some sep := by
    by_cases hnil : stack = []
    · rw [hnil]
      exact nofun
    · obtain ⟨a, ha, hne⟩ := hhead hnil
      rw [ha]
      exact fun heq => hne (Option.some.inj heq)
  cases hrooted : isRooted sep path with
  | false =>
    rw [hrooted] at hprocess
    rw [lead_of_not_rooted hrooted, List.nil_append] at hempty ⊢
    have hfalse : isRooted sep (render sep stack) = false := by simp [isRooted, hfirst]
    unfold canonical
    rw [hfalse, lead_of_not_rooted hfalse, List.nil_append, hprocess]
    exact if_neg hempty
  | true =>
    rw [hrooted] at hprocess
    have hlead := lead_append hfirst (lead_cases hrooted)
    have htrue : isRooted sep (lead sep path ++ render sep stack) = true := by
      rcases lead_cases hrooted with h | h
      · simp [isRooted, h]
      · simp [isRooted, h]
    unfold canonical
    rw [htrue, hlead, process_lead hrooted, hprocess]
    exact if_neg hempty

end Basht.Paths
