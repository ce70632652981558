import Mathlib.Order.Fin.Basic
import Basht.Tasks.Table

/-!
# The feed builtin

`feed NAME:N text ..` writes a line to the keyboard of a task. The number is read as an
`intmax_t` and passed on as an `int`, of which only the positive values are instance numbers,
and the text is collected in a line of 4096 bytes.

`feed_correct_iff` says when the line that is written is the one that was asked for.
-/

namespace Basht.Tasks

open Basht.Parser (CString)

abbrev colon : UInt8 := 58

abbrev newline : UInt8 := 10

/-! ## Numbers -/

def isSpace (c : UInt8) : Bool := c == 32 || (9 ≤ c && c ≤ 13)

def isDigit (c : UInt8) : Bool := 48 ≤ c && c ≤ 57

/-- The value of decimal digits. -/
def decimalValue (digits : List UInt8) : Nat :=
  digits.foldl (fun n c => 10 * n + (c.toNat - 48)) 0

/-- The sign in front of a number, and what follows it. -/
def sign : List UInt8 → Int × List UInt8
  | [] => (1, [])
  | c :: s => if c = '-'.toUInt8 then (-1, s) else if c = '+'.toUInt8 then (1, s) else (1, c :: s)

/-- `strtoimax` in base 10: the number, and what follows it. `none` stands for no digits, or
a number that is no `intmax_t`. -/
def strtoimax (s : List UInt8) : Option (Int × List UInt8) :=
  let signed := sign (s.dropWhile isSpace)
  let digits := signed.2.takeWhile isDigit
  let value := signed.1 * decimalValue digits
  if digits = [] ∨ value < -9223372036854775808 ∨ 9223372036854775807 < value then none
  else some (value, signed.2.dropWhile isDigit)

/-- `valid_number`. -/
def validNumber (s : List UInt8) : Option Int :=
  match strtoimax s with
  | none => none
  | some (value, rest) => if rest.dropWhile isSpace = [] then some value else none

/-! ## The task -/

/-- The errors `feed_builtin` reports. -/
inductive FeedError where
  /-- "task multiplexer is not active" -/
  | inactive
  /-- what `sh_invalidnum` reports of the text behind the colon -/
  | invalidNumber
  /-- "invalid task name" -/
  | invalidName
  /-- "several tasks match; use NAME:n" -/
  | ambiguous
  /-- "no such task" -/
  | noTask
deriving DecidableEq, Repr

/-- The name in the task spec, checked for its length. -/
def checkName (name : List UInt8) (n : Option Int) :
    Except FeedError (List UInt8 × Option Int) :=
  if name.length = 0 ∨ Display.NAME_MAX ≤ name.length then .error .invalidName else .ok (name, n)

/-- What the task spec names: a name, and the number behind the last colon if there is one. -/
def taskSpec (spec : List UInt8) : Except FeedError (List UInt8 × Option Int) :=
  if colon ∈ spec then
    match validNumber (spec.rtakeWhile (· ≠ colon)) with
    | none => .error .invalidNumber
    | some n =>
      if n ≤ 0 then .error .invalidNumber
      else checkName (spec.rdropWhile (· ≠ colon)).dropLast (some n)
  else checkName spec none

/-- The slot is a live task with the name, and has the number if that is positive. -/
def Cap.Hit (cp : Cap) (name : List UInt8) (inst : Int32) : Prop :=
  cp.mIn = true ∧ cp.id ≠ 0 ∧ cp.name.bytes = name ∧ (inst ≤ 0 ∨ cp.id = inst)

instance (cp : Cap) (name : List UInt8) (inst : Int32) : Decidable (cp.Hit name inst) :=
  inferInstanceAs (Decidable (_ ∧ _ ∧ _ ∧ (_ ∨ _)))

/-- The body of the loop of `basht_send_input`. -/
def Table.look (t : Table) (name : List UInt8) (inst : Int32) (found : Option (Fin MAX_CAPS))
    (i : Fin MAX_CAPS) : Except FeedError (Option (Fin MAX_CAPS)) :=
  if (t.caps i).Hit name inst then
    if inst ≤ 0 ∧ found.isSome then .error .ambiguous else .ok (some i)
  else .ok found

/-- What the ptys of a task take before a write to them fails: of the text, and of the newline
behind it. -/
structure Room where
  text : Nat
  newline : Nat

/-- The bytes each task is sent. -/
abbrev Sent := Fin MAX_CAPS → List UInt8

/-- `basht_send_input`. -/
def Table.sendInput (t : Table) (icanon : Fin MAX_CAPS → Pty → Bool) (room : Fin MAX_CAPS → Room)
    (name : List UInt8) (inst : Int32) (text : List UInt8) : Except FeedError Sent :=
  match (List.finRange MAX_CAPS).foldlM (t.look name inst) none with
  | .error e => .error e
  | .ok none => .error .noTask
  | .ok (some i) =>
    match (t.caps i).keyFd (icanon i) with
    | none => .error .noTask
    | some _ =>
      .ok fun j =>
        if j = i then text.take (room i).text ++ [newline].take (room i).newline else []

/-! ## The line -/

/-- `sizeof line`. -/
def sizeofLine : Nat := 4096

/-- The loop of `feed_builtin` over the words, with `n` bytes in the line. -/
def joinLine (n : Nat) : List (List UInt8) → List UInt8
  | [] => []
  | [w] => if n + w.length + 2 > sizeofLine then [] else w
  | w :: v :: ws =>
    if n + w.length + 2 > sizeofLine then [] else w ++ 32 :: joinLine (n + w.length + 1) (v :: ws)

/-- What the builtin returns. -/
inductive Status where
  | usage
  | failure (e : FeedError)
  | success
deriving DecidableEq, Repr

/-- The part of `feed_builtin` behind its checks of the arguments' number and of
`basht_active`. -/
def Table.feedTask (t : Table) (icanon : Fin MAX_CAPS → Pty → Bool) (room : Fin MAX_CAPS → Room)
    (spec : List UInt8) (args : List (List UInt8)) : Except FeedError Sent :=
  match taskSpec spec with
  | .error e => .error e
  | .ok (name, n) =>
    t.sendInput icanon room name (Int32.ofInt (n.getD (-1))) (joinLine 0 args)

/-- `feed_builtin`. -/
def Table.feed (t : Table) (icanon : Fin MAX_CAPS → Pty → Bool) (room : Fin MAX_CAPS → Room) :
    List CString → Status × Sent
  | spec :: arg :: args =>
    if t.active = false then (.failure .inactive, fun _ => [])
    else
      match t.feedTask icanon room spec.bytes ((arg :: args).map CString.bytes) with
      | .error e => (.failure e, fun _ => [])
      | .ok sent => (.success, sent)
  | [] | [_] => (.usage, fun _ => [])

/-! ## What the spec denotes -/

/-- The spec is a name, or a name, a colon and a number in decimal. -/
def SpecDenotes (spec name : List UInt8) : Option Int → Prop
  | none => spec = name ∧ colon ∉ spec
  | some n => ∃ number, spec = name ++ colon :: number ∧ colon ∉ number ∧ validNumber number = some n

theorem rtakeWhile_colon (name : List UInt8) {number : List UInt8} (h : colon ∉ number) :
    (name ++ colon :: number).rtakeWhile (· ≠ colon) = number := by
  have hall : ∀ c ∈ number.reverse, decide (c ≠ colon) = true := by
    intro c hc
    have hne : c ≠ colon := by
      rintro rfl
      exact h (List.mem_reverse.mp hc)
    simp [hne]
  rw [List.rtakeWhile, List.reverse_append, List.reverse_cons, List.append_assoc,
    List.takeWhile_append_of_pos hall]
  simp

theorem SpecDenotes.unique {spec name name' : List UInt8} {n n' : Option Int}
    (h : SpecDenotes spec name n) (h' : SpecDenotes spec name' n') : name = name' ∧ n = n' := by
  cases n with
  | none =>
    obtain ⟨rfl, hcolon⟩ := h
    cases n' with
    | none => exact ⟨h'.1, rfl⟩
    | some n' =>
      obtain ⟨number, rfl, -⟩ := h'
      exact absurd (by simp) hcolon
  | some n =>
    obtain ⟨number, rfl, hnumber, hn⟩ := h
    cases n' with
    | none => exact absurd (by simp) h'.2
    | some n' =>
      obtain ⟨number', heq, hnumber', hn'⟩ := h'
      have hsame : number = number' := by
        rw [← rtakeWhile_colon name hnumber, heq, rtakeWhile_colon name' hnumber']
      subst hsame
      exact ⟨List.append_cancel_right heq, by rw [← hn, hn']⟩

theorem checkName_eq_ok {name name' : List UInt8} {n n' : Option Int}
    (h : checkName name n = .ok (name', n')) : name' = name ∧ n' = n := by
  unfold checkName at h
  split at h
  · cases h
  · cases h
    exact ⟨rfl, rfl⟩

theorem taskSpec_denotes {spec name : List UInt8} {n : Option Int}
    (h : taskSpec spec = .ok (name, n)) : SpecDenotes spec name n ∧ ∀ k, n = some k → 0 < k := by
  unfold taskSpec at h
  split at h
  · rename_i hcolon
    split at h
    · cases h
    · rename_i k hk
      split at h
      · cases h
      · rename_i hpos
        obtain ⟨rfl, rfl⟩ := checkName_eq_ok h
        have hne : spec.rdropWhile (· ≠ colon) ≠ [] := by
          intro hnil
          have hall := List.rdropWhile_eq_nil_iff.mp hnil colon hcolon
          simp at hall
        have hlast : (spec.rdropWhile (· ≠ colon)).getLast hne = colon := by
          have := List.rdropWhile_last_not (· ≠ colon) spec hne
          simpa using this
        refine ⟨⟨spec.rtakeWhile (· ≠ colon), ?_, fun hmem => ?_, hk⟩, fun k' hk' => ?_⟩
        · conv => lhs; rw [← List.rdropWhile_append_rtakeWhile (p := (· ≠ colon)) (l := spec)]
          rw [← List.dropLast_append_getLast hne, hlast]
          simp
        · have hp := List.mem_rtakeWhile_imp hmem
          simp at hp
        · cases hk'
          omega
  · rename_i hcolon
    obtain ⟨rfl, rfl⟩ := checkName_eq_ok h
    exact ⟨⟨rfl, hcolon⟩, fun k hk => by cases hk⟩

/-! ## The task that is found -/

/-- The slot is a live task that the name and the number, if it is positive, denote. Without a
number it is the only one, else the last one. -/
structure Table.Addressed (t : Table) (name : List UInt8) (inst : Int32) (i : Fin MAX_CAPS) :
    Prop where
  hit : (t.caps i).Hit name inst
  only : inst ≤ 0 → ∀ j, (t.caps j).Hit name inst → j = i
  last : ∀ j, (t.caps j).Hit name inst → j ≤ i

namespace Table

variable {t : Table} {name : List UInt8} {inst : Int32}

theorem look_ok {l : List (Fin MAX_CAPS)} (hl : l.Pairwise (· < ·))
    {found r : Option (Fin MAX_CAPS)} (h : l.foldlM (t.look name inst) found = .ok r) :
    (r = found ∧ ∀ j ∈ l, ¬(t.caps j).Hit name inst) ∨
      ∃ i ∈ l, r = some i ∧ (t.caps i).Hit name inst ∧
        (∀ j ∈ l, (t.caps j).Hit name inst → j ≤ i) ∧
        (inst ≤ 0 → found = none ∧ ∀ j ∈ l, (t.caps j).Hit name inst → j = i) := by
  induction l generalizing found with
  | nil =>
    cases h
    exact Or.inl ⟨rfl, by simp⟩
  | cons k l ih =>
    obtain ⟨hk, hl⟩ := List.pairwise_cons.mp hl
    rw [List.foldlM_cons] at h
    by_cases hhit : (t.caps k).Hit name inst
    · by_cases hamb : inst ≤ 0 ∧ found.isSome
      · rw [look, if_pos hhit, if_pos hamb] at h
        cases h
      · rw [look, if_pos hhit, if_neg hamb] at h
        have hnone : inst ≤ 0 → found = none := by
          intro hle
          cases found with
          | none => rfl
          | some j => exact absurd ⟨hle, rfl⟩ hamb
        rcases ih hl h with ⟨rfl, hno⟩ | ⟨i, hi, rfl, hhit', hlast, honly⟩
        · refine Or.inr ⟨k, by simp, rfl, hhit, fun j hj hjhit => ?_, fun hle =>
            ⟨hnone hle, fun j hj hjhit => ?_⟩⟩
          · rcases List.mem_cons.mp hj with rfl | hj
            · exact le_refl _
            · exact absurd hjhit (hno j hj)
          · rcases List.mem_cons.mp hj with rfl | hj
            · rfl
            · exact absurd hjhit (hno j hj)
        · refine Or.inr ⟨i, List.mem_cons_of_mem _ hi, rfl, hhit', fun j hj hjhit => ?_,
            fun hle => absurd (honly hle).1 (by simp)⟩
          rcases List.mem_cons.mp hj with rfl | hj
          · exact le_of_lt (hk i hi)
          · exact hlast j hj hjhit
    · rw [look, if_neg hhit] at h
      rcases ih hl h with ⟨rfl, hno⟩ | ⟨i, hi, rfl, hhit', hlast, honly⟩
      · refine Or.inl ⟨rfl, fun j hj hjhit => ?_⟩
        rcases List.mem_cons.mp hj with rfl | hj
        · exact hhit hjhit
        · exact hno j hj hjhit
      · refine Or.inr ⟨i, List.mem_cons_of_mem _ hi, rfl, hhit', fun j hj hjhit => ?_,
          fun hle => ⟨(honly hle).1, fun j hj hjhit => ?_⟩⟩
        · rcases List.mem_cons.mp hj with rfl | hj
          · exact absurd hjhit hhit
          · exact hlast j hj hjhit
        · rcases List.mem_cons.mp hj with rfl | hj
          · exact absurd hjhit hhit
          · exact (honly hle).2 j hj hjhit

/-- An ambiguous search has met two tasks. -/
theorem look_error {l : List (Fin MAX_CAPS)} (hl : l.Pairwise (· < ·))
    {found : Option (Fin MAX_CAPS)} {e : FeedError}
    (h : l.foldlM (t.look name inst) found = .error e) :
    inst ≤ 0 ∧ ∃ j ∈ l, (t.caps j).Hit name inst ∧
      (found.isSome ∨ ∃ k ∈ l, (t.caps k).Hit name inst ∧ j ≠ k) := by
  induction l generalizing found with
  | nil => cases h
  | cons k l ih =>
    obtain ⟨hk, hl⟩ := List.pairwise_cons.mp hl
    rw [List.foldlM_cons] at h
    by_cases hhit : (t.caps k).Hit name inst
    · by_cases hamb : inst ≤ 0 ∧ found.isSome
      · exact ⟨hamb.1, k, by simp, hhit, Or.inl hamb.2⟩
      · rw [look, if_pos hhit, if_neg hamb] at h
        obtain ⟨hle, j, hj, hjhit, -⟩ := ih hl h
        exact ⟨hle, j, List.mem_cons_of_mem _ hj, hjhit,
          Or.inr ⟨k, by simp, hhit, (hk j hj).ne'⟩⟩
    · rw [look, if_neg hhit] at h
      obtain ⟨hle, j, hj, hjhit, hmore⟩ := ih hl h
      refine ⟨hle, j, List.mem_cons_of_mem _ hj, hjhit, hmore.imp_right ?_⟩
      rintro ⟨m, hm, hmhit, hne⟩
      exact ⟨m, List.mem_cons_of_mem _ hm, hmhit, hne⟩

theorem look_finRange_iff {i : Fin MAX_CAPS} :
    (List.finRange MAX_CAPS).foldlM (t.look name inst) none = .ok (some i) ↔
      t.Addressed name inst i := by
  have hsorted : (List.finRange MAX_CAPS).Pairwise (· < ·) := List.pairwise_lt_finRange _
  constructor
  · intro h
    rcases look_ok hsorted h with ⟨hsome, -⟩ | ⟨k, -, hk, hhit, hlast, honly⟩
    · cases hsome
    · cases hk
      exact ⟨hhit, fun hle j hj => (honly hle).2 j (List.mem_finRange j) hj,
        fun j hj => hlast j (List.mem_finRange j) hj⟩
  · intro h
    cases hrun : (List.finRange MAX_CAPS).foldlM (t.look name inst) none with
    | error e =>
      obtain ⟨hle, j, -, hj, hsome | ⟨k, -, hk, hne⟩⟩ := look_error hsorted hrun
      · cases hsome
      · exact absurd ((h.only hle j hj).trans (h.only hle k hk).symm) hne
    | ok r =>
      rcases look_ok hsorted hrun with ⟨-, hno⟩ | ⟨k, -, rfl, hhit, hlast, -⟩
      · exact absurd h.hit (hno i (List.mem_finRange i))
      · rw [le_antisymm (h.last k hhit) (hlast i (List.mem_finRange i) h.hit)]

end Table

/-! ## The line -/

/-- The arguments joined by single blanks. -/
def joined (args : List (List UInt8)) : List UInt8 := [32].intercalate args

/-- The arguments fit the line. -/
def LineFits (args : List (List UInt8)) : Prop :=
  (joined args).length + 2 ≤ sizeofLine ∨
    ((joined args).length + 1 = sizeofLine ∧ args.getLast? = some [])

theorem joined_cons (w v : List UInt8) (ws : List (List UInt8)) :
    joined (w :: v :: ws) = w ++ 32 :: joined (v :: ws) := by
  simp [joined, List.intercalate, List.intersperse]

theorem joinLine_prefix (n : Nat) (args : List (List UInt8)) : joinLine n args <+: joined args := by
  induction args generalizing n with
  | nil => exact List.nil_prefix
  | cons w ws ih =>
    cases ws with
    | nil =>
      rw [joinLine]
      split
      · exact List.nil_prefix
      · simp [joined, List.intercalate, List.intersperse]
    | cons v ws =>
      rw [joinLine, joined_cons]
      split
      · exact List.nil_prefix
      · exact (List.prefix_append_right_inj _).mpr (List.cons_prefix_cons.mpr ⟨rfl, ih _⟩)

/-- The line with `n` bytes in it gets all arguments when they fit behind these. -/
theorem joinLine_eq_iff {n : Nat} {args : List (List UInt8)} (hn : n < sizeofLine)
    (hargs : args ≠ []) : joinLine n args = joined args ↔
      n + (joined args).length + 2 ≤ sizeofLine ∨
        (n + (joined args).length + 1 = sizeofLine ∧ args.getLast? = some []) := by
  induction args generalizing n with
  | nil => exact absurd rfl hargs
  | cons w ws ih =>
    cases ws with
    | nil =>
      have hjoined : joined [w] = w := by simp [joined, List.intercalate, List.intersperse]
      rw [joinLine, hjoined]
      split
      · rename_i hlong
        constructor
        · rintro rfl
          refine Or.inr ⟨?_, rfl⟩
          simp only [List.length_nil] at hlong ⊢
          omega
        · rintro (hle | ⟨-, hnil⟩)
          · omega
          · simpa using hnil.symm
      · rename_i hshort
        exact iff_of_true rfl (Or.inl (by omega))
    | cons v ws =>
      rw [joinLine, joined_cons]
      have hlength : (w ++ 32 :: joined (v :: ws)).length
          = w.length + 1 + (joined (v :: ws)).length := by
        simp only [List.length_append, List.length_cons]
        omega
      rw [hlength]
      split
      · rename_i hlong
        refine iff_of_false (fun h => ?_) ?_
        · have := congrArg List.length h
          rw [hlength, List.length_nil] at this
          omega
        · rintro (hle | ⟨hle, -⟩) <;> omega
      · rename_i hshort
        rw [List.append_cancel_left_eq, List.cons.injEq, ih (by omega) (by simp)]
        simp only [List.getLast?_cons_cons, true_and]
        constructor <;> rintro (hle | ⟨hle, hnil⟩)
        · exact Or.inl (by omega)
        · exact Or.inr ⟨by omega, hnil⟩
        · exact Or.inl (by omega)
        · exact Or.inr ⟨by omega, hnil⟩

theorem joinLine_zero_eq_iff {args : List (List UInt8)} (hargs : args ≠ []) :
    joinLine 0 args = joined args ↔ LineFits args := by
  rw [joinLine_eq_iff (by decide) hargs, Nat.zero_add, LineFits]

/-! ## The task that is reached -/

namespace Table

variable {t : Table} {icanon : Fin MAX_CAPS → Pty → Bool} {room : Fin MAX_CAPS → Room}

/-- What the tasks get when `text` is sent to the task `i`. -/
def sentTo (room : Fin MAX_CAPS → Room) (i : Fin MAX_CAPS) (text : List UInt8) : Sent := fun j =>
  if j = i then text.take (room i).text ++ [newline].take (room i).newline else []

theorem sendInput_of_addressed {name text : List UInt8} {inst : Int32} {i : Fin MAX_CAPS}
    (h : t.Addressed name inst i) :
    t.sendInput icanon room name inst text = .ok (sentTo room i text) := by
  obtain ⟨p, hp⟩ := Option.isSome_iff_exists.mp (Cap.keyFd_isSome (icanon i) h.hit.1)
  rw [sendInput, look_finRange_iff.mpr h]
  simp only [hp]
  rfl

theorem sendInput_of_not_addressed {name text : List UInt8} {inst : Int32}
    (h : ∀ i, ¬t.Addressed name inst i) :
    ∃ e, t.sendInput icanon room name inst text = .error e := by
  unfold sendInput
  split
  · rename_i e _
    exact ⟨e, rfl⟩
  · exact ⟨.noTask, rfl⟩
  · rename_i i hi
    exact absurd (look_finRange_iff.mp hi) (h i)

/-- The task `i` is alive and has the name and the number. It, and no other task, gets the
arguments and a newline. -/
structure Reached (t : Table) (name : List UInt8) (n : Option Int) (args : List (List UInt8))
    (sent : Sent) (i : Fin MAX_CAPS) : Prop where
  live : (t.caps i).mIn = true ∧ (t.caps i).id ≠ 0
  name : (t.caps i).name.bytes = name
  number : ∀ k, n = some k → (t.caps i).id.toInt = k
  line : sent i = joined args ++ [newline]
  others : ∀ j, j ≠ i → sent j = []

/-- The number is an `int`, the arguments fit the line, and the task takes all of it. -/
structure Sendable (room : Fin MAX_CAPS → Room) (n : Option Int) (args : List (List UInt8))
    (i : Fin MAX_CAPS) : Prop where
  number : ∀ k, n = some k → k ≤ 2147483647
  fits : LineFits args
  text : (joined args).length ≤ (room i).text
  newline : 1 ≤ (room i).newline

theorem toInt_ofInt_of_pos {k : Int} (hpos : 0 < k) (hle : k ≤ 2147483647) :
    (Int32.ofInt k).toInt = k := Int32.toInt_ofInt_of_le (by omega) (by omega)

theorem Addressed.number {name : List UInt8} {n : Option Int} {i : Fin MAX_CAPS}
    (h : t.Addressed name (Int32.ofInt (n.getD (-1))) i) (hpos : ∀ k, n = some k → 0 < k)
    (hle : ∀ k, n = some k → k ≤ 2147483647) :
    ∀ k, n = some k → (t.caps i).id.toInt = k := by
  rintro k rfl
  have hk := toInt_ofInt_of_pos (hpos k rfl) (hle k rfl)
  rcases h.hit.2.2.2 with hnone | hid
  · rw [Int32.le_iff_toInt_le, Option.getD_some, hk] at hnone
    exact absurd (hpos k rfl) (not_lt.mpr hnone)
  · rw [hid]
    exact hk

/-- A line is what was asked for exactly when it is sendable. -/
theorem reached_sentTo_iff {name : List UInt8} {n : Option Int} {args : List (List UInt8)}
    {i : Fin MAX_CAPS} (hargs : args ≠ []) (hpos : ∀ k, n = some k → 0 < k)
    (h : t.Addressed name (Int32.ofInt (n.getD (-1))) i) :
    (∃ j, t.Reached name n args (sentTo room i (joinLine 0 args)) j) ↔
      Sendable room n args i := by
  constructor
  · rintro ⟨j, hj⟩
    have hij : j = i := by
      by_contra hne
      have hline := hj.line
      rw [sentTo, if_neg hne] at hline
      simp at hline
    subst hij
    have hline := hj.line
    have hprefix := joinLine_prefix 0 args
    have hle := hprefix.length_le
    have hlength := congrArg List.length hline
    rw [sentTo, if_pos rfl] at hline hlength
    simp only [List.length_append, List.length_take, List.length_singleton] at hlength
    have hjoin : joinLine 0 args = joined args := hprefix.eq_of_length (by omega)
    refine ⟨fun k hk => ?_, (joinLine_zero_eq_iff hargs).mp hjoin, ?_, by omega⟩
    · have hlt := Int32.toInt_lt (t.caps j).id
      rw [hj.number k hk] at hlt
      omega
    · rw [hjoin] at hlength
      omega
  · intro hsend
    refine ⟨i, ⟨h.hit.1, h.hit.2.1⟩, h.hit.2.2.1, h.number hpos hsend.number, ?_, fun j hj =>
      if_neg hj⟩
    rw [sentTo, if_pos rfl, (joinLine_zero_eq_iff hargs).mpr hsend.fits,
      List.take_of_length_le hsend.text, List.take_of_length_le hsend.newline]

/-- When `feed` succeeds, the task the spec denotes gets the arguments. When it fails, no task
gets anything. -/
structure FeedCorrect (t : Table) (words : List CString) (result : Status × Sent) : Prop where
  success : result.1 = .success → ∃ spec args name n i,
    words.map CString.bytes = spec :: args ∧ SpecDenotes spec name n ∧
      t.Reached name n args result.2 i
  failure : result.1 ≠ .success → ∀ j, result.2 j = []

/-- A line that finds its task is sendable to it. -/
def FeedClean (t : Table) (room : Fin MAX_CAPS → Room) (words : List CString) : Prop :=
  t.active = true → ∀ spec arg args name n i, words.map CString.bytes = spec :: arg :: args →
    taskSpec spec = .ok (name, n) → t.Addressed name (Int32.ofInt (n.getD (-1))) i →
      Sendable room n (arg :: args) i

theorem feedCorrect_of_failure {words : List CString} {status : Status} (h : status ≠ .success) :
    t.FeedCorrect words (status, fun _ => []) :=
  ⟨fun hsuccess => absurd hsuccess h, fun _ _ => rfl⟩

theorem feedTask_correct_iff {spec arg : CString} {args : List CString}
    (hactive : t.active = true) :
    t.FeedCorrect (spec :: arg :: args) (t.feed icanon room (spec :: arg :: args)) ↔
      t.FeedClean room (spec :: arg :: args) := by
  rw [feed, if_neg (by simp [hactive]), feedTask]
  cases hspec : taskSpec spec.bytes with
  | error e =>
    refine iff_of_true (feedCorrect_of_failure (by simp)) ?_
    intro _ spec' arg' args' name n i hwords hok
    cases hwords
    rw [hspec] at hok
    cases hok
  | ok found =>
    obtain ⟨name, n⟩ := found
    obtain ⟨hdenotes, hpos⟩ := taskSpec_denotes hspec
    by_cases haddr : ∃ i, t.Addressed name (Int32.ofInt (n.getD (-1))) i
    · obtain ⟨i, hi⟩ := haddr
      simp only [sendInput_of_addressed hi]
      have hreached : (∃ j, t.Reached name n ((arg :: args).map CString.bytes)
          (sentTo room i (joinLine 0 ((arg :: args).map CString.bytes))) j) ↔
          Sendable room n ((arg :: args).map CString.bytes) i :=
        reached_sentTo_iff (by simp) hpos hi
      constructor
      · intro h _ spec' arg' args' name' n' i' hwords hok haddr'
        cases hwords
        rw [hspec] at hok
        cases hok
        obtain ⟨spec', args', name', n', j, hwords, hdenotes', hj⟩ := h.success rfl
        cases hwords
        obtain ⟨rfl, rfl⟩ := hdenotes.unique hdenotes'
        have hii : i' = i := le_antisymm (hi.last i' haddr'.hit) (haddr'.last i hi.hit)
        rw [hii]
        exact hreached.mp ⟨j, hj⟩
      · intro h
        obtain ⟨j, hj⟩ := hreached.mpr (h hactive _ _ _ name n i rfl hspec hi)
        exact ⟨fun _ => ⟨_, _, name, n, j, rfl, hdenotes, hj⟩, fun hne => absurd rfl hne⟩
    · have hno := not_exists.mp haddr
      obtain ⟨e, he⟩ : ∃ e, t.sendInput icanon room name (Int32.ofInt (n.getD (-1)))
          (joinLine 0 ((arg :: args).map CString.bytes)) = .error e :=
        sendInput_of_not_addressed hno
      simp only [he]
      refine iff_of_true (feedCorrect_of_failure (by simp)) ?_
      intro _ spec' arg' args' name' n' i' hwords hok haddr'
      cases hwords
      rw [hspec] at hok
      cases hok
      exact absurd haddr' (hno i')

/-- **Feed.** Success means that the denoted task got the arguments, and failure that no task
got anything, exactly when a line that finds its task is sendable. -/
theorem feed_correct_iff (t : Table) (icanon : Fin MAX_CAPS → Pty → Bool)
    (room : Fin MAX_CAPS → Room) (words : List CString) :
    t.FeedCorrect words (t.feed icanon room words) ↔ t.FeedClean room words := by
  rcases words with - | ⟨spec, - | ⟨arg, args⟩⟩
  · exact iff_of_true (feedCorrect_of_failure (by simp)) fun _ _ _ _ _ _ _ h => by cases h
  · exact iff_of_true (feedCorrect_of_failure (by simp)) fun _ _ _ _ _ _ _ h => by cases h
  · by_cases hactive : t.active = true
    · exact feedTask_correct_iff hactive
    · rw [feed, if_pos (by simpa using hactive)]
      exact iff_of_true (feedCorrect_of_failure (by simp)) fun h => absurd h hactive

/-- A task `hello` with the number 1. -/
def hello : Table :=
  { start with
    caps := Function.update (fun _ => .unused) 0
      ⟨true, true, true, 100, ⟨"hello".toList.map Char.toUInt8, by decide, by decide⟩, 1, true⟩ }

/-- `feed hello:4294967297 x` reaches the task `hello:1`. -/
theorem feed_wraps_number : ¬hello.FeedCorrect
    [⟨"hello:4294967297".toList.map Char.toUInt8, by decide⟩, ⟨[120], by decide⟩]
    (hello.feed (fun _ _ => true) (fun _ => ⟨4096, 1⟩)
      [⟨"hello:4294967297".toList.map Char.toUInt8, by decide⟩, ⟨[120], by decide⟩]) := by
  intro h
  have hspec : taskSpec ("hello:4294967297".toList.map Char.toUInt8)
      = .ok ("hello".toList.map Char.toUInt8, some 4294967297) := by decide
  have haddr : hello.Addressed ("hello".toList.map Char.toUInt8) (Int32.ofInt 4294967297) 0 :=
    look_finRange_iff.mp (by rfl)
  have hsend := (feedTask_correct_iff rfl).mp h rfl _ _ _ _ _ _ rfl hspec haddr
  exact absurd (hsend.number _ rfl) (by decide)

end Table

end Basht.Tasks
