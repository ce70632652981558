import Mathlib
import Basht.Library.Stamps
import Basht.Display.Console
import Basht.Parser.ShellGetc

/-!
# Names and instance numbers of tasks

A captured command is named after the basename of its first word (`cap_name`) and numbered
by `next_instance`: the names of the first 64 different commands are counted in a table, all
later names share one counter.

A counter that would pass the largest `int` is a `CounterOverflow`.

`last` is the number given last to a name. It never falls, and each new number lies above it
(`nextInstance_stamped`).
-/

namespace Basht.Tasks

open Display (NAME_MAX)
open Basht.Parser (CString)

/-- `BASHT_MAX_CAPS`. -/
def MAX_CAPS : Nat := 64

instance : NeZero MAX_CAPS := ⟨by decide⟩

/-! ## Names -/

/-- The text of a `char name[BASHT_NAME_MAX]`. -/
structure TaskName where
  bytes : List UInt8
  length_lt : bytes.length < NAME_MAX
  noNul : 0 ∉ bytes
deriving DecidableEq

theorem TaskName.length_nil_lt : ([] : List UInt8).length < NAME_MAX := by decide

theorem TaskName.noNul_nil : (0 : UInt8) ∉ [] := List.not_mem_nil

/-- The name of an unused slot. -/
def TaskName.empty : TaskName := ⟨[], TaskName.length_nil_lt, TaskName.noNul_nil⟩

/-- The name of a command without words. -/
def TaskName.job : TaskName := ⟨"job".toList.map Char.toUInt8, by decide, by decide⟩

/-- The name of a subshell. -/
def TaskName.sub : TaskName := ⟨"sub".toList.map Char.toUInt8, by decide, by decide⟩

def isBlank (c : UInt8) : Bool := c == 32 || c == '\t'.toUInt8

/-- The basename of the first word. -/
def basename (command : List UInt8) : List UInt8 :=
  ((command.dropWhile isBlank).takeWhile fun c => !isBlank c).rtakeWhile (· ≠ '/'.toUInt8)

theorem mem_of_mem_basename {c : UInt8} {command : List UInt8} (h : c ∈ basename command) :
    c ∈ command :=
  (List.dropWhile_sublist _).subset
    ((List.takeWhile_sublist _).subset ((List.rtakeWhile_suffix _ _).subset h))

/-- `cap_name`. -/
def capName (command : Option CString) : TaskName :=
  match command with
  | none => .job
  | some command =>
    if basename command.bytes = [] then .job
    else
      { bytes := (basename command.bytes).take (NAME_MAX - 1)
        length_lt := by
          rw [List.length_take]
          exact Nat.lt_of_le_of_lt (Nat.min_le_left _ _) (by decide)
        noNul := fun h => command.noNul (mem_of_mem_basename (List.mem_of_mem_take h)) }

/-- The name `basht_fork_prepare` gives to a command: the text of a subshell begins with a
parenthesis. -/
def taskName (command : Option CString) : TaskName :=
  if (capName command).bytes.head? = some '('.toUInt8 then .sub else capName command

/-! ## Instance numbers -/

/-- A counter has no next value. -/
structure CounterOverflow where
deriving DecidableEq, Repr

/-- `++n` of an `int`. -/
def increment (n : Int32) : Except CounterOverflow Int32 :=
  if n.toInt < 2147483647 then .ok (n + 1) else .error {}

theorem increment_toInt {n m : Int32} (h : increment n = .ok m) : m.toInt = n.toInt + 1 := by
  unfold increment at h
  split at h
  · rename_i hlt
    cases h
    have hle : -2147483648 ≤ n.toInt := Int32.le_toInt n
    rw [Int32.toInt_add, show (1 : Int32).toInt = 1 from rfl]
    exact Int.bmod_eq_of_le (by omega) (by omega)
  · cases h

/-- An entry of `insts`. -/
structure Inst where
  name : TaskName
  n : Int32
deriving DecidableEq

/-- The used part of `insts`, and `overflow_id`. -/
structure Instances where
  insts : List Inst
  overflowId : Int32

namespace Instances

/-- Before any task: `overflow_id` is 1000. -/
def start : Instances := ⟨[], 1000⟩

/-- The entry of a name. -/
def entry (t : Instances) (name : TaskName) : Option Inst := t.insts.find? (·.name = name)

/-- The table with the number `n` in the entry of `name`. -/
def setEntry (t : Instances) (name : TaskName) (n : Int32) : Instances :=
  { t with insts := t.insts.replaceF fun e => if e.name = name then some ⟨name, n⟩ else none }

/-- `next_instance`. -/
def nextInstance (t : Instances) (name : TaskName) :
    Except CounterOverflow (Int32 × Instances) :=
  match t.entry name with
  | some e =>
    match increment e.n with
    | .error o => .error o
    | .ok n => .ok (n, t.setEntry name n)
  | none =>
    if t.insts.length < MAX_CAPS then .ok (1, { t with insts := t.insts ++ [⟨name, 1⟩] })
    else
      match increment t.overflowId with
      | .error o => .error o
      | .ok n => .ok (n, { t with overflowId := n })

/-- The number given last to a name, or 0. A name outside a full table shares the last number
of all such names. -/
def last (t : Instances) (name : TaskName) : Int :=
  match t.entry name with
  | some e => e.n.toInt
  | none => if t.insts.length < MAX_CAPS then 0 else t.overflowId.toInt

/-- No number has been given that is not positive. -/
structure WellFormed (t : Instances) : Prop where
  overflow : 0 ≤ t.overflowId.toInt
  last : ∀ name, 0 ≤ t.last name

theorem wellFormed_start : start.WellFormed :=
  ⟨by decide, fun _ => Int.le_refl 0⟩

theorem last_of_entry {t : Instances} {name : TaskName} {e : Inst} (h : t.entry name = some e) :
    t.last name = e.n.toInt := by
  rw [Instances.last, h]

theorem entry_cons (t : Instances) (e : Inst) (es : List Inst) (name : TaskName) :
    entry { t with insts := e :: es } name =
      if e.name = name then some e else entry { t with insts := es } name := by
  by_cases he : e.name = name <;> simp [entry, he]

theorem entry_setEntry (t : Instances) (name m : TaskName) (n : Int32) :
    (t.setEntry name n).entry m =
      if m = name then (t.entry name).map fun _ => ⟨name, n⟩ else t.entry m := by
  obtain ⟨es, o⟩ := t
  induction es with
  | nil => simp [entry, setEntry]
  | cons e es ih =>
    by_cases he : e.name = name
    · subst he
      by_cases hm : m = e.name
      · subst hm
        simp [entry, setEntry]
      · simp [entry, setEntry, hm, Ne.symm hm]
    · have hset : setEntry ⟨e :: es, o⟩ name n =
          { setEntry ⟨es, o⟩ name n with insts := e :: (setEntry ⟨es, o⟩ name n).insts } := by
        simp [setEntry, List.replaceF, he]
      rw [hset, entry_cons]
      have hcons := entry_cons ⟨es, o⟩ e es
      by_cases hm : e.name = m
      · subst hm
        rw [if_pos rfl, if_neg he, hcons e.name, if_pos rfl]
      · rw [if_neg hm, hcons name, if_neg he, hcons m, if_neg hm]
        exact ih

theorem length_setEntry (t : Instances) (name : TaskName) (n : Int32) :
    (t.setEntry name n).insts.length = t.insts.length := by
  simp [setEntry]

theorem entry_append (t : Instances) (name m : TaskName) (n : Int32) (h : t.entry name = none) :
    entry { t with insts := t.insts ++ [⟨name, n⟩] } m =
      if m = name then some ⟨name, n⟩ else t.entry m := by
  by_cases hm : m = name
  · subst hm
    rw [if_pos rfl, entry, List.find?_append]
    rw [entry] at h
    simp [h]
  · simp [entry, List.find?_append, hm, Ne.symm hm]

/-- The number given to a name lies above all it has been given. -/
theorem nextInstance_stamped {t t' : Instances} {name : TaskName} {n : Int32}
    (ht : t.WellFormed) (h : t.nextInstance name = .ok (n, t')) :
    Stamped t.last [(name, n.toInt)] t'.last ∧ t'.WellFormed := by
  suffices hstamp : Stamped t.last [(name, n.toInt)] t'.last ∧
      t.overflowId.toInt ≤ t'.overflowId.toInt from
    ⟨hstamp.1, ht.overflow.trans hstamp.2, fun m => (ht.last m).trans (hstamp.1.mono m)⟩
  unfold nextInstance at h
  cases hentry : t.entry name with
  | some e =>
    simp only [hentry] at h
    cases hn : increment e.n with
    | error o =>
      rw [hn] at h
      cases h
    | ok k =>
      rw [hn] at h
      cases h
      have hlast := last_of_entry hentry
      have hk := increment_toInt hn
      have hset : (t.setEntry name n).entry name = some ⟨name, n⟩ := by
        rw [entry_setEntry, if_pos rfl, hentry]
        rfl
      have hlast' : (t.setEntry name n).last name = n.toInt := last_of_entry hset
      refine ⟨.singleton (fun m => ?_) (by omega) (by omega), le_refl _⟩
      by_cases hm : m = name
      · subst hm
        omega
      · rw [Instances.last, Instances.last, entry_setEntry, if_neg hm, length_setEntry]
        rfl
  | none =>
    simp only [hentry] at h
    split at h
    · rename_i hroom
      cases h
      have hlast : t.last name = 0 := by rw [Instances.last, hentry]; exact if_pos hroom
      have hset : entry { t with insts := t.insts ++ [⟨name, 1⟩] } name = some ⟨name, 1⟩ := by
        rw [entry_append _ _ _ _ hentry, if_pos rfl]
      have hlast' : Instances.last { t with insts := t.insts ++ [⟨name, 1⟩] } name = 1 :=
        last_of_entry hset
      refine ⟨.singleton (fun m => ?_) (by rw [hlast]; decide) (by rw [hlast']; decide), le_refl _⟩
      by_cases hm : m = name
      · subst hm
        omega
      · rw [Instances.last, Instances.last, entry_append _ _ _ _ hentry, if_neg hm]
        cases hentry' : t.entry m with
        | some e => exact le_refl _
        | none =>
          simp only [hroom, if_true]
          split
          · exact le_refl _
          · exact ht.overflow
    · rename_i hfull
      cases hn : increment t.overflowId with
      | error o =>
        rw [hn] at h
        cases h
      | ok k =>
        rw [hn] at h
        cases h
        have hk := increment_toInt hn
        have hlast : ∀ t'' : Instances, t''.insts = t.insts → ∀ m, t''.last m =
            match t.entry m with
            | some e => e.n.toInt
            | none => t''.overflowId.toInt := by
          intro t'' hinsts m
          have hentry' : t''.entry m = t.entry m := by rw [entry, hinsts, entry]
          rw [Instances.last, hentry', hinsts]
          cases t.entry m with
          | some e => rfl
          | none => exact if_neg hfull
        have hmono : t.overflowId.toInt ≤ n.toInt := by omega
        refine ⟨.singleton (fun m => ?_) ?_ ?_, hmono⟩
        · rw [hlast t rfl, hlast { t with overflowId := n } rfl]
          cases t.entry m with
          | some e => exact le_refl _
          | none => exact hmono
        · rw [hlast t rfl, hentry]
          simp only
          omega
        · rw [hlast { t with overflowId := n } rfl, hentry]

end Instances

end Basht.Tasks
