import Mathlib.Logic.Function.Basic

/-!
# Descriptor tables

The open files of a process. Descriptors are integers; those below 0 or from the limit on are
never open.

* `Table.free`: the lowest free descriptor not below a base, if there is one.
* `Table.dupfd`, `Table.dup2`, `Table.close`: `fcntl (fd, F_DUPFD, base)` (where the copy
  goes), `dup2` and `close`.
* `Table.set_set`, `Table.set_comm`, `Table.set_self`: how changes of entries combine.
-/

namespace Basht.Descriptors

/-- A descriptor table with the open files. -/
@[ext] structure Table (F : Type) where
  limit : Nat
  file : Int → Option F
  bounded : ∀ fd, file fd ≠ none → 0 ≤ fd ∧ fd < limit

namespace Table

variable {F : Type} (t : Table F)

def InRange (fd : Int) : Prop := 0 ≤ fd ∧ fd < t.limit

instance (fd : Int) : Decidable (t.InRange fd) := inferInstanceAs (Decidable (_ ∧ _))

/-- The entry `fd` is replaced, if it is in range. -/
def set (fd : Int) (o : Option F) : Table F where
  limit := t.limit
  file := Function.update t.file fd (if t.InRange fd then o else none)
  bounded q hq := by
    rw [Function.update_apply] at hq
    split at hq
    · rename_i heq
      split at hq
      · rename_i hrange
        rw [heq]
        exact hrange
      · exact absurd rfl hq
    · exact t.bounded q hq

/-- The lowest free descriptor that is at least `base`. -/
def free (base : Int) : Option Int :=
  ((List.range t.limit).map Int.ofNat).find? fun fd => decide (base ≤ fd) && (t.file fd).isNone

/-- Where `fcntl (fd, F_DUPFD, base)` puts the copy. -/
def dupfd (fd base : Int) : Option Int := if (t.file fd).isNone then none else t.free base

def dup2 (old new : Int) : Option (Table F) :=
  if (t.file old).isNone ∨ ¬t.InRange new then none else some (t.set new (t.file old))

def close (fd : Int) : Table F := t.set fd none

variable {t} {fd q : Int} {o o' : Option F}

theorem inRange_of_open {f : F} (h : t.file fd = some f) : t.InRange fd :=
  t.bounded fd (by simp [h])

@[simp] theorem set_limit : (t.set fd o).limit = t.limit := rfl

@[simp] theorem set_inRange : (t.set fd o).InRange q ↔ t.InRange q := Iff.rfl

theorem set_file_self (hfd : t.InRange fd) : (t.set fd o).file fd = o := by
  rw [set]
  simp only [Function.update_self, if_pos hfd]

theorem set_file_ne (hq : q ≠ fd) : (t.set fd o).file q = t.file q := Function.update_of_ne hq _ _

theorem eq_some_of_set {f : F} (h : (t.set fd o).file q = some f) :
    q = fd ∧ o = some f ∨ t.file q = some f := by
  by_cases hq : q = fd
  · rw [hq, set] at h
    simp only [Function.update_self] at h
    split at h
    · exact Or.inl ⟨hq, h⟩
    · cases h
  · rw [set_file_ne hq] at h
    exact Or.inr h

theorem set_set : (t.set fd o).set fd o' = t.set fd o' := by
  ext1
  · rfl
  · exact Function.update_idem ..

theorem set_comm (hq : q ≠ fd) : (t.set fd o).set q o' = (t.set q o').set fd o := by
  ext1
  · rfl
  · exact Function.update_comm hq.symm _ _ _

/-- An entry that is replaced by itself. -/
theorem set_self (h : t.file fd = o) : t.set fd o = t := by
  have hentry : (if t.InRange fd then o else none) = t.file fd := by
    split
    · exact h.symm
    · rename_i hrange
      by_contra hopen
      exact hrange (t.bounded fd (Ne.symm hopen))
  ext1
  · rfl
  · exact (congrArg (Function.update t.file fd) hentry).trans (Function.update_eq_self ..)

theorem free_eq_some {base : Int} (h : t.free base = some fd) :
    t.file fd = none ∧ t.InRange fd := by
  obtain ⟨hfind, hmem⟩ := And.intro (List.find?_some h) (List.mem_of_find?_eq_some h)
  obtain ⟨n, hn, rfl⟩ := List.mem_map.mp hmem
  rw [Bool.and_eq_true, Option.isNone_iff_eq_none] at hfind
  exact ⟨hfind.2, Int.natCast_nonneg n, Int.ofNat_lt.mpr (List.mem_range.mp hn)⟩

theorem dupfd_eq_some {base : Int} (h : t.dupfd fd base = some q) :
    (∃ f, t.file fd = some f) ∧ t.file q = none ∧ t.InRange q := by
  rw [dupfd] at h
  split at h
  · cases h
  · rename_i hopen
    rw [Option.isNone_iff_eq_none] at hopen
    exact ⟨Option.ne_none_iff_exists'.mp hopen, free_eq_some h⟩

theorem dup2_eq_some {t' : Table F} (h : t.dup2 q fd = some t') :
    t' = t.set fd (t.file q) := by
  rw [dup2] at h
  split at h
  · cases h
  · exact (Option.some.inj h).symm

end Table

end Basht.Descriptors
