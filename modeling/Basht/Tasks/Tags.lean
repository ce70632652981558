import Basht.Tasks.Table

/-!
# Tags denote one task

The name and the number that `basht_fork_prepare` assigns are never assigned again in the
session, whatever becomes of the task. `last` is the mark of a name: only
`next_instance` moves it, and it does so upwards (`World.step_stamped`).
-/

namespace Basht.Tasks

/-- The tag with its number as an integer. -/
def Tag.stamp (tag : Tag) : TaskName × Int := (tag.1, tag.2.toInt)

theorem Tag.stamp_injective : Function.Injective Tag.stamp := by
  intro tag tag' h
  exact Prod.ext (Prod.mk.inj h).1 (Int32.toInt_inj.mp (Prod.mk.inj h).2)

theorem World.step_stamped {w w' : World} {e : Event} {tags : List Tag}
    (hw : w.table.instances.WellFormed) (h : w.step e = .ok (w', tags)) :
    Stamped w.table.instances.last (tags.map Tag.stamp) w'.table.instances.last ∧
      w'.table.instances.WellFormed := by
  have hkept : ∀ {t : Instances}, t = w.table.instances →
      Stamped w.table.instances.last (([] : List Tag).map Tag.stamp) t.last ∧ t.WellFormed := by
    rintro t rfl
    exact ⟨.nil fun _ => le_refl _, hw⟩
  cases e with
  | solo solo =>
    cases h
    exact hkept rfl
  | prepare command flags opened =>
    simp only [step] at h
    split at h
    · cases h
    · rename_i t tags hprepare
      cases h
      obtain ⟨rfl, rfl⟩ | ⟨i, -, ⟨rfl, rfl⟩ | ⟨id, instances, hnext, rfl, rfl⟩⟩ :=
        Table.forkPrepare_cases hprepare
      · exact hkept (Table.dropPending_instances _)
      · exact hkept (Table.dropPending_instances _)
      · exact Instances.nextInstance_stamped hw hnext
  | done pid =>
    cases h
    exact hkept (Table.forkDone_instances _ _)
  | reap pid =>
    cases h
    exact hkept rfl
  | drain ended =>
    cases h
    exact hkept rfl

/-- **Tags.** In a session in which no counter passes the largest `int`, the tags that are
assigned are all different, and their numbers are positive. -/
theorem World.tags_distinct {events : List Event} {w : World} {tags : List Tag}
    (h : Fallible.exec World.step World.start events = .ok (w, tags)) :
    tags.Nodup ∧ ∀ tag ∈ tags, 1 ≤ tag.2.toInt := by
  have hstart : World.start.table.instances.WellFormed := Instances.wellFormed_start
  obtain ⟨hstamped, -⟩ := Fallible.exec_stamped (m := fun w : World => w.table.instances.last)
    Tag.stamp (fun _ _ _ _ hw hstep => World.step_stamped hw hstep) hstart h
  refine ⟨hstamped.nodup.of_map _, fun tag htag => ?_⟩
  exact (hstart.last tag.1).trans_lt (hstamped.above _ (List.mem_map_of_mem htag))

/-- `make` is started twice, and its first fork fails. -/
def makeTwice : List Event :=
  [.prepare (some ⟨"make".toList.map Char.toUInt8, by decide⟩) ⟨false, false⟩ ⟨true, true, true⟩,
    .done (-1),
    .prepare (some ⟨"make".toList.map Char.toUInt8, by decide⟩) ⟨false, false⟩ ⟨true, true, true⟩]

theorem World.tags_distinct_make : ∃ w tags,
    Fallible.exec World.step World.start makeTwice = .ok (w, tags) ∧
      tags.map Prod.snd = [1, 2] ∧ tags.Nodup ∧ ∀ tag ∈ tags, 1 ≤ tag.2.toInt := by
  have h : ∃ w tags, Fallible.exec World.step World.start makeTwice = .ok (w, tags) ∧
      tags.map Prod.snd = [1, 2] := ⟨_, _, rfl, rfl⟩
  obtain ⟨w, tags, hrun, hnumbers⟩ := h
  exact ⟨w, tags, hrun, hnumbers, World.tags_distinct hrun⟩

end Basht.Tasks
