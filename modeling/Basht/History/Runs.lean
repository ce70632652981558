import Basht.History.Operations

/-!
# Stifling, clearing, and runs

The loops of `stifle_history` and `clear_history`, the interactive pointer, and from all of it: a
run of calls does not fail, and it is the run of the list. The pointer has to be inside of the list
when it is moved; an entry that is removed or forgotten may leave it outside.
-/

namespace Basht.History

variable {h : Hist} {q : Recall} {cells : List (Address × Entry)}

/-! ## Loops -/

/-- The slots from `i` on show these cells. -/
def Shows (h : Hist) (i : Nat) (shown : List (Address × Entry)) : Prop :=
  ∀ x c, shown[x]? = some c → h.realHistory[h.theHistory + i + x]? = some (some c.1)

theorem Shows.tail {i : Nat} {c : Address × Entry} {shown : List (Address × Entry)}
    (hs : Shows h i (c :: shown)) : Shows h (i + 1) shown := fun x c' hc => by
  have := hs (x + 1) c' hc
  rwa [show h.theHistory + i + (x + 1) = h.theHistory + (i + 1) + x by omega] at this

theorem Shows.read {i : Nat} {c : Address × Entry} {shown : List (Address × Entry)}
    (hs : Shows h i (c :: shown)) : h.read i = .ok (some c.1) := by
  rw [Hist.read, show h.realHistory[h.theHistory + i]? = some (some c.1) from hs 0 c rfl]

theorem Stands.shows (hs : Stands h q cells) (n : Nat) : Shows h 0 (cells.take n) := by
  intro x c hc
  have hc' : cells[x]? = some c := by
    rw [List.getElem?_take] at hc
    exact (Option.ite_none_right_eq_some.1 hc).2
  have hlt : x < (cells.map Prod.fst).length := by
    rw [List.length_map]
    exact (List.getElem?_eq_some_iff.1 hc').1
  have := hs.window.slots x hlt
  rw [List.getElem?_map, hc'] at this
  exact this

theorem freeRange_eq {freed rest : List (Address × Entry)} {i : Nat} (hs : Shows h i freed)
    (ho : Owns h (freed ++ rest)) :
    ∃ f, h.freeRange i freed.length = .ok { h with entry := f } ∧
      Owns { h with entry := f } rest := by
  induction freed generalizing h i with
  | nil => exact ⟨h.entry, rfl, ho⟩
  | cons c freed ih =>
    rw [List.cons_append] at ho
    obtain ⟨hfree, ho'⟩ := ho.free
    obtain ⟨f, heq, ho''⟩ := ih
      (h := { h with entry := fun b => if b = c.1 then none else h.entry b }) (i := i + 1) hs.tail ho'
    refine ⟨f, ?_, ho''⟩
    rw [List.length_cons, Hist.freeRange, hs.read, Fallible.ok_bind, hfree, Fallible.ok_bind, heq]

theorem clearRange_eq {freed rest : List (Address × Entry)} {i : Nat} (hs : Shows h i freed)
    (ho : Owns h (freed ++ rest)) :
    ∃ f r, h.clearRange i freed.length = .ok { h with entry := f, realHistory := r } ∧
      Owns { h with entry := f, realHistory := r } rest ∧ r.length = h.realHistory.length ∧
      ∀ x, r[x]? = if h.theHistory + i ≤ x ∧ x < h.theHistory + i + freed.length then some none
        else h.realHistory[x]? := by
  induction freed generalizing h i with
  | nil =>
    refine ⟨h.entry, h.realHistory, rfl, ho, rfl, fun x => ?_⟩
    rw [if_neg]
    rw [List.length_nil]
    omega
  | cons c freed ih =>
    rw [List.cons_append] at ho
    obtain ⟨hfree, ho'⟩ := ho.free
    have hlt : h.theHistory + i < h.realHistory.length :=
      (List.getElem?_eq_some_iff.1 (hs 0 c rfl)).1
    have hs' : Shows
        { h with
          entry := fun b => if b = c.1 then none else h.entry b
          realHistory := h.realHistory.set (h.theHistory + i) none } (i + 1) freed := by
      intro x c' hc
      rw [List.getElem?_set_ne (by dsimp only; omega)]
      exact hs.tail x c' hc
    obtain ⟨f, r, heq, ho'', hlen, hr⟩ := ih hs' (ho'.congr rfl rfl)
    refine ⟨f, r, ?_, ho'', hlen.trans (List.length_set ..), fun x => ?_⟩
    · rw [List.length_cons, Hist.clearRange, hs.read, Fallible.ok_bind, hfree, Fallible.ok_bind,
        Hist.write, if_pos (by exact hlt), Fallible.ok_bind, heq]
    · rw [hr x]
      dsimp only
      rw [List.length_cons]
      by_cases hx : x = h.theHistory + i
      · subst hx
        rw [if_neg (by omega), if_pos (by omega), List.getElem?_set_self hlt]
      · rw [List.getElem?_set_ne (Ne.symm hx)]
        by_cases hin : h.theHistory + (i + 1) ≤ x ∧ x < h.theHistory + (i + 1) + freed.length
        · rw [if_pos hin, if_pos (by omega)]
        · rw [if_neg hin, if_neg (by omega)]

theorem copyDown_eq {j i n : Nat} (hji : j ≤ i)
    (hin : h.theHistory + i + n ≤ h.realHistory.length) :
    ∃ r, h.copyDown j i n = .ok { h with realHistory := r } ∧
      r.length = h.realHistory.length ∧
      ∀ x, r[x]? = if h.theHistory + j ≤ x ∧ x < h.theHistory + j + n then
        h.realHistory[x - j + i]? else h.realHistory[x]? := by
  induction n generalizing h j i with
  | zero => exact ⟨h.realHistory, rfl, rfl, fun x => by rw [if_neg (by omega)]⟩
  | succ n ih =>
    have hi : h.theHistory + i < h.realHistory.length := by omega
    have hj : h.theHistory + j < h.realHistory.length := by omega
    have hread : h.read i = .ok h.realHistory[h.theHistory + i] := by
      rw [Hist.read, List.getElem?_eq_getElem hi]
    obtain ⟨r, heq, hlen, hr⟩ := ih
      (h := { h with
        realHistory := h.realHistory.set (h.theHistory + j) h.realHistory[h.theHistory + i] })
      (j := j + 1) (i := i + 1) (by omega) (by rw [List.length_set]; dsimp only; omega)
    refine ⟨r, ?_, hlen.trans (List.length_set ..), fun x => ?_⟩
    · rw [Hist.copyDown, hread, Fallible.ok_bind, Hist.write, if_pos hj, Fallible.ok_bind, heq]
    · rw [hr x]
      dsimp only
      by_cases hx : x = h.theHistory + j
      · subst hx
        rw [if_neg (by omega), if_pos (by omega), List.getElem?_set_self hj,
          show h.theHistory + j - j + i = h.theHistory + i by omega, List.getElem?_eq_getElem hi]
      · rw [List.getElem?_set_ne (Ne.symm hx)]
        by_cases hin : h.theHistory + (j + 1) ≤ x ∧ x < h.theHistory + (j + 1) + n
        · rw [if_pos hin, if_pos (by omega), List.getElem?_set_ne (by omega)]
          congr 1
          omega
        · rw [if_neg hin, if_neg (by omega)]

/-! ## Stifling and clearing -/

theorem stifleHistory_holds (hh : Holds h q) (max : Int) :
    ∃ h', h.stifleHistory max = .ok h' ∧ Holds h' (q.stifle max) := by
  obtain ⟨cells, hs⟩ := hh
  have hlength := hs.length_eq
  unfold Hist.stifleHistory Recall.stifle
  generalize max.toNat = m
  dsimp only
  rw [hs.entries_length, ← hlength]
  by_cases hlt : m < h.length
  · rw [if_pos hlt]
    obtain ⟨k, hk⟩ := Nat.exists_eq_add_of_lt hlt
    have hne := hs.ne_nil (i := 0) (by omega)
    have hsize := hs.window.size
    have hroom := (hs.window.room hne).room
    rw [List.length_map] at hroom
    have ho : Owns h (cells.take (k + 1) ++ cells.drop (k + 1)) := by
      rw [List.take_append_drop]
      exact hs.owns
    obtain ⟨f, hfree, ho⟩ := freeRange_eq (hs.shows (k + 1)) ho
    rw [List.length_take_of_le (by omega)] at hfree
    rw [show h.length - m = k + 1 by omega, hfree, Fallible.ok_bind]
    dsimp only
    rw [show h.length - m = k + 1 by omega]
    obtain ⟨r, hcopy, hlen, hr⟩ := copyDown_eq
      (h := { h with entry := f, base := k + 1 }) (j := 0) (i := k + 1) (n := m) (Nat.zero_le _)
      (by dsimp only; omega)
    dsimp only at hlen hr
    rw [hcopy, Fallible.ok_bind, Hist.write, if_pos (by dsimp only; omega), Fallible.ok_bind,
      Fallible.ok_bind, if_neg (Nat.succ_ne_zero k)]
    have hdrop : ((cells.drop (k + 1)).map Prod.fst).length = m := by
      rw [List.length_map, List.length_drop]
      omega
    refine ⟨_, rfl, cells.drop (k + 1), ⟨hdrop.symm, ?_, fun i hi => ?_, Or.inr ?_⟩,
      ho.congr rfl rfl, ?_, rfl, hs.offset, rfl, rfl, ?_⟩
    · rw [List.length_set, hlen]
      exact hsize
    · rw [hdrop] at hi
      dsimp only
      rw [List.getElem?_set_ne (by omega), hr, if_pos (by omega),
        show h.theHistory + i - 0 + (k + 1) = h.theHistory + (k + 1 + i) by omega,
        hs.window.slots _ (by rw [List.length_map]; omega), List.map_drop, List.getElem?_drop]
    · dsimp only
      rw [hdrop, List.getElem?_set_self (by omega)]
    · rw [hs.entries, List.map_drop]
    · exact hs.started_of_length (by rw [List.length_set, hlen])
  · rw [if_neg hlt, Fallible.ok_bind, Nat.sub_eq_zero_of_le (Nat.le_of_not_lt hlt), if_pos rfl]
    exact ⟨_, rfl, cells, ⟨hs.window.length, hs.window.size, hs.window.slots, hs.window.last⟩,
      hs.owns.congr rfl rfl, hs.entries, hs.base, hs.offset, rfl, rfl, hs.started⟩

theorem unstifleHistory_holds (hh : Holds h q) :
    h.unstifleHistory.2 = q.unstifle.2 ∧ Holds h.unstifleHistory.1 q.unstifle.1 := by
  obtain ⟨cells, hs⟩ := hh
  unfold Hist.unstifleHistory Recall.unstifle
  rw [hs.stifled, hs.maxEntries]
  split
  · exact ⟨rfl, cells, ⟨hs.window.length, hs.window.size, hs.window.slots, hs.window.last⟩,
      hs.owns.congr rfl rfl, hs.entries, hs.base, hs.offset, rfl, rfl, hs.started⟩
  · exact ⟨rfl, cells, hs⟩

theorem clearHistory_holds (hh : Holds h q) :
    ∃ h', h.clearHistory = .ok h' ∧ Holds h' q.clear := by
  obtain ⟨cells, hs⟩ := hh
  have hlength := hs.length_eq
  have ho : Owns h (cells.take cells.length ++ []) := by
    rw [List.take_length, List.append_nil]
    exact hs.owns
  obtain ⟨f, r, hclear, ho, hlen, hr⟩ := clearRange_eq (hs.shows cells.length) ho
  rw [List.take_length] at hclear hr
  unfold Hist.clearHistory
  rw [hlength, hclear, Fallible.ok_bind]
  refine ⟨_, rfl, [], ⟨rfl, ?_, fun i hi => absurd hi (Nat.not_lt_zero i), ?_⟩, ho.congr rfl rfl,
    rfl, rfl, rfl, hs.stifled, hs.maxEntries, hs.started_of_length hlen⟩
  · rw [hlen]
    exact hs.window.size
  · by_cases hreal : h.realHistory = []
    · left
      rw [hreal, List.length_nil] at hlen
      exact ⟨List.eq_nil_of_length_eq_zero hlen, rfl⟩
    · right
      dsimp only
      rw [hr]
      cases cells with
      | nil =>
        rw [if_neg (by rw [List.length_nil, List.map_nil, List.length_nil]; omega)]
        exact hs.window.last.resolve_left fun h => hreal h.1
      | cons c cells =>
        rw [if_pos (by rw [List.length_cons, List.map_nil, List.length_nil]; omega)]

/-! ## The interactive pointer -/

theorem usingHistory_holds (hh : Holds h q) :
    Holds h.usingHistory { q with offset := q.entries.length } := by
  obtain ⟨cells, hs⟩ := hh
  refine ⟨cells, ⟨hs.window.length, hs.window.size, hs.window.slots, hs.window.last⟩,
    hs.owns.congr rfl rfl, hs.entries, hs.base, ?_, hs.stifled, hs.maxEntries, hs.started⟩
  exact hs.length_eq.trans hs.entries_length.symm

theorem setPos_holds (hh : Holds h q) (pos : Int) :
    (h.setPos pos).2 = (q.setPos pos).2 ∧ Holds (h.setPos pos).1 (q.setPos pos).1 := by
  obtain ⟨cells, hs⟩ := hh
  have hstarted : h.realHistory = [] ↔ q.started = false := by
    rw [← Bool.not_eq_true, hs.started, not_not]
  unfold Hist.setPos Recall.setPos
  rw [hs.entries_length, ← hs.length_eq]
  by_cases hout : (h.length : Int) < pos ∨ pos < 0 ∨ h.realHistory = []
  · rw [if_pos hout, if_pos (hout.imp_right fun h => h.imp_right hstarted.1)]
    exact ⟨rfl, cells, hs⟩
  · rw [if_neg hout, if_neg fun h => hout (h.imp_right fun h => h.imp_right hstarted.2)]
    exact ⟨rfl, cells, ⟨hs.window.length, hs.window.size, hs.window.slots, hs.window.last⟩,
      hs.owns.congr rfl rfl, hs.entries, hs.base, rfl, hs.stifled, hs.maxEntries, hs.started⟩

/-- The entry at an offset, and the null pointer behind the list. -/
theorem Stands.lookup (hs : Stands h q cells) (hne : h.realHistory ≠ []) {i : Nat}
    (hi : i ≤ cells.length) :
    ∃ p, h.read i = .ok p ∧ h.contents p = .ok q.entries[i]? := by
  rcases Nat.lt_or_eq_of_le hi with hlt | rfl
  · have hc : cells[i]? = some cells[i] := List.getElem?_eq_getElem hlt
    exact ⟨_, hs.read hc, by rw [hs.contents hc, hs.getElem?, hc]; rfl⟩
  · refine ⟨none, ?_, ?_⟩
    · have := hs.window.read_last hne
      rwa [List.length_map] at this
    · rw [hs.getElem?, List.getElem?_eq_none (Nat.le_refl _)]
      rfl

theorem currentHistory_holds (hh : Holds h q) (hin : q.offset ≤ q.entries.length) :
    ∃ p, h.currentHistory = .ok p ∧ h.contents p = .ok q.entries[q.offset]? := by
  obtain ⟨cells, hs⟩ := hh
  unfold Hist.currentHistory
  have hlength := hs.length_eq
  rw [hs.entries_length] at hin
  rw [hs.offset]
  by_cases hreal : h.realHistory = []
  · rw [if_pos (Or.inr hreal)]
    have hnil : cells.length = 0 := by
      by_contra h
      exact hs.ne_nil (Nat.pos_of_ne_zero h) hreal
    refine ⟨none, rfl, ?_⟩
    rw [List.getElem?_eq_none (by rw [hs.entries_length]; omega)]
    rfl
  · by_cases hend : q.offset = h.length
    · rw [if_pos (Or.inl hend), List.getElem?_eq_none (by rw [hs.entries_length]; omega)]
      exact ⟨none, rfl, rfl⟩
    · rw [if_neg (not_or.2 ⟨hend, hreal⟩)]
      exact hs.lookup hreal hin

theorem previousHistory_holds (hh : Holds h q) (hin : q.offset ≤ q.entries.length) :
    ∃ r, h.previousHistory = .ok r ∧ r.1.contents r.2 = .ok q.previous.2 ∧
      Holds r.1 q.previous.1 := by
  obtain ⟨cells, hs⟩ := hh
  unfold Hist.previousHistory Recall.previous
  rw [hs.entries_length] at hin
  rw [hs.offset]
  by_cases hzero : q.offset = 0
  · rw [if_pos hzero, if_pos hzero]
    exact ⟨_, rfl, rfl, cells, hs⟩
  · rw [if_neg hzero, if_neg hzero]
    obtain ⟨p, hread, hp⟩ := hs.lookup (hs.ne_nil (i := 0) (by omega)) (i := q.offset - 1)
      (by omega)
    rw [hread, Fallible.ok_bind]
    exact ⟨_, rfl, hp, cells,
      ⟨hs.window.length, hs.window.size, hs.window.slots, hs.window.last⟩,
      hs.owns.congr rfl rfl, hs.entries, hs.base, rfl, hs.stifled, hs.maxEntries, hs.started⟩

theorem nextHistory_holds (hh : Holds h q) (hin : q.offset ≤ q.entries.length) :
    ∃ r, h.nextHistory = .ok r ∧ r.1.contents r.2 = .ok q.next.2 ∧ Holds r.1 q.next.1 := by
  obtain ⟨cells, hs⟩ := hh
  unfold Hist.nextHistory Recall.next
  rw [hs.entries_length] at hin ⊢
  rw [hs.offset, hs.length_eq]
  by_cases hend : q.offset = cells.length
  · rw [if_pos hend, if_pos hend]
    exact ⟨_, rfl, rfl, cells, hs⟩
  · rw [if_neg hend, if_neg hend]
    obtain ⟨p, hread, hp⟩ := hs.lookup (hs.ne_nil (i := 0) (by omega)) (i := q.offset + 1)
      (by omega)
    rw [hread, Fallible.ok_bind]
    refine ⟨_, rfl, hp, cells, ⟨?_, hs.window.size, hs.window.slots, hs.window.last⟩,
      hs.owns.congr rfl rfl, hs.entries, hs.base, rfl, hs.stifled, hs.maxEntries, hs.started⟩
    exact (List.length_map ..).symm

theorem get_holds (hh : Holds h q) (n : Int) :
    ∃ p, h.get n = .ok p ∧ h.contents p = .ok (q.get n) := by
  obtain ⟨cells, hs⟩ := hh
  unfold Hist.get Recall.get
  dsimp only
  rw [hs.base]
  obtain ⟨hout, hfind⟩ | ⟨i, c, hin, hi, hc, hfind⟩ := hs.find (n - q.base)
  · rw [if_pos (hout.elim (fun h => Or.inr (Or.inl h)) Or.inl), hfind]
    exact ⟨none, rfl, rfl⟩
  · have hlt : i < cells.length := (List.getElem?_eq_some_iff.1 hc).1
    have hne := hs.ne_nil hlt
    rw [if_neg (by
      rintro (h | h | h)
      · exact hin (Or.inr h)
      · exact hin (Or.inl h)
      · exact hne h), hfind, hi]
    exact ⟨_, hs.read hc, hs.contents hc⟩

/-! ## Runs -/

/-- The pointer is inside of the list when it is moved. -/
def Recall.Allows (q : Recall) : Op → Prop
  | .current | .previous | .next => q.offset ≤ q.entries.length
  | _ => True

theorem step_holds (hh : Holds h q) (op : Op) (hallow : q.Allows op) :
    ∃ h', h.step op = .ok (h', (onList.step q op).2) ∧ Holds h' (onList.step q op).1 := by
  cases op with
  | add string timestamp =>
    obtain ⟨h', heq, hh'⟩ := addHistory_holds hh string timestamp
    exact ⟨h', by rw [Hist.step, heq]; rfl, hh'⟩
  | addTime string =>
    obtain ⟨h', heq, hh'⟩ := addHistoryTime_holds hh string
    exact ⟨h', by rw [Hist.step, heq]; rfl, hh'⟩
  | replace which line data =>
    obtain ⟨h', heq, hh'⟩ := replaceHistoryEntry_holds hh which line data
    exact ⟨h', by rw [Hist.step, ← bind_assoc, heq]; rfl, hh'⟩
  | remove which =>
    obtain ⟨h', heq, hh'⟩ := removeHistory_holds hh which
    exact ⟨h', by rw [Hist.step, ← bind_assoc, heq]; rfl, hh'⟩
  | removeRange first last =>
    obtain ⟨h', heq, hh'⟩ := removeHistoryRange_holds hh first last
    exact ⟨h', by rw [Hist.step, ← bind_assoc, heq]; rfl, hh'⟩
  | stifle max =>
    obtain ⟨h', heq, hh'⟩ := stifleHistory_holds hh max
    exact ⟨h', by rw [Hist.step, heq]; rfl, hh'⟩
  | unstifle =>
    obtain ⟨hout, hh'⟩ := unstifleHistory_holds hh
    exact ⟨_, by rw [Hist.step, hout]; rfl, hh'⟩
  | clear =>
    obtain ⟨h', heq, hh'⟩ := clearHistory_holds hh
    exact ⟨h', by rw [Hist.step, heq]; rfl, hh'⟩
  | using_ => exact ⟨_, rfl, usingHistory_holds hh⟩
  | setPos pos =>
    obtain ⟨hout, hh'⟩ := setPos_holds hh pos
    exact ⟨_, by rw [Hist.step, hout]; rfl, hh'⟩
  | current =>
    obtain ⟨p, hp, he⟩ := currentHistory_holds hh hallow
    exact ⟨h, by rw [Hist.step, hp, Fallible.ok_bind, he]; rfl, hh⟩
  | previous =>
    obtain ⟨r, hr, he, hh'⟩ := previousHistory_holds hh hallow
    exact ⟨r.1, by rw [Hist.step, hr, Fallible.ok_bind, he]; rfl, hh'⟩
  | next =>
    obtain ⟨r, hr, he, hh'⟩ := nextHistory_holds hh hallow
    exact ⟨r.1, by rw [Hist.step, hr, Fallible.ok_bind, he]; rfl, hh'⟩
  | get n =>
    obtain ⟨p, hp, he⟩ := get_holds hh n
    exact ⟨h, by rw [Hist.step, hp, Fallible.ok_bind, he]; rfl, hh⟩

/-- While it is stifled, the list has no more entries than the maximum. -/
def Recall.Bounded (q : Recall) : Prop :=
  q.stifled = true → q.entries.length ≤ q.maxEntries

/-- The list is not longer than before, with the maximum of before. -/
def Recall.Shrinks (q q' : Recall) : Prop :=
  q'.stifled = true →
    q.stifled = true ∧ q'.maxEntries = q.maxEntries ∧ q'.entries.length ≤ q.entries.length

theorem Recall.Shrinks.refl (q : Recall) : q.Shrinks q := fun hs => ⟨hs, rfl, Nat.le_refl _⟩

theorem Recall.Bounded.shrinks {q' : Recall} (hb : q.Bounded) (h : q.Shrinks q') : q'.Bounded :=
  fun hs => by
    obtain ⟨hs', hmax, hle⟩ := h hs
    exact hmax ▸ Nat.le_trans hle (hb hs')

theorem Recall.Bounded.add (hb : q.Bounded) (e : Entry) : (q.add e).Bounded := by
  unfold Recall.add
  by_cases hfull : q.Full
  · rw [if_pos hfull]
    by_cases hnil : q.entries = []
    · rw [if_pos hnil]
      exact hb
    · rw [if_neg hnil]
      intro _
      have hpos := List.length_pos_iff.2 hnil
      have := hfull.2
      simp only [List.length_append, List.length_tail, List.length_singleton]
      omega
  · rw [if_neg hfull]
    intro hs
    have hne : q.entries.length ≠ q.maxEntries := fun h => hfull ⟨hs, h⟩
    have := hb hs
    simp only [List.length_append, List.length_singleton]
    omega

theorem addTime_shrinks (string : Line) : q.Shrinks (q.addTime string) := by
  unfold Recall.addTime
  split
  · exact .refl q
  · rename_i e he
    have hpos := List.length_pos_iff.2 (List.ne_nil_of_mem (List.mem_of_getLast? he))
    refine fun hs => ⟨hs, rfl, ?_⟩
    simp only [List.length_append, List.length_dropLast, List.length_singleton]
    omega

theorem replace_shrinks (which : Int) (line : Line) (data : Option Nat) :
    q.Shrinks (q.replace which line data).1 := by
  unfold Recall.replace
  split
  · exact .refl q
  · exact fun hs => ⟨hs, rfl, Nat.le_of_eq (List.length_set ..)⟩

theorem remove_shrinks (which : Int) : q.Shrinks (q.remove which).1 := by
  unfold Recall.remove
  split
  · exact .refl q
  · exact fun hs => ⟨hs, rfl, List.length_eraseIdx_le ..⟩

theorem removeRange_shrinks (first last : Int) : q.Shrinks (q.removeRange first last).1 := by
  unfold Recall.removeRange
  split
  · split
    · exact .refl q
    · refine fun hs => ⟨hs, rfl, ?_⟩
      simp only [List.length_append, List.length_take, List.length_drop]
      omega
  · exact .refl q

theorem pointer_shrinks {q' : Recall} (n : Nat) (h : q' = q ∨ q' = { q with offset := n }) :
    q.Shrinks q' := by
  rcases h with rfl | rfl
  · exact .refl _
  · exact fun hs => ⟨hs, rfl, Nat.le_refl _⟩

theorem Recall.Bounded.step (hb : q.Bounded) (op : Op) : (onList.step q op).1.Bounded := by
  cases op with
  | add string timestamp => exact hb.add _
  | addTime string => exact hb.shrinks (addTime_shrinks string)
  | replace which line data => exact hb.shrinks (replace_shrinks which line data)
  | remove which => exact hb.shrinks (remove_shrinks which)
  | removeRange first last => exact hb.shrinks (removeRange_shrinks first last)
  | stifle max =>
    intro _
    change (q.entries.drop (q.entries.length - max.toNat)).length ≤ max.toNat
    rw [List.length_drop]
    omega
  | unstifle =>
    refine hb.shrinks ?_
    change q.Shrinks q.unstifle.1
    unfold Recall.unstifle
    split
    · exact fun hs => (by cases hs)
    · exact .refl q
  | clear => exact hb.shrinks fun hs => ⟨hs, rfl, Nat.zero_le _⟩
  | using_ => exact hb.shrinks (pointer_shrinks _ (Or.inr rfl))
  | setPos pos =>
    refine hb.shrinks (pointer_shrinks pos.toNat ?_)
    change (q.setPos pos).1 = q ∨ (q.setPos pos).1 = _
    unfold Recall.setPos
    split
    · exact Or.inl rfl
    · exact Or.inr rfl
  | previous =>
    refine hb.shrinks (pointer_shrinks (q.offset - 1) ?_)
    change q.previous.1 = q ∨ q.previous.1 = _
    unfold Recall.previous
    split
    · exact Or.inl rfl
    · exact Or.inr rfl
  | next =>
    refine hb.shrinks (pointer_shrinks (q.offset + 1) ?_)
    change q.next.1 = q ∨ q.next.1 = _
    unfold Recall.next
    split
    · exact Or.inl rfl
    · exact Or.inr rfl
  | current | get n => exact hb

/-- Calls never fail; the memory is that of the list and nothing else, and the list is bounded. -/
theorem history_runs (ops : List Op) (hallow : onList.Along Recall.Allows .empty ops) :
    ∃ h, Fallible.exec Hist.step start ops = .ok (h, onList.output .empty ops) ∧
      Holds h (onList.final .empty ops) ∧ (onList.final .empty ops).Bounded := by
  obtain ⟨h, hrun, hh, hb⟩ := Fallible.exec_follows (f := Hist.step) (T := onList)
    (R := fun h q => Holds h q ∧ q.Bounded) (P := Recall.Allows)
    (fun h q op hh hallow => by
      obtain ⟨h', heq, hh'⟩ := step_holds hh.1 op hallow
      exact ⟨h', heq, hh', hh.2.step op⟩)
    ⟨start_holds, fun h => by cases h⟩ hallow
  exact ⟨h, hrun, hh, hb⟩

/-- Two lines, the first of which is forgotten, and a step back. -/
def shortRun : List Op := [.stifle 1, .add [97] [48], .add [98] [48], .using_, .previous]

theorem history_runs_short :
    ∃ h, Fallible.exec Hist.step start shortRun = .ok (h, onList.output .empty shortRun) ∧
      Holds h (onList.final .empty shortRun) ∧ (onList.final .empty shortRun).Bounded :=
  history_runs shortRun ⟨trivial, trivial, trivial, trivial, Nat.le_refl 1, trivial⟩

/-- Behind the list there may be entries that have been freed. -/
example : Fallible.exec Hist.step start
    [.stifle 4, .add [97] [48], .add [98] [48], .add [99] [48], .add [100] [48], .using_, .stifle 1,
      .previous, .previous] = .error .freed := rfl

end Basht.History
