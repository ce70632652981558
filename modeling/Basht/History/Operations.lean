import Basht.History.Layout
import Mathlib.Data.List.Perm.Basic
import Mathlib.Tactic.SplitIfs

/-!
# The operations of the library

`Stands` relates the block and its entries to a list. There is one lemma for each operation: it
does not fail, and it does to the list what its namesake does.
-/

namespace Basht.History

/-- The memory holds a list. -/
structure Stands (h : Hist) (q : Recall) (cells : List (Address × Entry)) : Prop where
  window : Window h (cells.map Prod.fst)
  owns : Owns h cells
  entries : q.entries = cells.map Prod.snd
  base : h.base = q.base
  offset : h.offset = q.offset
  stifled : h.stifled = q.stifled
  maxEntries : h.maxEntries = q.maxEntries
  started : q.started = true ↔ h.realHistory ≠ []

/-- Some entries, at some addresses. -/
def Holds (h : Hist) (q : Recall) : Prop := ∃ cells, Stands h q cells

theorem start_holds : Holds start .empty :=
  ⟨[], ⟨rfl, rfl, fun i hi => absurd hi (Nat.not_lt_zero i), Or.inl ⟨rfl, rfl⟩⟩,
    ⟨List.nodup_nil, fun a e => ⟨fun h => (by cases h), fun h => absurd h List.not_mem_nil⟩,
      fun c hc => absurd hc List.not_mem_nil⟩,
    rfl, rfl, rfl, rfl, rfl, ⟨fun h => (by cases h), fun h => absurd rfl h⟩⟩

section Facts

variable {h : Hist} {q : Recall} {cells : List (Address × Entry)} (hs : Stands h q cells)
include hs

theorem Stands.length_eq : h.length = cells.length := by
  rw [hs.window.length, List.length_map]

theorem Stands.entries_length : q.entries.length = cells.length := by
  rw [hs.entries, List.length_map]

theorem Stands.getElem? (i : Nat) : q.entries[i]? = cells[i]?.map Prod.snd := by
  rw [hs.entries, List.getElem?_map]

theorem Stands.full_iff : h.stifled = true ∧ h.length = h.maxEntries ↔ q.Full := by
  rw [hs.stifled, hs.maxEntries, hs.length_eq, ← hs.entries_length, Recall.Full]

theorem Stands.ne_nil {i : Nat} (hi : i < cells.length) : h.realHistory ≠ [] :=
  hs.window.ne_nil_of_lt (by rw [List.length_map]; exact hi)

theorem Stands.started_of_length {r : List (Option Address)}
    (hr : r.length = h.realHistory.length) : q.started = true ↔ r ≠ [] := by
  rw [hs.started, ← List.length_pos_iff, ← List.length_pos_iff, hr]

theorem Stands.read {i : Nat} {c : Address × Entry} (hc : cells[i]? = some c) :
    h.read i = .ok (some c.1) :=
  hs.window.read (by rw [List.getElem?_map, hc]; rfl)

theorem Stands.contents {i : Nat} {c : Address × Entry} (hc : cells[i]? = some c) :
    h.contents (some c.1) = .ok (some c.2) := by
  rw [Hist.contents, hs.owns.deref (List.mem_of_getElem? hc)]
  rfl

end Facts

/-! ## Adding -/

section Add

variable {h : Hist} {ps : List Address}

theorem putLast_window (hr : Room h ps 2) (e : Entry) :
    ∃ r, h.putLast (ps.length + 1) e =
        .ok { h with
          realHistory := r
          length := ps.length + 1
          entry := (h.alloc e).entry
          next := h.next + 1 } ∧ r ≠ [] ∧
      Window { h with
        realHistory := r
        length := ps.length + 1
        entry := (h.alloc e).entry
        next := h.next + 1 } (ps ++ [h.next]) := by
  have hsize := hr.size
  have hroom := hr.room
  have h₁ : h.theHistory + (ps.length + 1) < h.realHistory.length := by omega
  have h₂ : h.theHistory + ps.length < h.realHistory.length := by omega
  have hlen : ((h.realHistory.set (h.theHistory + (ps.length + 1)) none).set
      (h.theHistory + ps.length) (some h.next)).length = h.realHistory.length := by
    rw [List.length_set, List.length_set]
  refine ⟨(h.realHistory.set (h.theHistory + (ps.length + 1)) none).set
    (h.theHistory + ps.length) (some h.next), ?_, ?_, ?_, ?_, ?_, ?_⟩
  · unfold Hist.putLast Hist.write
    rw [if_pos (by exact h₁)]
    simp only [Fallible.ok_bind, List.length_set, Nat.add_sub_cancel]
    rw [if_pos (by exact h₂)]
    rfl
  · exact List.ne_nil_of_length_pos (by omega)
  · rw [List.length_append]
    rfl
  · change h.theHistory + h.size = _
    rw [hlen]
    exact hsize
  · intro i hi
    rw [List.length_append, List.length_singleton] at hi
    dsimp only
    by_cases hlast : i = ps.length
    · subst hlast
      rw [List.getElem?_append_right (Nat.le_refl _), Nat.sub_self]
      exact List.getElem?_set_self (by rw [List.length_set]; exact h₂)
    · rw [List.getElem?_set_ne (by omega), List.getElem?_set_ne (by omega),
        List.getElem?_append_left (by omega)]
      exact hr.slots i (by omega)
  · right
    dsimp only
    rw [List.length_append, List.length_singleton, List.getElem?_set_ne (by omega),
      List.getElem?_set_self h₁]

/-- Behind the first entry the window has room for another. -/
theorem advance_room {a : Address} (hw : Window h (a :: ps)) :
    ∃ r t n, h.advance = .ok { h with realHistory := r, theHistory := t, size := n } ∧
      Room { h with realHistory := r, theHistory := t, size := n } ps 2 := by
  have hne := hw.ne_nil_of_lt (Nat.succ_pos ps.length)
  have hsize := hw.size
  have hroom := (hw.room hne).room
  have hlength := hw.length
  rw [List.length_cons] at hroom hlength
  have hr : Room { h with theHistory := h.theHistory + 1, size := h.size - 1 } ps 1 := by
    refine ⟨?_, fun i hi => ?_, ?_⟩
    · change h.theHistory + 1 + (h.size - 1) = h.realHistory.length
      omega
    · have := hw.slots (i + 1) (Nat.succ_lt_succ hi)
      rw [List.getElem?_cons_succ] at this
      rw [← this]
      dsimp only
      congr 1
      omega
    · change ps.length + 1 ≤ h.size - 1
      omega
  unfold Hist.advance
  dsimp only
  by_cases hfull : h.length = h.size - 1
  · rw [if_pos hfull]
    have hgrow := listGrowSize_pos { h with theHistory := h.theHistory + 1, size := h.size - 1 }
    generalize Hist.listGrowSize { h with theHistory := h.theHistory + 1, size := h.size - 1 } = g
      at hgrow
    obtain ⟨r, heq, hr'⟩ := hr.resize _ (Nat.le.intro hlength.symm) (Nat.le_of_eq hfull)
      (Nat.lt_add_of_pos_right (Nat.lt_of_lt_of_le (by decide) hgrow))
    refine ⟨r, 0, r.length, heq, hr'.size, hr'.slots, ?_⟩
    have : ps.length + (h.length + g - ps.length) ≤ r.length := hr'.room
    change ps.length + 2 ≤ r.length
    omega
  · rw [if_neg hfull]
    refine ⟨h.realHistory, h.theHistory + 1, h.size - 1, rfl, hr.size, hr.slots, ?_⟩
    change ps.length + 2 ≤ h.size - 1
    omega

/-- A list gets room for another entry. -/
theorem grow_room (hw : Window h ps) (hne : h.realHistory ≠ []) :
    ∃ r t n, (if h.length = h.size - 1 then h.listResize (h.realHistory.length + h.listGrowSize)
        else .ok h) = .ok { h with realHistory := r, theHistory := t, size := n } ∧
      Room { h with realHistory := r, theHistory := t, size := n } ps 2 := by
  have hr := hw.room hne
  have hsize := hw.size
  have hroom := hr.room
  have hlength := hw.length
  by_cases hfull : h.length = h.size - 1
  · rw [if_pos hfull]
    have hgrow := listGrowSize_pos h
    obtain ⟨r, heq, hr'⟩ := hr.resize (h.realHistory.length + h.listGrowSize)
      (Nat.le_of_eq hlength.symm) (by omega) (by omega)
    refine ⟨r, 0, r.length, heq, hr'.size, hr'.slots, ?_⟩
    have : ps.length + (h.realHistory.length + h.listGrowSize - ps.length) ≤ r.length := hr'.room
    change ps.length + 2 ≤ r.length
    omega
  · rw [if_neg hfull]
    refine ⟨h.realHistory, h.theHistory, h.size, rfl, hr.size, hr.slots, ?_⟩
    change ps.length + 2 ≤ h.size
    omega

end Add

section Operations

variable {h : Hist} {q : Recall} {cells : List (Address × Entry)}

/-- A new entry at the end of a list. -/
theorem putLast_holds {ps : List (Address × Entry)} (hr : Room h (ps.map Prod.fst) 2)
    (ho : Owns h ps) (e : Entry) (hentries : q.entries = ps.map Prod.snd ++ [e])
    (hbase : h.base = q.base) (hoffset : h.offset = q.offset) (hstifled : h.stifled = q.stifled)
    (hmax : h.maxEntries = q.maxEntries) (hstarted : q.started = true) :
    ∃ h', h.putLast (ps.length + 1) e = .ok h' ∧ Holds h' q := by
  obtain ⟨r, heq, hne, hw⟩ := putLast_window hr e
  rw [List.length_map] at heq hw
  refine ⟨_, heq, ps ++ [(h.next, e)], ?_, ?_, ?_, hbase, hoffset, hstifled, hmax,
    ⟨fun _ => hne, fun _ => hstarted⟩⟩
  · rw [List.map_append]
    exact hw
  · exact ((ho.alloc e).perm (List.perm_append_singleton _ _).symm).congr rfl rfl
  · rw [hentries, List.map_append]
    rfl

theorem addHistory_holds (hh : Holds h q) (string timestamp : Line) :
    ∃ h', h.addHistory string timestamp = .ok h' ∧
      Holds h' (q.add ⟨string, some timestamp, none⟩) := by
  obtain ⟨cells, hs⟩ := hh
  have hlength := hs.length_eq
  unfold Hist.addHistory Recall.add
  by_cases hfull : q.Full
  · rw [if_pos (hs.full_iff.2 hfull), if_pos hfull]
    cases cells with
    | nil =>
      rw [if_pos (show h.length = 0 from hlength), if_pos (show q.entries = [] from hs.entries)]
      exact ⟨h, rfl, [], hs⟩
    | cons c rest =>
      obtain ⟨a, e⟩ := c
      rw [if_neg (by rw [hlength]; exact Nat.succ_ne_zero _), if_neg (by rw [hs.entries]; simp),
        hs.read (i := 0) rfl, Fallible.ok_bind]
      obtain ⟨hfree, ho⟩ := hs.owns.free
      rw [hfree, Fallible.ok_bind]
      have hw : Window { h with entry := fun b => if b = a then none else h.entry b }
          (a :: rest.map Prod.fst) :=
        ⟨hs.window.length, hs.window.size, hs.window.slots, hs.window.last⟩
      obtain ⟨r, t, n, heq, hr⟩ := advance_room hw
      rw [heq, Fallible.ok_bind]
      dsimp only
      rw [hlength]
      refine putLast_holds ?_ ?_ _ ?_ (congrArg (· + 1) hs.base) hs.offset hs.stifled
        hs.maxEntries (hs.started.2 (hs.ne_nil (Nat.succ_pos _)))
      · exact ⟨hr.size, hr.slots, hr.room⟩
      · exact ho.congr rfl rfl
      · rw [hs.entries]
        rfl
  · rw [if_neg fun h => hfull (hs.full_iff.1 h), if_neg hfull]
    by_cases hreal : h.realHistory = []
    · have hsize := hs.window.size
      rw [hreal, List.length_nil] at hsize
      have hcells : cells = [] := by
        by_contra hne
        exact hs.ne_nil (List.length_pos_iff.2 hne) hreal
      subst hcells
      have hroom : Room h [] 0 := ⟨hs.window.size, hs.window.slots, Nat.zero_le _⟩
      rw [if_pos (by omega)]
      generalize hinit : (if h.stifled ∧ 0 < h.maxEntries then
        if 8192 < h.maxEntries then 8192 else h.maxEntries + 2 else 502) = initialSize
      have hpos : 2 ≤ initialSize := by
        rw [← hinit]
        split_ifs <;> omega
      obtain ⟨r, heq, hr⟩ := hroom.resize initialSize (Nat.zero_le _)
        (by rw [hlength]; exact Nat.zero_le _)
        (by rw [hlength]; exact Nat.lt_of_lt_of_le Nat.two_pos hpos)
      dsimp only
      rw [heq, Fallible.ok_bind]
      have hroom' : Room { h with realHistory := r, theHistory := 0, size := r.length }
          (([] : List (Address × Entry)).map Prod.fst) 2 :=
        ⟨hr.size, hr.slots, Nat.le_trans (by simpa using hpos) hr.room⟩
      refine putLast_holds hroom' (hs.owns.congr rfl rfl) _ ?_ hs.base hs.offset
        hs.stifled hs.maxEntries rfl
      rw [hs.entries]
    · have hsize : h.size ≠ 0 := by
        have := (hs.window.room hreal).room
        omega
      rw [if_neg hsize]
      obtain ⟨r, t, n, heq, hr⟩ := grow_room hs.window hreal
      rw [heq, Fallible.ok_bind]
      dsimp only
      rw [show h.length + 1 = cells.length + 1 from congrArg (· + 1) hlength]
      refine putLast_holds
        (q := { q with
          entries := q.entries ++ [⟨string, some timestamp, none⟩]
          started := true })
        hr (hs.owns.congr rfl rfl) _ ?_ hs.base hs.offset hs.stifled hs.maxEntries rfl
      rw [hs.entries]

/-! ## Entries in the list -/

/-- An entry is found where the list has one. -/
theorem Stands.find (hs : Stands h q cells) (which : Int) :
    (which < 0 ∨ (h.length : Int) ≤ which) ∧ q.find which = none ∨
      ∃ i c, ¬ (which < 0 ∨ (h.length : Int) ≤ which) ∧ which.toNat = i ∧ cells[i]? = some c ∧
        q.find which = some (i, c.2) := by
  have hlength := hs.length_eq
  unfold Recall.find
  by_cases hneg : which < 0
  · exact Or.inl ⟨Or.inl hneg, if_pos hneg⟩
  · rw [if_neg hneg, hs.getElem?]
    by_cases hlt : which.toNat < cells.length
    · right
      refine ⟨which.toNat, cells[which.toNat], by omega, rfl, List.getElem?_eq_getElem hlt, ?_⟩
      rw [List.getElem?_eq_getElem hlt]
      rfl
    · left
      refine ⟨by omega, ?_⟩
      rw [List.getElem?_eq_none (Nat.le_of_not_lt hlt)]
      rfl

/-- The cells of the list, one of them first. -/
theorem Owns.first (ho : Owns h cells) {i : Nat} {c : Address × Entry} (hc : cells[i]? = some c) :
    Owns h (c :: cells.eraseIdx i) := by
  obtain ⟨hlt, rfl⟩ := List.getElem?_eq_some_iff.1 hc
  exact ho.perm (List.getElem_cons_eraseIdx_perm hlt).symm

theorem Owns.putBack {c : Address × Entry} {i : Nat} (hi : i < cells.length)
    (ho : Owns h (c :: cells.eraseIdx i)) : Owns h (cells.set i c) :=
  ho.perm (List.set_perm_cons_eraseIdx hi c).symm

theorem addHistoryTime_holds (hh : Holds h q) (string : Line) :
    ∃ h', h.addHistoryTime string = .ok h' ∧ Holds h' (q.addTime string) := by
  obtain ⟨cells, hs⟩ := hh
  have hlength := hs.length_eq
  unfold Hist.addHistoryTime Recall.addTime
  rcases List.eq_nil_or_concat cells with rfl | ⟨front, c, rfl⟩
  · rw [if_pos (by rw [hlength]; exact Nat.one_pos), hs.entries]
    exact ⟨h, rfl, [], hs⟩
  · have hpos : h.length = front.length + 1 := by
      rw [hlength, List.concat_eq_append, List.length_append, List.length_singleton]
    rw [List.concat_eq_append] at hs hlength
    have hc : (front ++ [c])[front.length]? = some c := by simp
    have hentries : q.entries = front.map Prod.snd ++ [c.2] := by
      rw [hs.entries, List.map_append]
      rfl
    rw [if_neg (by omega), hpos, Nat.add_sub_cancel, hs.read hc, Fallible.ok_bind,
      hs.owns.deref (List.mem_of_getElem? hc), Fallible.ok_bind, hentries, List.getLast?_concat,
      List.dropLast_concat]
    obtain ⟨heq, ho⟩ := (hs.owns.perm List.perm_append_comm).set
      { c.2 with timestamp := some string }
    refine ⟨_, heq, front ++ [(c.1, { c.2 with timestamp := some string })], ?_, ?_, ?_,
      hs.base, hs.offset, hs.stifled, hs.maxEntries, hs.started⟩
    · have hw := hs.window
      rw [List.map_append] at hw ⊢
      exact ⟨hw.length, hw.size, hw.slots, hw.last⟩
    · exact ho.perm (List.perm_append_singleton _ _).symm
    · rw [List.map_append]
      rfl

theorem replaceHistoryEntry_holds (hh : Holds h q) (which : Int) (line : Line)
    (data : Option Nat) :
    ∃ h', (h.replaceHistoryEntry which line data >>= Hist.takeOut) =
        .ok (h', (q.replace which line data).2) ∧ Holds h' (q.replace which line data).1 := by
  obtain ⟨cells, hs⟩ := hh
  unfold Hist.replaceHistoryEntry Recall.replace
  obtain ⟨hout, hfind⟩ | ⟨i, c, hin, hi, hc, hfind⟩ := hs.find which
  · rw [if_pos hout, hfind]
    exact ⟨h, rfl, cells, hs⟩
  · obtain ⟨a, e⟩ := c
    have hlt : i < cells.length := (List.getElem?_eq_some_iff.1 hc).1
    rw [if_neg hin, hfind, hi, hs.read hc, Fallible.ok_bind,
      hs.owns.deref (List.mem_of_getElem? hc), Fallible.ok_bind]
    dsimp only
    have ho := (hs.owns.first hc).alloc ⟨line, e.timestamp, data⟩
    have hw : Window (h.alloc ⟨line, e.timestamp, data⟩) (cells.map Prod.fst) :=
      ⟨hs.window.length, hs.window.size, hs.window.slots, hs.window.last⟩
    obtain ⟨r, heq, hlen, hw⟩ := hw.write (by rw [List.length_map]; exact hlt) h.next
    rw [heq, Fallible.ok_bind, Fallible.ok_bind]
    have ho := (ho.perm (List.Perm.swap _ _ _)).congr
      (g := { h.alloc ⟨line, e.timestamp, data⟩ with realHistory := r }) rfl rfl
    unfold Hist.takeOut
    rw [Hist.contents, ho.deref List.mem_cons_self]
    obtain ⟨hfree, ho⟩ := ho.free
    simp only [Fallible.ok_bind]
    rw [hfree]
    refine ⟨_, rfl, cells.set i (h.next, ⟨line, e.timestamp, data⟩), ?_, ho.putBack hlt, ?_,
      hs.base, hs.offset, hs.stifled, hs.maxEntries, ?_⟩
    · rw [List.map_set]
      exact ⟨hw.length, hw.size, hw.slots, hw.last⟩
    · rw [hs.entries, List.map_set]
    · exact hs.started_of_length hlen

theorem removeHistory_holds (hh : Holds h q) (which : Int) :
    ∃ h', (h.removeHistory which >>= Hist.takeOut) = .ok (h', (q.remove which).2) ∧
      Holds h' (q.remove which).1 := by
  obtain ⟨cells, hs⟩ := hh
  unfold Hist.removeHistory Recall.remove
  obtain ⟨hout, hfind⟩ | ⟨i, c, hin, hi, hc, hfind⟩ := hs.find which
  · rw [if_pos (hout.elim Or.inl fun h => Or.inr (Or.inl h)), hfind]
    exact ⟨h, rfl, cells, hs⟩
  · obtain ⟨a, e⟩ := c
    have hlt : i < cells.length := (List.getElem?_eq_some_iff.1 hc).1
    have hne := hs.ne_nil hlt
    have hlength := hs.length_eq
    rw [if_neg (by
      rintro (h | h | h | h)
      · exact hin (Or.inl h)
      · exact hin (Or.inr h)
      · omega
      · exact hne h), hfind, hi, hs.read hc, Fallible.ok_bind]
    dsimp only
    obtain ⟨r, heq, hlen, hw⟩ := hs.window.closeGap (f := i) (k := 1)
      (by rw [List.length_map]; exact hlt) hne
    rw [List.length_map, show cells.length - (i + 1) + 1 = h.length - i by omega,
      ← Nat.add_assoc] at heq
    rw [heq, Fallible.ok_bind, Fallible.ok_bind]
    have ho := (hs.owns.first hc).congr
      (g := { h with realHistory := r, length := h.length - 1 }) rfl rfl
    unfold Hist.takeOut
    rw [Hist.contents, ho.deref List.mem_cons_self]
    obtain ⟨hfree, ho⟩ := ho.free
    simp only [Fallible.ok_bind]
    rw [hfree]
    refine ⟨_, rfl, cells.eraseIdx i, ?_, ho, ?_, hs.base, hs.offset, hs.stifled, hs.maxEntries,
      ?_⟩
    · rw [List.eraseIdx_eq_take_drop_succ, List.map_append, List.map_take, List.map_drop]
      exact ⟨hw.length, hw.size, hw.slots, hw.last⟩
    · rw [hs.entries, List.eraseIdx_eq_take_drop_succ, List.eraseIdx_eq_take_drop_succ,
        List.map_append, List.map_take, List.map_drop]
    · exact hs.started_of_length hlen

/-! ## Ranges -/

theorem Window.readRange {ps : List Address} (hw : Window h ps) {i n : Nat}
    (hin : i + n ≤ ps.length) : h.readRange i n = .ok (((ps.drop i).take n).map some) := by
  induction n generalizing i with
  | zero => rfl
  | succ n ih =>
    have hlt : i < ps.length := by omega
    rw [Hist.readRange, hw.read (List.getElem?_eq_getElem hlt), Fallible.ok_bind,
      ih (i := i + 1) (by omega), Fallible.ok_bind, List.drop_eq_getElem_cons hlt]
    rfl

theorem Owns.takeOutAll {taken rest : List (Address × Entry)} (ho : Owns h (taken ++ rest)) :
    ∃ f, h.takeOutAll (taken.map fun c => some c.1) =
        .ok ({ h with entry := f }, taken.map Prod.snd) ∧ Owns { h with entry := f } rest := by
  induction taken generalizing h with
  | nil => exact ⟨h.entry, rfl, ho⟩
  | cons c taken ih =>
    rw [List.cons_append] at ho
    obtain ⟨hfree, ho'⟩ := ho.free
    obtain ⟨f, heq, ho''⟩ := ih ho'
    refine ⟨f, ?_, ho''⟩
    rw [List.map_cons, Hist.takeOutAll, ho.deref List.mem_cons_self, Fallible.ok_bind, hfree,
      Fallible.ok_bind, heq]
    rfl

/-- The cells of a range, and the others. -/
theorem perm_range (cells : List (Address × Entry)) (i k : Nat) :
    cells.Perm ((cells.drop i).take k ++ (cells.take i ++ cells.drop (i + k))) := by
  have h₁ : cells.take i ++ ((cells.drop i).take k ++ cells.drop (i + k)) = cells := by
    rw [← List.drop_drop, List.take_append_drop, List.take_append_drop]
  have h₂ := List.perm_append_comm_assoc (cells.take i) ((cells.drop i).take k)
    (cells.drop (i + k))
  rwa [h₁] at h₂

theorem removeHistoryRange_holds (hh : Holds h q) (first last : Int) :
    ∃ h', (h.removeHistoryRange first last >>= fun r => r.1.takeOutAll r.2) =
        .ok (h', (q.removeRange first last).2) ∧ Holds h' (q.removeRange first last).1 := by
  obtain ⟨cells, hs⟩ := hh
  have hsame : ∃ h', ((Except.ok (h, []) : Except Fault _) >>= fun r => r.1.takeOutAll r.2) =
      .ok (h', (q, ([] : List Entry)).2) ∧ Holds h' (q, ([] : List Entry)).1 :=
    ⟨h, rfl, cells, hs⟩
  unfold Hist.removeHistoryRange Recall.removeRange
  by_cases hempty : h.realHistory = [] ∨ h.length = 0
  · have hnone : q.find first = none := by
      obtain ⟨-, hfind⟩ | ⟨i, c, -, -, hc, -⟩ := hs.find first
      · exact hfind
      · have hlt : i < cells.length := (List.getElem?_eq_some_iff.1 hc).1
        rcases hempty with hreal | hzero
        · exact absurd hreal (hs.ne_nil hlt)
        · rw [hs.length_eq] at hzero
          omega
    rw [if_pos hempty, hnone]
    exact hsame
  · rw [if_neg hempty]
    obtain ⟨hout, hfind⟩ | ⟨i, c, hin, hi, hc, hfind⟩ := hs.find first
    · rw [if_pos (hout.elim Or.inl fun h => Or.inr (Or.inl h)), hfind]
      exact hsame
    · obtain ⟨hout, hfind'⟩ | ⟨j, c', hin', hj, hc', hfind'⟩ := hs.find last
      · rw [if_pos (Or.inr (Or.inr hout)), hfind, hfind']
        exact hsame
      · have hlt : j < cells.length := (List.getElem?_eq_some_iff.1 hc').1
        have hlength := hs.length_eq
        rw [if_neg (by omega), hfind, hfind']
        dsimp only
        by_cases hij : j < i
        · rw [if_pos (by omega), if_pos hij]
          exact hsame
        · rw [if_neg (by omega), if_neg hij, hi, hj]
          obtain ⟨k, rfl⟩ := Nat.exists_eq_add_of_le (Nat.le_of_not_lt hij)
          rw [show i + k - i + 1 = k + 1 by omega, show i + k + 1 - i = k + 1 by omega,
            hs.window.readRange (by rw [List.length_map]; omega), Fallible.ok_bind]
          obtain ⟨r, heq, hlen, hw⟩ := hs.window.closeGap (f := i) (k := k + 1)
            (by rw [List.length_map]; omega) fun h => hempty (Or.inl h)
          rw [List.length_map, show cells.length - (i + (k + 1)) + 1 = h.length - (i + k) by omega]
            at heq
          rw [show h.theHistory + (i + k) + 1 = h.theHistory + (i + (k + 1)) by omega, heq,
            Fallible.ok_bind, Fallible.ok_bind]
          have ho := (hs.owns.perm (perm_range cells i (k + 1))).congr
            (g := { h with realHistory := r, length := h.length - (k + 1) }) rfl rfl
          obtain ⟨f, htake, ho⟩ := ho.takeOutAll
          have hpointers : (((cells.map Prod.fst).drop i).take (k + 1)).map some =
              ((cells.drop i).take (k + 1)).map fun c => some c.1 := by
            rw [← List.map_drop, ← List.map_take, List.map_map]
            rfl
          dsimp only
          rw [hpointers, htake]
          refine ⟨_, ?_, cells.take i ++ cells.drop (i + (k + 1)), ?_, ho, ?_, hs.base, hs.offset,
            hs.stifled, hs.maxEntries, hs.started_of_length hlen⟩
          · rw [hs.entries, List.map_take, List.map_drop]
          · rw [List.map_append, List.map_take, List.map_drop]
            exact ⟨hw.length, hw.size, hw.slots, hw.last⟩
          · rw [hs.entries, List.map_append, List.map_take, List.map_drop]
            rfl

end Operations

end Basht.History
