import Basht.History.Recall

/-!
# The window and the memory

`Window` says where the pointers of the list are in the block, and `Owns` what is allocated: exactly
the entries given, each once. There is one lemma for each of the primitive steps.
-/

namespace Basht.History

/-! ## Slots -/

section Slots

variable {α : Type} (l : List α) {dst src n : Nat}

theorem getElem?_moved (hd : dst + n ≤ l.length) (hs : src + n ≤ l.length) (x : Nat) :
    (l.take dst ++ (l.drop src).take n ++ l.drop (dst + n))[x]? =
      if x < dst then l[x]? else if x < dst + n then l[src + (x - dst)]? else l[x]? := by
  have h₁ : (l.take dst).length = dst := List.length_take_of_le (by omega)
  have h₂ : ((l.drop src).take n).length = n :=
    List.length_take_of_le (by rw [List.length_drop]; omega)
  rw [List.append_assoc, List.getElem?_append, h₁]
  by_cases hx : x < dst
  · rw [if_pos hx, if_pos hx, List.getElem?_take_of_lt hx]
  · rw [if_neg hx, if_neg hx, List.getElem?_append, h₂]
    by_cases hx' : x < dst + n
    · rw [if_pos hx', if_pos (by omega), List.getElem?_take_of_lt (by omega), List.getElem?_drop]
    · rw [if_neg hx', if_neg (by omega), List.getElem?_drop]
      congr 1
      omega

theorem length_moved (hd : dst + n ≤ l.length) (hs : src + n ≤ l.length) :
    (l.take dst ++ (l.drop src).take n ++ l.drop (dst + n)).length = l.length := by
  simp only [List.length_append, List.length_take, List.length_drop]
  omega

end Slots

/-! ## The window -/

/-- Pointers stand at the start of the window, with `k` slots behind them. -/
structure Room (h : Hist) (ps : List Address) (k : Nat) : Prop where
  size : h.theHistory + h.size = h.realHistory.length
  slots : ∀ i < ps.length, h.realHistory[h.theHistory + i]? = ps[i]?.map some
  room : ps.length + k ≤ h.size

/-- The list, with a null pointer behind it; before the first entry there is no block. -/
structure Window (h : Hist) (ps : List Address) : Prop where
  length : h.length = ps.length
  size : h.theHistory + h.size = h.realHistory.length
  slots : ∀ i < ps.length, h.realHistory[h.theHistory + i]? = ps[i]?.map some
  last : h.realHistory = [] ∧ ps = [] ∨ h.realHistory[h.theHistory + ps.length]? = some none

namespace Window

variable {h : Hist} {ps : List Address} (hw : Window h ps)
include hw

theorem room (hne : h.realHistory ≠ []) : Room h ps 1 := by
  refine ⟨hw.size, hw.slots, ?_⟩
  have hlast := hw.last.resolve_left fun h => hne h.1
  have := (List.getElem?_eq_some_iff.1 hlast).1
  have := hw.size
  omega

theorem ne_nil_of_lt {i : Nat} (hi : i < ps.length) : h.realHistory ≠ [] := by
  intro hreal
  have := hw.slots i hi
  rw [hreal, List.getElem?_eq_getElem hi] at this
  cases this

theorem read {i : Nat} {a : Address} (hi : ps[i]? = some a) : h.read i = .ok (some a) := by
  have hlt : i < ps.length := (List.getElem?_eq_some_iff.1 hi).1
  have := hw.slots i hlt
  rw [hi, Option.map_some] at this
  rw [Hist.read, this]

theorem read_last (hne : h.realHistory ≠ []) : h.read ps.length = .ok none := by
  rw [Hist.read, hw.last.resolve_left fun h => hne h.1]

theorem write {i : Nat} (hi : i < ps.length) (b : Address) :
    ∃ r, h.write i (some b) = .ok { h with realHistory := r } ∧
      r.length = h.realHistory.length ∧ Window { h with realHistory := r } (ps.set i b) := by
  have hroom := (hw.room (hw.ne_nil_of_lt hi)).room
  have hsize := hw.size
  have hlt : h.theHistory + i < h.realHistory.length := by omega
  refine ⟨_, by rw [Hist.write, if_pos hlt], List.length_set .., ?_, ?_, ?_, ?_⟩
  · simpa using hw.length
  · simpa using hw.size
  · intro j hj
    rw [List.length_set] at hj
    by_cases hij : i = j
    · subst hij
      simp [hlt, hi]
    · have hne : h.theHistory + i ≠ h.theHistory + j := by omega
      rw [List.getElem?_set_ne hne, List.getElem?_set_ne hij]
      exact hw.slots j hj
  · right
    have hne : h.theHistory + i ≠ h.theHistory + (ps.set i b).length := by
      rw [List.length_set]
      omega
    rw [List.getElem?_set_ne hne, List.length_set]
    exact hw.last.resolve_left fun h => hw.ne_nil_of_lt hi h.1

/-- The entries behind a gap are moved down. -/
theorem closeGap {f k : Nat} (hk : f + k ≤ ps.length) (hne : h.realHistory ≠ []) :
    ∃ r, h.memmove (h.theHistory + f) (h.theHistory + (f + k)) (ps.length - (f + k) + 1) =
        .ok { h with realHistory := r } ∧ r.length = h.realHistory.length ∧
      Window { h with realHistory := r, length := h.length - k }
        (ps.take f ++ ps.drop (f + k)) := by
  have hroom := (hw.room hne).room
  have hsize := hw.size
  have hd : h.theHistory + f + (ps.length - (f + k) + 1) ≤ h.realHistory.length := by omega
  have hs : h.theHistory + (f + k) + (ps.length - (f + k) + 1) ≤ h.realHistory.length := by omega
  have hlen : (ps.take f ++ ps.drop (f + k)).length = ps.length - k := by
    rw [List.length_append, List.length_take, List.length_drop]
    omega
  refine ⟨_, by rw [Hist.memmove, if_pos ⟨hd, hs⟩], length_moved _ hd hs, ?_, ?_, ?_, ?_⟩
  · have := hw.length
    simp only [hlen]
    omega
  · simp only [length_moved _ hd hs]
    exact hw.size
  · intro i hi
    rw [hlen] at hi
    simp only [getElem?_moved _ hd hs]
    rw [List.getElem?_append, List.length_take_of_le (by omega)]
    by_cases hif : i < f
    · rw [if_pos (by omega), if_pos hif, List.getElem?_take_of_lt hif]
      exact hw.slots i (by omega)
    · rw [if_neg (by omega), if_pos (by omega), if_neg hif, List.getElem?_drop]
      have := hw.slots (f + k + (i - f)) (by omega)
      rw [← this]
      congr 1
      omega
  · right
    simp only [getElem?_moved _ hd hs]
    rw [hlen, if_neg (by omega), if_pos (by omega)]
    rw [← hw.last.resolve_left fun h => hne h.1]
    congr 1
    omega

end Window

/-! ## Room -/

section Resize

variable {h : Hist}

theorem listGrowSize_pos (h : Hist) : 256 ≤ h.listGrowSize := by
  unfold Hist.listGrowSize
  split
  · exact Nat.le_refl _
  · exact Nat.le_max_left _ _

/-- The first `history_length` slots of the window are moved to the start of the block. -/
theorem listResize_eq (newSize : Nat) (hle : h.length ≤ newSize)
    (hroom : h.theHistory + h.length ≤ h.realHistory.length) :
    ∃ r, h.listResize newSize =
        .ok { h with realHistory := r, theHistory := 0, size := r.length } ∧
      newSize ≤ r.length ∧ ∀ i < h.length, r[i]? = h.realHistory[h.theHistory + i]? := by
  have hmove : ∃ r, (if h.theHistory ≠ 0 then h.memmove 0 h.theHistory h.length else .ok h) =
      .ok { h with realHistory := r } ∧ r.length = h.realHistory.length ∧
      ∀ i < h.length, r[i]? = h.realHistory[h.theHistory + i]? := by
    by_cases h₀ : h.theHistory = 0
    · rw [if_neg (not_not.2 h₀)]
      exact ⟨h.realHistory, rfl, rfl, fun i _ => by rw [h₀, Nat.zero_add]⟩
    · rw [if_pos h₀, Hist.memmove, if_pos ⟨by omega, hroom⟩]
      refine ⟨_, rfl, length_moved _ (by omega) hroom, fun i hi => ?_⟩
      rw [getElem?_moved _ (by omega) hroom, if_neg (by omega), if_pos (by omega), Nat.sub_zero]
  obtain ⟨r, hr, hlen, hslots⟩ := hmove
  generalize hreal : r ++ List.replicate (newSize - r.length) none = real
  have hlong : real.length = r.length + (newSize - r.length) := by
    rw [← hreal, List.length_append, List.length_replicate]
  have htake : (real.take h.length).length = h.length := List.length_take_of_le (by omega)
  have hsize : (real.take h.length ++ List.replicate (real.length - h.length) none).length =
      real.length := by
    rw [List.length_append, htake, List.length_replicate]
    omega
  refine ⟨real.take h.length ++ List.replicate (real.length - h.length) none, ?_, by omega,
    fun i hi => ?_⟩
  · unfold Hist.listResize
    rw [if_neg (by omega), hr, Fallible.ok_bind, hsize, ← hreal]
  · rw [List.getElem?_append_left (by rw [htake]; exact hi), List.getElem?_take_of_lt hi, ← hreal,
      List.getElem?_append_left (by omega)]
    exact hslots i hi

/-- A list of `history_length` entries that is moved, or of one less when it is being advanced. -/
theorem Room.resize {ps : List Address} {k : Nat} (hr : Room h ps k) (newSize : Nat)
    (hps : ps.length ≤ h.length) (hlen : h.length ≤ h.size) (hle : h.length < newSize) :
    ∃ r, h.listResize newSize =
        .ok { h with realHistory := r, theHistory := 0, size := r.length } ∧
      Room { h with realHistory := r, theHistory := 0, size := r.length } ps
        (newSize - ps.length) := by
  have hsize := hr.size
  obtain ⟨r, heq, hnew, hslots⟩ := listResize_eq newSize (h := h) (by omega) (by omega)
  refine ⟨r, heq, Nat.zero_add _, fun i hi => ?_, ?_⟩
  · rw [← hr.slots i hi]
    simp only [Nat.zero_add]
    exact hslots i (by omega)
  · change ps.length + (newSize - ps.length) ≤ r.length
    omega

end Resize

/-! ## Memory -/

/-- The entries that are allocated, with their addresses. -/
structure Owns (h : Hist) (cells : List (Address × Entry)) : Prop where
  nodup : (cells.map Prod.fst).Nodup
  entry : ∀ a e, h.entry a = some e ↔ (a, e) ∈ cells
  fresh : ∀ c ∈ cells, c.1 < h.next

namespace Owns

variable {h g : Hist} {cells cells' : List (Address × Entry)}

theorem perm (ho : Owns h cells) (hp : cells.Perm cells') : Owns h cells' :=
  ⟨(hp.map _).nodup_iff.1 ho.nodup, fun a e => by rw [ho.entry, hp.mem_iff],
    fun c hc => ho.fresh c (hp.mem_iff.2 hc)⟩

theorem congr (ho : Owns h cells) (he : g.entry = h.entry) (hn : g.next = h.next) :
    Owns g cells :=
  ⟨ho.nodup, fun a e => by rw [he, ho.entry], fun c hc => by rw [hn]; exact ho.fresh c hc⟩

theorem deref (ho : Owns h cells) {a : Address} {e : Entry} (hc : (a, e) ∈ cells) :
    h.deref (some a) = .ok e := by
  rw [Hist.deref, (ho.entry a e).2 hc]

theorem alloc (ho : Owns h cells) (e : Entry) : Owns (h.alloc e) ((h.next, e) :: cells) := by
  have hnew : ∀ b, h.next ≠ b ∨ b ∉ cells.map Prod.fst := by
    intro b
    by_cases hb : h.next = b
    · right
      intro hmem
      obtain ⟨c, hc, hfst⟩ := List.mem_map.1 hmem
      exact absurd (hfst.trans hb.symm) (Nat.ne_of_lt (ho.fresh c hc))
    · exact Or.inl hb
  refine ⟨?_, fun a e' => ?_, fun c hc => ?_⟩
  · rw [List.map_cons, List.nodup_cons]
    exact ⟨(hnew h.next).resolve_left fun h => h rfl, ho.nodup⟩
  · simp only [Hist.alloc, List.mem_cons, Prod.mk.injEq]
    by_cases ha : a = h.next
    · rw [if_pos ha, Option.some_inj]
      constructor
      · exact fun he => Or.inl ⟨ha, he.symm⟩
      · rintro (⟨-, he⟩ | hc)
        · exact he.symm
        · have := ho.fresh _ hc
          exact absurd ha (Nat.ne_of_lt this)
    · rw [if_neg ha, ho.entry]
      exact ⟨Or.inr, fun h => h.resolve_left fun h => ha h.1⟩
  · rcases List.mem_cons.1 hc with rfl | hc
    · exact Nat.lt_succ_self _
    · exact Nat.lt_succ_of_lt (ho.fresh c hc)

theorem not_mem_of_cons {a : Address} {e : Entry} (ho : Owns h ((a, e) :: cells)) (e' : Entry) :
    (a, e') ∉ cells := fun hc =>
  (List.nodup_cons.1 ho.nodup).1 (List.mem_map.2 ⟨(a, e'), hc, rfl⟩)

theorem free {a : Address} {e : Entry} (ho : Owns h ((a, e) :: cells)) :
    h.freeHistoryEntry (some a) =
        .ok { h with entry := fun b => if b = a then none else h.entry b } ∧
      Owns { h with entry := fun b => if b = a then none else h.entry b } cells := by
  refine ⟨?_, (List.nodup_cons.1 ho.nodup).2, fun b e' => ?_,
    fun c hc => ho.fresh c (List.mem_cons_of_mem _ hc)⟩
  · rw [Hist.freeHistoryEntry, (ho.entry a e).2 List.mem_cons_self]
  · dsimp only
    by_cases hb : b = a
    · subst hb
      rw [if_pos rfl]
      exact ⟨fun h => (by cases h), fun hc => absurd hc (ho.not_mem_of_cons e')⟩
    · rw [if_neg hb, ho.entry, List.mem_cons, Prod.mk.injEq]
      exact ⟨fun h => h.resolve_left fun h => hb h.1, Or.inr⟩

theorem set {a : Address} {e : Entry} (ho : Owns h ((a, e) :: cells)) (e' : Entry) :
    h.setEntry (some a) e' =
        .ok { h with entry := fun b => if some a = some b then some e' else h.entry b } ∧
      Owns { h with entry := fun b => if some a = some b then some e' else h.entry b }
        ((a, e') :: cells) := by
  refine ⟨?_, ho.nodup, fun b e'' => ?_, fun c hc => ?_⟩
  · rw [Hist.setEntry, ho.deref List.mem_cons_self]
    rfl
  · dsimp only
    by_cases hb : b = a
    · subst hb
      rw [if_pos rfl, Option.some_inj, List.mem_cons, Prod.mk.injEq]
      exact ⟨fun h => Or.inl ⟨rfl, h.symm⟩,
        fun h => (h.resolve_right (ho.not_mem_of_cons e'')).2.symm⟩
    · rw [if_neg fun h => hb (Option.some_inj.1 h).symm, ho.entry, List.mem_cons, List.mem_cons,
        Prod.mk.injEq, Prod.mk.injEq]
      exact or_congr_left ⟨fun h => absurd h.1 hb, fun h => absurd h.1 hb⟩
  · rcases List.mem_cons.1 hc with rfl | hc
    · exact ho.fresh (a, e) List.mem_cons_self
    · exact ho.fresh c (List.mem_cons_of_mem _ hc)

end Owns

end Basht.History
