import Basht.Filter.LineBuf

/-!
# What a call emits

Without a trigger a call is the run of `filterByte` on its bytes (`Call.run_bytes`). Every
line a call emits is the text of a line buffer, so it is no longer than one
(`Call.run_lines`).
-/

namespace Basht.Filter

theorem exec_turn (lb : LineBuf) (i : Nat) (buf : List UInt8) :
    Fallible.exec (Loop.turn false) ⟨lb, i, false⟩ buf =
      (Fallible.exec LineBuf.filterByte lb buf).map
        fun r => (⟨r.1, i + buf.length, false⟩, r.2) := by
  induction buf generalizing lb i with
  | nil => rfl
  | cons c buf ih =>
    rw [Fallible.exec_cons, Fallible.exec_cons, List.length_cons]
    cases hbyte : lb.filterByte c with
    | error e =>
      simp only [Loop.turn, hbyte, Bool.false_eq_true, if_false]
      rfl
    | ok r =>
      simp only [Loop.turn, hbyte, Bool.false_eq_true, if_false, Bool.false_and, Fallible.andThen,
        ih, Nat.add_right_comm i, Nat.add_assoc i]
      cases Fallible.exec LineBuf.filterByte r.1 buf <;> rfl

theorem Call.run_bytes (lb : LineBuf) (buf : List UInt8) :
    Call.run lb (.bytes buf false) = Fallible.exec LineBuf.filterByte lb buf := by
  simp only [Call.run, filterLoop, exec_turn]
  cases Fallible.exec LineBuf.filterByte lb buf <;> rfl

/-- If no byte asks for the full screen, a trigger makes no difference. -/
theorem exec_turn_quiet {lb : LineBuf} {buf : List UInt8}
    (h : Fallible.Meets LineBuf.filterByte (fun lb c => lb.fullScreen c = false) lb buf)
    (trigger : Bool) (i : Nat) :
    Fallible.exec (Loop.turn trigger) ⟨lb, i, false⟩ buf =
      Fallible.exec (Loop.turn false) ⟨lb, i, false⟩ buf := by
  induction buf generalizing lb i with
  | nil => rfl
  | cons c buf ih =>
    have hturn : Loop.turn trigger ⟨lb, i, false⟩ c = Loop.turn false ⟨lb, i, false⟩ c := by
      simp only [Loop.turn, h.1, Bool.and_false]
    rw [Fallible.exec_cons, Fallible.exec_cons, hturn]
    cases hbyte : lb.filterByte c with
    | error e =>
      simp only [Loop.turn, hbyte, Bool.false_eq_true, if_false]
      rfl
    | ok r =>
      simp only [Loop.turn, hbyte, Bool.false_eq_true, if_false, Bool.false_and, Fallible.andThen]
      rw [ih (h.2 r.1 r.2 hbyte)]

/-- Then calls on the pieces of an input do what the run on the whole input does. -/
theorem exec_chunks {lb lb' : LineBuf} {lines : List Line} {chunks : List (List UInt8 × Bool)}
    (h : Fallible.Meets LineBuf.filterByte (fun lb c => lb.fullScreen c = false) lb
      (chunks.flatMap Prod.fst))
    (hrun : Fallible.exec LineBuf.filterByte lb (chunks.flatMap Prod.fst) = .ok (lb', lines)) :
    Fallible.exec Call.run lb (chunks.map fun chunk => .bytes chunk.1 chunk.2) =
      .ok (lb', lines) := by
  induction chunks generalizing lb lines with
  | nil => exact hrun
  | cons chunk chunks ih =>
    rw [List.flatMap_cons] at h hrun
    rw [Fallible.exec_append] at hrun
    obtain ⟨t, us, u, zs, hfirst, hrest, ht⟩ := Fallible.andThen_eq_ok.mp hrun
    cases ht
    have hcall : Call.run lb (.bytes chunk.1 chunk.2) = .ok (t, us) := by
      have hfalse := Call.run_bytes lb chunk.1
      rw [hfirst] at hfalse
      simp only [Call.run, filterLoop] at hfalse ⊢
      rw [exec_turn_quiet h.take]
      exact hfalse
    rw [List.map_cons, Fallible.exec_cons, hcall]
    exact Fallible.andThen_eq_ok.mpr ⟨t, us, _, zs, rfl, ih (h.drop hfirst) hrest, rfl⟩

/-! ## The lines -/

namespace LineBuf

variable {lb lb' : LineBuf} {c : UInt8} {lines : List Line}

theorem length_text_le (lb : LineBuf) : lb.text.length ≤ CAP := by
  rw [text, Buffer.upTo, List.length_take, lb.data.length_cells]
  exact Nat.min_le_right _ _

theorem wrap_lines (h : lb.wrap = .ok (lb', lines)) : ∀ line ∈ lines, line.length ≤ CAP := by
  unfold wrap at h
  split_ifs at h
  · split at h
    · cases h
    · cases h
      intro line hline
      rw [List.mem_singleton.mp hline]
      exact length_text_le _
  · cases h
    simp

theorem putch_lines (h : lb.putch c = .ok (lb', lines)) : ∀ line ∈ lines, line.length ≤ CAP := by
  unfold putch at h
  split at h
  · cases h
  · rename_i hwrap
    split at h
    · cases h
    · cases h
      exact wrap_lines hwrap

theorem filterByte_lines (h : lb.filterByte c = .ok (lb', lines)) :
    ∀ line ∈ lines, line.length ≤ CAP := by
  unfold filterByte at h
  split at h
  · split_ifs at h
    · cases h
      simp
    · cases h
      simp
    · cases h
      intro line hline
      rw [List.mem_singleton.mp hline]
      exact length_text_le _
    · cases h
      simp
    · cases h
      simp
    · exact putch_lines h
    · cases h
      simp
    · exact putch_lines h
  · split_ifs at h <;> cases h <;> simp
  · split_ifs at h
    · cases h
      simp
    · cases h
      simp
    · cases h
      simp
    · split at h
      · cases h
      · cases h
        simp
    · cases h
      simp
  · split_ifs at h <;> cases h <;> simp
  · split_ifs at h <;> cases h <;> simp

theorem flush_lines (lb : LineBuf) : ∀ line ∈ lb.flush.2, line.length ≤ CAP := by
  unfold flush
  split_ifs
  · simp
  · intro line hline
    rw [List.mem_singleton.mp hline]
    exact length_text_le _
  · simp

end LineBuf

/-- The lines of a call fit a line buffer. -/
theorem Call.run_lines {lb lb' : LineBuf} {call : Call} {lines : List Line}
    (h : call.run lb = .ok (lb', lines)) : ∀ line ∈ lines, line.length ≤ CAP := by
  cases call with
  | flush =>
    cases h
    exact lb.flush_lines
  | bytes buf trigger =>
    simp only [Call.run] at h
    split at h
    · cases h
    · rename_i s ls hloop
      cases h
      refine Fallible.exec_law (Q := fun _ ls _ => ∀ line ∈ ls, line.length ≤ CAP) (by simp)
        (fun s ls t ls' u hls hls' line hline => ?_) (fun c _ s s' ls hturn => ?_) hloop
      · rcases List.mem_append.mp hline with hmem | hmem
        · exact hls line hmem
        · exact hls' line hmem
      · unfold Loop.turn at hturn
        split at hturn
        · cases hturn
          simp
        · split at hturn
          · cases hturn
          · rename_i hbyte
            cases hturn
            exact LineBuf.filterByte_lines hbyte

end Basht.Filter
