import Basht.Builtins.Getopt

/-!
# What `getopts` reads

A call of `getopts` that starts or goes on in its own vector stays in it. It leaves it where the
scan was stopped in the middle of a word and the next vector has no such word, or one that is too
short (`Getopt.Fits`).
-/

namespace Basht.Builtins

/-- The index of the next word is inside the vector. -/
def Getopt.Scans (st : Getopt) (v : Vec) : Prop := 0 < st.optind ∧ st.optind < v.argc

/-- A scan that was stopped in a word finds such a word in the vector: if it is going to go on, one
that is long enough, and otherwise perhaps the null pointer behind the last word. -/
def Getopt.Fits (st : Getopt) (v : Vec) : Prop :=
  st.nextchar = true →
    (∃ w, v.words[st.curopt]? = some w ∧ (st.Scans v → st.charindex ≤ w.length)) ∨
      (st.curopt = v.argc ∧ v.terminated = true ∧ ¬st.Scans v)

/-- The condition on one operation. -/
def Op.Fits (s : Shell) : Op → Prop
  | .getopts (_ :: name :: args) dollar0 params => s.st.Fits (vector dollar0 name args params).1
  | _ => True

/-! ## Words -/

variable {st : Getopt} {v : Vec} {w : Word} {off : Nat} {optstring : List UInt8}

theorem charAt_of_le (h : off ≤ w.length) : charAt w off = .ok (w.getD off 0) := if_pos h

theorem charAt_ok_iff : (∃ c, charAt w off = .ok c) ↔ off ≤ w.length := by
  constructor
  · intro h
    obtain ⟨c, hc⟩ := h
    unfold charAt at hc
    split at hc
    · assumption
    · cases hc
  · intro h
    exact ⟨_, charAt_of_le h⟩

theorem lt_length_of_getD (h : w.getD off 0 ≠ 0) : off < w.length := by
  by_contra hge
  apply h
  rw [List.getD_eq_getElem?_getD, List.getElem?_eq_none (Nat.le_of_not_lt hge), Option.getD_none]

/-- A character that is not the NUL has one behind it. -/
theorem charAt_succ {c : UInt8} (h : charAt w off = .ok c) (hc : c ≠ 0) :
    off + 1 ≤ w.length ∧ charAt w (off + 1) = .ok (w.getD (off + 1) 0) := by
  have hle := charAt_ok_iff.mp ⟨c, h⟩
  rw [charAt_of_le hle] at h
  have hlt : off + 1 ≤ w.length := by
    apply lt_length_of_getD
    rw [Except.ok.inj h]
    exact hc
  exact ⟨hlt, charAt_of_le hlt⟩

theorem isDashDash_ok (w : Word) : ∃ b, isDashDash w = .ok b := by
  have hdash : '-'.toUInt8 ≠ 0 := by decide
  have hfirst := charAt_of_le (Nat.zero_le w.length)
  unfold isDashDash
  rw [hfirst]
  simp only
  split
  · exact ⟨false, rfl⟩
  · rename_i hc₀
    have hne₀ : w.getD 0 0 ≠ 0 := by
      rw [Decidable.not_not.mp hc₀]
      exact hdash
    have hsecond := (charAt_succ hfirst hne₀).2
    rw [hsecond]
    simp only
    split
    · exact ⟨false, rfl⟩
    · rename_i hc₁
      have hne₁ : w.getD (0 + 1) 0 ≠ 0 := by
        rw [Decidable.not_not.mp hc₁]
        exact hdash
      rw [(charAt_succ hsecond hne₁).2]
      exact ⟨_, rfl⟩

/-- A word of options has a first option. -/
theorem isOperand_ok (w : Word) :
    ∃ b, isOperand w = .ok b ∧ (b = false → 2 ≤ w.length) := by
  have hfirst := charAt_of_le (Nat.zero_le w.length)
  unfold isOperand
  rw [hfirst]
  simp only
  split
  · refine ⟨true, rfl, ?_⟩
    intro hb
    cases hb
  · rename_i hc₀
    have hne₀ : w.getD 0 0 ≠ 0 := by
      rw [Decidable.not_not.mp hc₀]
      decide
    have hsecond := (charAt_succ hfirst hne₀).2
    rw [hsecond]
    refine ⟨_, rfl, ?_⟩
    intro hb
    apply lt_length_of_getD
    intro hzero
    rw [show w.getD (0 + 1) 0 = 0 from hzero] at hb
    cases hb

/-! ## One call -/

theorem read_of_lt {k : Nat} (h : k < v.argc) : ∃ w, v.read k = .ok (some w) := by
  have hsome : v.words[k]? = some (v.words.get ⟨k, h⟩) := List.getElem?_eq_getElem h
  unfold Vec.read
  rw [hsome]
  exact ⟨_, rfl⟩

theorem Getopt.Scans.toNat_lt (h : st.Scans v) : st.optind.toNat < v.argc := by
  obtain ⟨hpos, hlt⟩ := h
  omega

/-- The step to the next word. -/
theorem advance_ok (h : 0 < st.optind) : ∃ r, st.advance v = .ok r ∧
    ∀ w off, r.2 = some (w, off) → off + 1 ≤ w.length ∧ r.1.Scans v := by
  unfold Getopt.advance
  split
  · refine ⟨_, rfl, ?_⟩
    intro w off hr
    cases hr
  · rename_i hlt
    have hscans : st.Scans v := ⟨h, by omega⟩
    obtain ⟨temp, hread⟩ := read_of_lt hscans.toNat_lt
    obtain ⟨b, hdash⟩ := isDashDash_ok temp
    obtain ⟨b', hoperand, hlen⟩ := isOperand_ok temp
    rw [hread]
    simp only [hdash, hoperand]
    cases b with
    | true =>
      refine ⟨_, rfl, ?_⟩
      intro w off hr
      cases hr
    | false =>
      cases b' with
      | true =>
        refine ⟨_, rfl, ?_⟩
        intro w off hr
        cases hr
      | false =>
        refine ⟨_, rfl, ?_⟩
        intro w off hr
        cases hr
        exact ⟨hlen rfl, hscans⟩

/-- An option inside its word. -/
theorem option_ok (h : off + 1 ≤ w.length) (hscans : st.Scans v) :
    ∃ r, st.option v optstring w off = .ok r := by
  obtain ⟨hpos, hlt⟩ := hscans
  unfold Getopt.option
  rw [charAt_of_le (Nat.le_of_succ_le h), charAt_of_le h]
  simp only
  split
  · exact ⟨_, rfl⟩
  · split
    · unfold Getopt.argument
      split
      · exact ⟨_, rfl⟩
      · rename_i hnext
        have hzero : w.getD (off + 1) 0 = 0 := Decidable.not_not.mp hnext
        simp only [hzero, if_true]
        split
        · exact ⟨_, rfl⟩
        · rename_i hne
          obtain ⟨arg, hread⟩ := read_of_lt (v := v) (k := (st.optind + 1).toNat) (by omega)
          rw [hread]
          exact ⟨_, rfl⟩
    · exact ⟨_, rfl⟩

/-- The pointer can be read. -/
def NextChar.Inside : NextChar → Prop
  | .null => True
  | .stale => False
  | .inWord w off => off ≤ w.length

theorem nextElement_ok (h : 0 < st.optind) : ∃ r, st.nextElement v optstring = .ok r := by
  obtain ⟨⟨st', found⟩, hadvance, hfound⟩ := advance_ok (v := v) h
  unfold Getopt.nextElement
  rw [hadvance]
  cases found with
  | none => exact ⟨_, rfl⟩
  | some found =>
    obtain ⟨hlen, hscans⟩ := hfound found.1 found.2 rfl
    exact option_ok hlen hscans

/-- A scan from the next word. -/
theorem scan_null_ok (h : 0 < st.optind) : ∃ r, st.scan .null v optstring = .ok r :=
  nextElement_ok h

theorem scan_ok_iff {nextchar : NextChar} (h : st.Scans v) :
    (∃ r, st.scan nextchar v optstring = .ok r) ↔ nextchar.Inside := by
  cases nextchar with
  | null => exact iff_of_true (scan_null_ok h.1) trivial
  | stale =>
    refine iff_of_false ?_ id
    intro hr
    obtain ⟨r, hr⟩ := hr
    cases hr
  | inWord w off =>
    unfold Getopt.scan
    by_cases hle : off ≤ w.length
    · have hatEnd : (NextChar.inWord w off).atEnd = .ok (w.getD off 0 == 0) := by
        rw [NextChar.atEnd, charAt_of_le hle]
      refine iff_of_true ?_ hle
      rw [hatEnd]
      by_cases hzero : w.getD off 0 = 0
      · rw [hzero]
        exact nextElement_ok h.1
      · have hne : (w.getD off 0 == 0) = false := beq_eq_false_iff_ne.mpr hzero
        rw [hne]
        exact option_ok (lt_length_of_getD hzero) h
    · refine iff_of_false ?_ hle
      rw [NextChar.atEnd, charAt, if_neg hle]
      intro hr
      obtain ⟨r, hr⟩ := hr
      cases hr

theorem shGetopt_ok_iff {nextchar : NextChar} :
    (∃ r, st.shGetopt nextchar v optstring = .ok r) ↔ (st.Scans v → nextchar.Inside) := by
  unfold Getopt.shGetopt
  split
  · rename_i hout
    refine iff_of_true ⟨_, rfl⟩ ?_
    intro hscans
    obtain ⟨hpos, hlt⟩ := hscans
    omega
  · rename_i hin
    split
    · rename_i hzero
      refine iff_of_true (scan_null_ok Int.one_pos) ?_
      intro hscans
      exact absurd hscans.1 (by omega)
    · rename_i hne
      have hscans : st.Scans v := ⟨by omega, by omega⟩
      have hscans' : { st with optarg := none }.Scans v := hscans
      rw [scan_ok_iff hscans']
      constructor
      · intro h _
        exact h
      · intro h
        exact h hscans

/-- The condition is that of the reads. -/
theorem fits_iff {v' : Vec} (hargc : v'.argc = v.argc) :
    st.Fits v ↔ ∃ nextchar, st.restoreState v = .ok nextchar ∧
      (st.Scans v' → nextchar.Inside) := by
  have hscans : st.Scans v' ↔ st.Scans v := by
    unfold Getopt.Scans
    rw [hargc]
  rw [hscans]
  unfold Getopt.Fits Getopt.restoreState
  cases hset : st.nextchar with
  | false =>
    refine iff_of_true ?_ ⟨.null, rfl, fun _ => trivial⟩
    intro hnext
    cases hnext
  | true =>
    rw [if_pos rfl, Vec.read]
    constructor
    · intro h
      rcases h rfl with ⟨w, hw, hlen⟩ | ⟨hcur, hterm, hnot⟩
      · rw [hw]
        exact ⟨.inWord w st.charindex, rfl, hlen⟩
      · have hnone : v.words[st.curopt]? = none := List.getElem?_eq_none (Nat.le_of_eq hcur.symm)
        rw [hnone]
        simp only [if_pos (⟨hcur, hterm⟩ : st.curopt = v.argc ∧ v.terminated = true)]
        refine ⟨.stale, rfl, ?_⟩
        intro hsc
        exact hnot hsc
    · intro h _
      obtain ⟨nextchar, hrestore, hinside⟩ := h
      cases hw : v.words[st.curopt]? with
      | some w =>
        rw [hw] at hrestore
        cases hrestore
        exact Or.inl ⟨w, rfl, hinside⟩
      | none =>
        rw [hw] at hrestore
        by_cases hnull : st.curopt = v.argc ∧ v.terminated = true
        · simp only [if_pos hnull] at hrestore
          cases hrestore
          exact Or.inr ⟨hnull.1, hnull.2, hinside⟩
        · simp only [if_neg hnull] at hrestore
          cases hrestore

theorem vector_argc (dollar0 name : Word) (args params : List Word) :
    (vector dollar0 name args params).2.argc = (vector dollar0 name args params).1.argc := by
  unfold vector
  split
  · rfl
  · rfl

theorem dogetopts_ok_iff (optstr name : Word) (args : List Word) (dollar0 : Word)
    (params : List Word) :
    (∃ r, st.dogetopts (optstr :: name :: args) dollar0 params = .ok r) ↔
      st.Fits (vector dollar0 name args params).1 := by
  rw [fits_iff (vector_argc dollar0 name args params)]
  cases hrestore : st.restoreState (vector dollar0 name args params).1 with
  | error e =>
    refine iff_of_false ?_ ?_
    · intro h
      obtain ⟨r, hr⟩ := h
      simp only [Getopt.dogetopts, hrestore] at hr
      cases hr
    · intro h
      obtain ⟨nextchar, hok, -⟩ := h
      cases hok
  | ok nextchar =>
    have hopterr : ({ st with opterr := !(optstr.head? == some ':'.toUInt8) && st.opterr }.Scans
        (vector dollar0 name args params).2 → nextchar.Inside) ↔
        ∃ p, Except.ok nextchar = (.ok p : Except Fault NextChar) ∧
          (st.Scans (vector dollar0 name args params).2 → p.Inside) := by
      constructor
      · intro h
        exact ⟨nextchar, rfl, h⟩
      · intro h
        obtain ⟨p, hp, hinside⟩ := h
        cases hp
        exact hinside
    have hshGetopt := @shGetopt_ok_iff
      { st with opterr := !(optstr.head? == some ':'.toUInt8) && st.opterr }
      (vector dollar0 name args params).2
      (if (optstr.head? == some ':'.toUInt8) = true then optstr.tail else optstr) nextchar
    rw [← hopterr, ← hshGetopt]
    simp only [Getopt.dogetopts, hrestore]
    split
    · rename_i hcall
      rw [hcall]
      refine iff_of_false ?_ ?_
      · intro h
        obtain ⟨r, hr⟩ := h
        cases hr
      · intro h
        obtain ⟨r, hr⟩ := h
        cases hr
    · rename_i hcall
      rw [hcall]
      exact iff_of_true ⟨_, rfl⟩ ⟨_, rfl⟩

/-! ## Runs -/

theorem step_ok_iff (s : Shell) (op : Op) : (∃ r, s.step op = .ok r) ↔ op.Fits s := by
  cases op with
  | optind n => exact iff_of_true ⟨_, rfl⟩ trivial
  | opterr b => exact iff_of_true ⟨_, rfl⟩ trivial
  | call => exact iff_of_true ⟨_, rfl⟩ trivial
  | ret isLocal =>
    refine iff_of_true ?_ trivial
    unfold Shell.step
    cases s.saved with
    | nil => exact ⟨_, rfl⟩
    | cons st saved => exact ⟨_, rfl⟩
  | getopts list dollar0 params =>
    have hstep : (∃ r, s.step (.getopts list dollar0 params) = .ok r) ↔
        ∃ r, s.st.dogetopts list dollar0 params = .ok r := by
      cases hcall : s.st.dogetopts list dollar0 params with
      | error e =>
        refine iff_of_false ?_ ?_
        · intro h
          obtain ⟨r, hr⟩ := h
          simp only [Shell.step, hcall] at hr
          cases hr
        · intro h
          obtain ⟨r, hr⟩ := h
          cases hr
      | ok r =>
        refine iff_of_true ?_ ⟨_, rfl⟩
        simp only [Shell.step, hcall]
        exact ⟨_, rfl⟩
    rw [hstep]
    rcases list with - | ⟨optstr, - | ⟨name, args⟩⟩
    · exact iff_of_true ⟨_, rfl⟩ trivial
    · exact iff_of_true ⟨_, rfl⟩ trivial
    · exact dogetopts_ok_iff optstr name args dollar0 params

/-- A run stays in its arguments exactly if every scan that was stopped in a word fits the vector
of the next call. -/
theorem getopts_reads_iff (ops : List Op) :
    (∃ r, Fallible.exec Shell.step Shell.start ops = .ok r) ↔
      Fallible.Meets Shell.step (fun s op => op.Fits s) Shell.start ops := by
  have htrue : ∀ (s : Shell) (op : Op) (s' : Shell) (outs : List Out), True →
      s.step op = .ok (s', outs) → True := fun _ _ _ _ _ _ => trivial
  exact Fallible.exec_ok_iff htrue (fun s op _ => step_ok_iff s op) trivial ops

/-- Two options of `-abc`, and then the next one of `-a`. -/
theorem shorter_word_read_past_end :
    Fallible.exec Shell.step Shell.start
      [.getopts ["abc".toList.map Char.toUInt8, ['o'.toUInt8]] []
          ["-abc".toList.map Char.toUInt8],
        .getopts ["abc".toList.map Char.toUInt8, ['o'.toUInt8]] []
          ["-abc".toList.map Char.toUInt8],
        .getopts ["abc".toList.map Char.toUInt8, ['o'.toUInt8]] []
          ["-a".toList.map Char.toUInt8]] = .error (.character 3) := rfl

end Basht.Builtins
