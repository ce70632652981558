import Basht.Display.Console
import Basht.Filter.Calls

/-!
# The owner of the bottom line

`basht_filter_bytes` ends with `basht_display_partial`, so the owner of the bottom line is
set once for each call. The results compare a call with the same bytes in several calls:
all else agrees (`filterCall_append_ok`), and the owner differs exactly when the bottom
line is `Disputed`.
-/

namespace Basht.Display

open Basht.Filter

variable {ι κ : Type}

namespace Console

/-! ## Consoles that write the same tags -/

/-- The consoles write the same tags. -/
structure SameTags (c d : Console ι κ) : Prop where
  counter : c.counter = d.counter
  tagfmt : c.tagfmt = d.tagfmt
  ident : ∀ s, (c.stream s).toIdent = (d.stream s).toIdent
  lines : ∀ s, (c.stream s).lines = (d.stream s).lines

theorem SameTags.symm {c d : Console ι κ} (h : SameTags c d) : SameTags d c :=
  ⟨h.counter.symm, h.tagfmt.symm, fun s => (h.ident s).symm, fun s => (h.lines s).symm⟩

theorem SameTags.trans {c d e : Console ι κ} (h : SameTags c d) (h' : SameTags d e) :
    SameTags c e :=
  ⟨h.counter.trans h'.counter, h.tagfmt.trans h'.tagfmt,
    fun s => (h.ident s).trans (h'.ident s), fun s => (h.lines s).trans (h'.lines s)⟩

theorem sameTags_setLineBuf [DecidableEq ι] (c : Console ι κ) (s : ι) (lb : LineBuf) :
    SameTags c (c.setLineBuf s lb) := by
  refine ⟨rfl, rfl, fun t => ?_, fun t => ?_⟩ <;> by_cases hts : t = s
  · subst hts
    simp [setLineBuf]
  · simp [setLineBuf, hts]
  · subst hts
    simp [setLineBuf]
  · simp [setLineBuf, hts]

theorem sameTags_displayPartial [DecidableEq ι] (c : Console ι κ) (s : ι) :
    SameTags c (c.displayPartial s) :=
  ⟨rfl, rfl, fun _ => rfl, fun _ => rfl⟩

section Lines

variable [DecidableEq κ] {c c' d : Console ι κ} {s : ι} {ws : List (Write ι)} {lines : List Line}

theorem exec_displayLine (h : Fallible.exec (displayLine s) c lines = .ok (c', ws)) :
    c'.bot = c.bot ∧ c'.stream = c.stream := by
  refine Fallible.exec_invariant (I := fun d => d.bot = c.bot ∧ d.stream = c.stream) ?_
    ⟨rfl, rfl⟩ h
  intro d text d' ws hd hline
  simp only [displayLine] at hline
  split at hline
  · cases hline
  · cases hline
    exact hd

theorem SameTags.displayLine (h : SameTags c d) {text : Line}
    (hc : c.displayLine s text = .ok (c', ws)) :
    ∃ d' ws', d.displayLine s text = .ok (d', ws') ∧ SameTags c' d' := by
  have hcount : c.countLine s = d.countLine s := by
    simp only [countLine, h.lines s, h.counter]
  simp only [Console.displayLine, hcount, h.tagfmt, h.ident s] at hc ⊢
  split at hc
  · cases hc
  · cases hc
    exact ⟨_, _, rfl, rfl, rfl, h.ident, h.lines⟩

theorem SameTags.exec_displayLine (h : SameTags c d)
    (hc : Fallible.exec (Console.displayLine s) c lines = .ok (c', ws)) :
    ∃ d' ws', Fallible.exec (Console.displayLine s) d lines = .ok (d', ws') ∧ SameTags c' d' := by
  induction lines generalizing c d ws with
  | nil =>
    cases hc
    exact ⟨d, [], rfl, h⟩
  | cons text lines ih =>
    obtain ⟨c₁, ws₁, c₂, ws₂, hline, hrest, hr⟩ := Fallible.andThen_eq_ok.mp hc
    cases hr
    obtain ⟨d₁, ws₁', hline', h₁⟩ := h.displayLine hline
    obtain ⟨d', ws', hexec, h'⟩ := ih h₁ hrest
    exact ⟨d', _, Fallible.andThen_eq_ok.mpr ⟨d₁, ws₁', d', ws', hline', hexec, rfl⟩, h'⟩

theorem sameTags_ok_iff (h : SameTags c d) :
    (∃ r, Fallible.exec (Console.displayLine s) c lines = .ok r) ↔
      ∃ r, Fallible.exec (Console.displayLine s) d lines = .ok r := by
  constructor
  · rintro ⟨⟨c', ws⟩, hc⟩
    obtain ⟨d', ws', hd, -⟩ := h.exec_displayLine hc
    exact ⟨_, hd⟩
  · rintro ⟨⟨d', ws⟩, hd⟩
    obtain ⟨c', ws', hc, -⟩ := h.symm.exec_displayLine hd
    exact ⟨_, hc⟩

end Lines

section Calls

variable [DecidableEq ι] [DecidableEq κ] {c c' : Console ι κ} {s : ι} {ws : List (Write ι)}

theorem filterCall_eq_ok {call : Call} :
    c.filterCall s call = .ok (c', ws) ↔
      ∃ lb lines c₁, call.run (c.stream s).lb = .ok (lb, lines) ∧
        Fallible.exec (displayLine s) (c.setLineBuf s lb) lines = .ok (c₁, ws) ∧
        c' = c₁.displayPartial s := by
  unfold filterCall
  constructor
  · intro h
    split at h
    · cases h
    · rename_i lb lines hrun
      obtain ⟨c₁, ws₁, c₂, ws₂, hexec, hpartial, hr⟩ := Fallible.andThen_eq_ok.mp h
      cases hr
      cases hpartial
      exact ⟨lb, lines, c₁, hrun, by rw [List.append_nil]; exact hexec, rfl⟩
  · rintro ⟨lb, lines, c₁, hrun, hexec, rfl⟩
    simp only [hrun, hexec, Fallible.andThen, List.append_nil]

/-- A call leaves its line buffer in the stream and sets the owner from it. -/
theorem filterCall_spec {call : Call} (h : c.filterCall s call = .ok (c', ws)) :
    ∃ lb lines, call.run (c.stream s).lb = .ok (lb, lines) ∧ (c'.stream s).lb = lb ∧
      c'.bot = takeOwnership s c.bot lb.len := by
  obtain ⟨lb, lines, c₁, hrun, hexec, rfl⟩ := filterCall_eq_ok.mp h
  obtain ⟨hbot, hstream⟩ := exec_displayLine hexec
  have hlb : (c₁.stream s).lb = lb := by
    rw [hstream]
    simp [setLineBuf]
  refine ⟨lb, lines, hrun, hlb, ?_⟩
  simp only [displayPartial, hlb, hbot, setLineBuf]

theorem filterCall_lb {call : Call} {lb : LineBuf} {lines : List Line}
    (h : c.filterCall s call = .ok (c', ws)) (hrun : call.run (c.stream s).lb = .ok (lb, lines)) :
    (c'.stream s).lb = lb := by
  obtain ⟨lb', lines', hrun', hlb, -⟩ := filterCall_spec h
  cases hrun.symm.trans hrun'
  exact hlb

/-- A call succeeds iff its bytes can be stored and its lines displayed. -/
theorem filterCall_ok_iff {call : Call} :
    (∃ r, c.filterCall s call = .ok r) ↔
      ∃ lb lines, call.run (c.stream s).lb = .ok (lb, lines) ∧
        ∃ r, Fallible.exec (displayLine s) c lines = .ok r := by
  constructor
  · rintro ⟨⟨c', ws⟩, h⟩
    obtain ⟨lb, lines, d, hrun, hexec, -⟩ := filterCall_eq_ok.mp h
    exact ⟨lb, lines, hrun, (sameTags_ok_iff (sameTags_setLineBuf c s lb)).mpr ⟨_, hexec⟩⟩
  · rintro ⟨lb, lines, hrun, hexec⟩
    obtain ⟨⟨d, ws⟩, hd⟩ := (sameTags_ok_iff (sameTags_setLineBuf c s lb)).mp hexec
    exact ⟨_, filterCall_eq_ok.mpr ⟨lb, lines, d, hrun, hd, rfl⟩⟩

/-- A call changes the tags as its lines do. -/
theorem filterCall_sameTags {call : Call} {lb : LineBuf} {lines : List Line} {d : Console ι κ}
    {ws' : List (Write ι)} (h : c.filterCall s call = .ok (c', ws))
    (hrun : call.run (c.stream s).lb = .ok (lb, lines))
    (hexec : Fallible.exec (displayLine s) c lines = .ok (d, ws')) : SameTags d c' := by
  obtain ⟨lb', lines', d', hrun', hexec', rfl⟩ := filterCall_eq_ok.mp h
  cases hrun.symm.trans hrun'
  obtain ⟨d₁, ws₁, hd₁, hsame⟩ := (sameTags_setLineBuf c s lb).exec_displayLine hexec
  cases hexec'.symm.trans hd₁
  exact hsame.trans (sameTags_displayPartial d' s)

/-- A call succeeds iff the same bytes in two calls do. -/
theorem filterCall_append_ok (c : Console ι κ) (s : ι) (b₁ b₂ : List UInt8) :
    (∃ r, c.filterCall s (.bytes (b₁ ++ b₂) false) = .ok r) ↔
      ∃ c₁ ws, c.filterCall s (.bytes b₁ false) = .ok (c₁, ws) ∧
        ∃ r, c₁.filterCall s (.bytes b₂ false) = .ok r := by
  constructor
  · intro h
    obtain ⟨lb, lines, hrun, ⟨d, es⟩, hexec⟩ := filterCall_ok_iff.mp h
    rw [Call.run_bytes, Fallible.exec_append] at hrun
    obtain ⟨lb₁, lines₁, lb₂, lines₂, hrun₁, hrun₂, hr⟩ := Fallible.andThen_eq_ok.mp hrun
    cases hr
    rw [Fallible.exec_append] at hexec
    obtain ⟨d₁, es₁, d₂, es₂, hexec₁, hexec₂, -⟩ := Fallible.andThen_eq_ok.mp hexec
    rw [← Call.run_bytes] at hrun₁ hrun₂
    obtain ⟨⟨c₁, ws⟩, hcall⟩ := filterCall_ok_iff.mpr ⟨lb₁, lines₁, hrun₁, _, hexec₁⟩
    have hlb := filterCall_lb hcall hrun₁
    have hsame := filterCall_sameTags hcall hrun₁ hexec₁
    refine ⟨c₁, ws, hcall, filterCall_ok_iff.mpr ⟨lb, lines₂, ?_, ?_⟩⟩
    · rw [hlb]
      exact hrun₂
    · exact (sameTags_ok_iff hsame).mp ⟨_, hexec₂⟩
  · rintro ⟨c₁, ws, hcall, hcall₂⟩
    obtain ⟨lb₁, lines₁, hrun₁, ⟨d₁, es₁⟩, hexec₁⟩ := filterCall_ok_iff.mp ⟨_, hcall⟩
    obtain ⟨lb₂, lines₂, hrun₂, hexec₂⟩ := filterCall_ok_iff.mp hcall₂
    rw [filterCall_lb hcall hrun₁] at hrun₂
    have hsame := filterCall_sameTags hcall hrun₁ hexec₁
    obtain ⟨⟨d₂, es₂⟩, hd₂⟩ := (sameTags_ok_iff hsame).mpr hexec₂
    rw [Call.run_bytes] at hrun₁ hrun₂
    refine filterCall_ok_iff.mpr ⟨lb₂, lines₁ ++ lines₂, ?_, (d₂, es₁ ++ es₂), ?_⟩
    · rw [Call.run_bytes, Fallible.exec_append]
      exact Fallible.andThen_eq_ok.mpr ⟨lb₁, lines₁, lb₂, lines₂, hrun₁, hrun₂, rfl⟩
    · rw [Fallible.exec_append]
      exact Fallible.andThen_eq_ok.mpr ⟨d₁, es₁, d₂, es₂, hexec₁, hd₂, rfl⟩

end Calls

/-! ## One call and several -/

section Split

variable [DecidableEq ι] [DecidableEq κ] {c c' : Console ι κ} {s : ι} {ws : List (Write ι)}

/-- The calls `basht_filter_bytes` with the byte strings `bs`, without a trigger. -/
def filterCalls (c : Console ι κ) (s : ι) (bs : List (List UInt8)) :
    Except StoreFault (Console ι κ × List (Write ι)) :=
  Fallible.exec (fun c b => c.filterCall s (.bytes b false)) c bs

theorem filterCalls_ok (c : Console ι κ) (s : ι) (b : List UInt8) (bs : List (List UInt8)) :
    (∃ r, c.filterCalls s (b :: bs) = .ok r) ↔
      ∃ r, c.filterCall s (.bytes (b :: bs).flatten false) = .ok r := by
  induction bs generalizing c b with
  | nil =>
    rw [List.flatten_cons, List.flatten_nil, List.append_nil, filterCalls, Fallible.exec_cons]
    constructor
    · rintro ⟨r, hr⟩
      obtain ⟨c₁, ws, _, _, hcall, -, -⟩ := Fallible.andThen_eq_ok.mp hr
      exact ⟨_, hcall⟩
    · rintro ⟨⟨c₁, ws⟩, hcall⟩
      exact ⟨_, Fallible.andThen_eq_ok.mpr ⟨c₁, ws, c₁, [], hcall, rfl, rfl⟩⟩
  | cons b' bs ih =>
    rw [List.flatten_cons, filterCall_append_ok]
    constructor
    · rintro ⟨r, hr⟩
      obtain ⟨c₁, ws, c₂, ws', hcall, hrest, -⟩ := Fallible.andThen_eq_ok.mp hr
      exact ⟨c₁, ws, hcall, (ih c₁ b').mp ⟨_, hrest⟩⟩
    · rintro ⟨c₁, ws, hcall, hrest⟩
      obtain ⟨⟨c₂, ws'⟩, hcalls⟩ := (ih c₁ b').mpr hrest
      exact ⟨_, Fallible.andThen_eq_ok.mpr ⟨c₁, ws, c₂, ws', hcall, hcalls, rfl⟩⟩

/-- The lengths of the partial line assembled behind each of the byte strings. -/
def partialLens (lb : LineBuf) : List (List UInt8) → List Nat
  | [] => []
  | b :: bs =>
    match Fallible.exec LineBuf.filterByte lb b with
    | .error _ => []
    | .ok (lb, _) => lb.len :: partialLens lb bs

theorem bot_filterCalls {bs : List (List UInt8)} (h : c.filterCalls s bs = .ok (c', ws)) :
    c'.bot = (partialLens (c.stream s).lb bs).foldl (takeOwnership s) c.bot := by
  induction bs generalizing c ws with
  | nil =>
    cases h
    rfl
  | cons b bs ih =>
    obtain ⟨c₁, ws₁, c₂, ws₂, hcall, hrest, hr⟩ := Fallible.andThen_eq_ok.mp h
    cases hr
    obtain ⟨lb, lines, hrun, hlb, hbot⟩ := filterCall_spec hcall
    rw [Call.run_bytes] at hrun
    rw [ih hrest, hlb, hbot]
    simp only [partialLens, hrun, List.foldl_cons]

theorem partialLens_eq_append {lb lb' : LineBuf} {lines : List Line} (b : List UInt8)
    (bs : List (List UInt8))
    (h : Fallible.exec LineBuf.filterByte lb (b :: bs).flatten = .ok (lb', lines)) :
    ∃ lens, partialLens lb (b :: bs) = lens ++ [lb'.len] := by
  induction bs generalizing lb b lines with
  | nil =>
    rw [List.flatten_cons, List.flatten_nil, List.append_nil] at h
    exact ⟨[], by simp [partialLens, h]⟩
  | cons b' bs ih =>
    rw [List.flatten_cons, Fallible.exec_append] at h
    obtain ⟨lb₁, lines₁, lb₂, lines₂, hb, hrest, hr⟩ := Fallible.andThen_eq_ok.mp h
    cases hr
    obtain ⟨lens, hlens⟩ := ih b' hrest
    refine ⟨lb₁.len :: lens, ?_⟩
    rw [List.cons_append, ← hlens]
    simp only [partialLens, hb]

/-- A stream that has had a partial, and has none, leaves the bottom line to no one. -/
theorem takeOwnership_foldl (s : ι) (bot : Option ι) (lens : List Nat) :
    takeOwnership s (lens.foldl (takeOwnership s) bot) 0
      = if ∃ len ∈ lens, 0 < len then none else takeOwnership s bot 0 := by
  induction lens generalizing bot with
  | nil => simp
  | cons len lens ih =>
    rw [List.foldl_cons, ih]
    by_cases hrest : ∃ len ∈ lens, 0 < len
    · simp [hrest]
    · rcases Nat.eq_zero_or_pos len with rfl | hpos
      · simp only [takeOwnership, List.mem_cons, exists_eq_or_imp, lt_irrefl, false_or]
        by_cases hbot : bot = some s <;> simp [hbot]
      · simp [takeOwnership, hpos, hrest]

theorem takeOwnership_zero_eq_none (s : ι) (bot : Option ι) :
    takeOwnership s bot 0 = none ↔ ∀ o, bot = some o → o = s := by
  cases bot with
  | none => simp [takeOwnership]
  | some o => by_cases h : o = s <;> simp [takeOwnership, h]

/-- The owner that `basht_display_owner` reports after a run. -/
def ownerAfter (r : Except StoreFault (Console ι κ × List (Write ι))) : Option (Option ι) :=
  match r with
  | .error _ => none
  | .ok (c, _) => some c.displayOwner

/-- Another stream than `s` owns the bottom line, the bytes `bs` leave `s` without a partial,
and at an earlier end of a call `s` has one. -/
structure Disputed (c : Console ι κ) (s : ι) (bs : List (List UInt8)) : Prop where
  processed : ∃ r, c.filterCall s (.bytes bs.flatten false) = .ok r
  other : ∃ o, c.bot = some o ∧ o ≠ s
  within : ∃ lens, partialLens (c.stream s).lb bs = lens ++ [0] ∧ ∃ len ∈ lens, 0 < len

/-- **The owner and the ends of calls.** Bytes read in several calls leave the owner they leave
when they are read in one, unless the bottom line is disputed. -/
theorem owner_split_iff (c : Console ι κ) (s : ι) (b : List UInt8) (bs : List (List UInt8)) :
    ownerAfter (c.filterCalls s (b :: bs))
        = ownerAfter (c.filterCall s (.bytes (b :: bs).flatten false)) ↔
      ¬Disputed c s (b :: bs) := by
  have hok := filterCalls_ok c s b bs
  cases hcall : c.filterCall s (.bytes (b :: bs).flatten false) with
  | error e =>
    have hnot : ¬∃ r, c.filterCall s (.bytes (b :: bs).flatten false) = .ok r := by
      rintro ⟨r, hr⟩
      cases hcall.symm.trans hr
    cases hcalls : c.filterCalls s (b :: bs) with
    | error e' => exact iff_of_true rfl fun h => hnot h.processed
    | ok r => exact absurd (hok.mp ⟨r, hcalls⟩) hnot
  | ok r =>
    obtain ⟨⟨c₂, ws₂⟩, hcalls⟩ := hok.mpr ⟨r, hcall⟩
    obtain ⟨lb, lines, hrun, -, hbot⟩ := filterCall_spec hcall
    rw [Call.run_bytes] at hrun
    obtain ⟨lens, hlens⟩ := partialLens_eq_append b bs hrun
    have hbot₂ := bot_filterCalls hcalls
    rw [hlens, List.foldl_append, List.foldl_cons, List.foldl_nil] at hbot₂
    have hdisputed : Disputed c s (b :: bs) ↔
        lb.len = 0 ∧ (∃ o, c.bot = some o ∧ o ≠ s) ∧ ∃ len ∈ lens, 0 < len := by
      constructor
      · rintro ⟨-, hother, lens', hlens', hpos⟩
        obtain ⟨rfl, hzero⟩ := List.append_inj' (hlens.symm.trans hlens') rfl
        exact ⟨by simpa using hzero, hother, hpos⟩
      · rintro ⟨hzero, hother, hpos⟩
        exact ⟨⟨r, hcall⟩, hother, lens, by rw [hlens, hzero], hpos⟩
    rw [hcalls, hdisputed]
    simp only [ownerAfter, displayOwner, hbot, hbot₂, Option.some.injEq]
    rcases Nat.eq_zero_or_pos lb.len with hzero | hpos
    · rw [hzero, takeOwnership_foldl]
      by_cases hlen : ∃ len ∈ lens, 0 < len
      · rw [if_pos hlen, eq_comm, takeOwnership_zero_eq_none]
        simp [hlen]
      · simp [hlen]
    · simp [takeOwnership, hpos, Nat.ne_of_gt hpos]

end Split

/-- Stream `true` has the partial `x` and owns the bottom line when `false` writes a line: read
in one call, `true` still owns the bottom line, and read in two, no one does. -/
theorem owner_split_differs :
    ∃ (c : Console Bool Unit) (ws : List (Write Bool)),
      (start (fun _ => .unnamed) (fun _ => some ()) none).filterCall true
          (.bytes ['x'.toUInt8] false) = .ok (c, ws) ∧
        ownerAfter (c.filterCall false (.bytes ['a'.toUInt8, '\n'.toUInt8] false))
          = some (some true) ∧
        ownerAfter (c.filterCalls false [['a'.toUInt8], ['\n'.toUInt8]]) = some none :=
  ⟨_, _, rfl, rfl, rfl⟩

end Console

end Basht.Display
