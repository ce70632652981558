import Basht.Keyboard.Pump

/-!
# Keys

The keys that edit a line and those that cycle, and what each of them does to a line that is
being typed. An escape sequence is scanned byte by byte; from the normal state a whole cycle key
comes to one call of `basht_cycle_owner` and changes nothing else (`lineReader_cycle`,
`typeAheadReader_cycle`).
-/

namespace Basht.Keyboard

open Basht.Filter Basht.Tasks

/-- A printable character, backspace, Enter, or alt-left and alt-right. -/
inductive Key where
  | char (c : UInt8) (h : c = 0x09 ∨ 0x20 ≤ c ∧ c ≠ 0x7f)
  | erase (c : UInt8) (h : c = 0x7f ∨ c = 0x08)
  | enter (c : UInt8) (h : c = 0x0d ∨ c = 0x0a)
  | cycle (d : Dir)

/-- The bytes of alt-left and alt-right. -/
def Dir.bytes : Dir → List UInt8
  | .left => [0x1b, 0x5b, 0x31, 0x3b, 0x33, 0x44]
  | .right => [0x1b, 0x5b, 0x31, 0x3b, 0x33, 0x43]

def Key.bytes : Key → List UInt8
  | .char c _ | .erase c _ | .enter c _ => [c]
  | .cycle d => d.bytes

/-- A printable character has no other meaning. -/
structure Printable (c : UInt8) : Prop where
  typed : c = 0x09 ∨ 0x20 ≤ c
  not_escape : c ≠ 0x1b
  not_signal : ¬(c = 0x03 ∨ c = 0x1a)
  not_end : c ≠ 0x04
  not_enter : ¬(c = 0x0d ∨ c = 0x0a)
  not_erase : ¬(c = 0x7f ∨ c = 0x08)

theorem printable {c : UInt8} (h : c = 0x09 ∨ 0x20 ≤ c ∧ c ≠ 0x7f) : Printable c := by
  rcases h with rfl | ⟨hle, hne⟩
  · constructor <;> decide
  · have hlow : ∀ b : UInt8, b < 0x20 → c ≠ b := by
      rintro b hb rfl
      exact absurd hle (UInt8.not_le.mpr hb)
    exact {
      typed := Or.inr hle
      not_escape := hlow _ (by decide)
      not_signal := fun h => h.elim (hlow _ (by decide)) (hlow _ (by decide))
      not_end := hlow _ (by decide)
      not_enter := fun h => h.elim (hlow _ (by decide)) (hlow _ (by decide))
      not_erase := fun h => h.elim hne (hlow _ (by decide)) }

theorem keyEscape_normal {c : UInt8} (h : c ≠ 0x1b) :
    keyEscape true .normal c = (.normal, .none) := if_neg h

/-- The bytes of a cycle key, read by a scanner whose only state that changes is that of
`key_escape`. -/
theorem scan_cycle {σ : Type} {T : Transducer σ UInt8 Out} (put : Esc → σ) (done : σ) {d : Dir}
    (heat : ∀ e e' c, keyEscape true e c = (e', .eat) → T.step (put e) c = (put e', []))
    (hcycle : ∀ e c, keyEscape true e c = (.normal, .cycle d) →
      T.step (put e) c = (done, [.cycle d])) :
    T.final (put .normal) d.bytes = done ∧ T.output (put .normal) d.bytes = [.cycle d] := by
  have hesc := heat .normal .esc 0x1b rfl
  have hcsi := heat .esc (.csi 0 0 false) 0x5b rfl
  have hone := heat (.csi 0 0 false) (.csi 1 0 false) 0x31 rfl
  have hsemi := heat (.csi 1 0 false) (.csi 1 0 true) 0x3b rfl
  have hthree := heat (.csi 1 0 true) (.csi 1 3 true) 0x33 rfl
  cases d with
  | left =>
    have hlast := hcycle (.csi 1 3 true) 0x44 rfl
    simp only [Dir.bytes, Transducer.final_cons, Transducer.final_nil, Transducer.output_cons,
      Transducer.output_nil, hesc, hcsi, hone, hsemi, hthree, hlast]
    exact ⟨trivial, rfl⟩
  | right =>
    have hlast := hcycle (.csi 1 3 true) 0x43 rfl
    simp only [Dir.bytes, Transducer.final_cons, Transducer.final_nil, Transducer.output_cons,
      Transducer.output_nil, hesc, hcsi, hone, hsemi, hthree, hlast]
    exact ⟨trivial, rfl⟩

/-! ## Lines for a task -/

namespace Console

variable {s : Console} {i : Fin MAX_CAPS} {r : Rly} {c : UInt8}

def setEsc (s : Console) (r : Rly) (e : Esc) : Console := s.setRly r { s.rly r with esc := e }

theorem setEsc_self {e : Esc} (h : (s.rly r).esc = e) : s.setEsc r e = s := by
  subst h
  cases r <;> rfl

theorem setEsc_setEsc (e e' : Esc) : (s.setEsc r e).setEsc r e' = s.setEsc r e' := by
  cases r <;> rfl

theorem esc_setEsc (e : Esc) : ((s.setEsc r e).rly r).esc = e := by
  cases r <;> rfl

theorem relayChar_eat {e e' : Esc} (h : keyEscape true e c = (e', .eat)) :
    (s.setEsc r e).relayChar i r c = (s.setEsc r e', []) := by
  unfold relayChar
  rw [esc_setEsc, h]
  exact congrArg (·, []) (setEsc_setEsc e e')

theorem relayChar_cycle {e e' : Esc} {d : Dir} (h : keyEscape true e c = (e', .cycle d)) :
    (s.setEsc r e).relayChar i r c = (cycleOwner d (s.setEsc r e'), [.cycle d]) := by
  unfold relayChar
  rw [esc_setEsc, h]
  exact congrArg (fun t => (cycleOwner d t, [Out.cycle d])) (setEsc_setEsc e e')

/-- A byte outside of escape sequences is a key. -/
theorem relayChar_key (hesc : (s.rly r).esc = .normal) (hc : c ≠ 0x1b) :
    s.relayChar i r c = s.relayKey i r c := by
  have hself : s.setRly r { s.rly r with esc := .normal } = s := setEsc_self hesc
  unfold relayChar
  rw [hesc, keyEscape_normal hc]
  simp only [hself]

theorem relayChar_char (hesc : (s.rly r).esc = .normal) (h : c = 0x09 ∨ 0x20 ≤ c ∧ c ≠ 0x7f) :
    s.relayChar i r c = (s.relayType i r c, []) := by
  have hc := printable h
  rw [relayChar_key hesc hc.not_escape, relayKey, if_neg hc.not_signal, if_neg hc.not_end,
    if_neg hc.not_enter, if_neg hc.not_erase, if_pos hc.typed]

theorem relayChar_erase (hesc : (s.rly r).esc = .normal) (h : c = 0x7f ∨ c = 0x08) :
    s.relayChar i r c = (s.relayErase r, []) := by
  rcases h with rfl | rfl <;> exact relayChar_key hesc (by decide)

theorem relayChar_enter (hesc : (s.rly r).esc = .normal) (h : c = 0x0d ∨ c = 0x0a) :
    s.relayChar i r c = s.relayEnter i r := by
  rcases h with rfl | rfl <;> exact relayChar_key hesc (by decide)

end Console

namespace Pump

variable {s : Pump} {i : Fin MAX_CAPS} {r : Rly}

/-- A cycle key that is typed into a task's line. -/
theorem lineReader_cycle (hesc : (s.rly r).esc = .normal) (d : Dir) :
    (lineReader i r).final s d.bytes = s.setConsole (Console.cycleOwner d s.toConsole) ∧
      (lineReader i r).output s d.bytes = [.cycle d] := by
  have hself : s.toConsole.setEsc r .normal = s.toConsole := Console.setEsc_self hesc
  have hscan := scan_cycle (T := lineReader i r) (d := d) (fun e => s.setConsole (s.setEsc r e))
    (s.setConsole (Console.cycleOwner d s.toConsole))
    (by
      intro e e' c h
      have hchar := Console.relayChar_eat (s := s.toConsole) (i := i) (r := r) h
      exact congrArg (fun t => (s.setConsole t.1, t.2)) hchar)
    (by
      intro e c h
      have hchar := Console.relayChar_cycle (s := s.toConsole) (i := i) (r := r) h
      rw [hself] at hchar
      exact congrArg (fun t => (s.setConsole t.1, t.2)) hchar)
  simp only [hself] at hscan
  exact hscan

/-! ## The shell's line -/

def setTaEsc (s : Pump) (e : Esc) : Pump := { s with taEsc := e }

/-- A cycle key that is typed into the type-ahead line. -/
theorem typeAheadReader_cycle (hesc : s.taEsc = .normal) (d : Dir) :
    typeAheadReader.final s d.bytes = s.setConsole (Console.cycleOwner d s.toConsole) ∧
      typeAheadReader.output s d.bytes = [.cycle d] := by
  have hself : s.setTaEsc .normal = s := by
    rw [← hesc]
    rfl
  have hscan := scan_cycle (T := typeAheadReader) (d := d) s.setTaEsc
    (s.setConsole (Console.cycleOwner d s.toConsole))
    (by
      intro e e' c h
      simp only [typeAheadReader, typeAheadChar, setTaEsc, h])
    (by
      intro e c h
      simp only [typeAheadReader, typeAheadChar, setTaEsc, h, ← hesc])
  rw [hself] at hscan
  exact hscan

theorem typeAheadChar_key {c : UInt8} (hesc : s.taEsc = .normal) (hc : c ≠ 0x1b) :
    s.typeAheadChar c = s.typeAheadKey c := by
  have hself : { s with taEsc := .normal } = s := by
    rw [← hesc]
  unfold typeAheadChar
  rw [hesc, keyEscape_normal hc]
  simp only [hself]

theorem typeAheadChar_char {c : UInt8} (hesc : s.taEsc = .normal)
    (h : c = 0x09 ∨ 0x20 ≤ c ∧ c ≠ 0x7f) (hroom : s.taRly.text.length < CAP - 2) :
    s.typeAheadChar c = (s.setTypeAhead (s.taRly.text ++ [c]), []) := by
  have hc := printable h
  rw [typeAheadChar_key hesc hc.not_escape, typeAheadKey, if_neg hc.not_signal,
    if_neg hc.not_enter, if_neg hc.not_erase, if_pos hc.typed, if_pos hroom]

theorem typeAheadChar_erase {c : UInt8} (hesc : s.taEsc = .normal) (h : c = 0x7f ∨ c = 0x08) :
    s.typeAheadChar c = (s.setTypeAhead s.taRly.text.dropLast, []) := by
  rcases h with rfl | rfl <;> exact typeAheadChar_key hesc (by decide)

theorem typeAheadChar_enter {c : UInt8} (hesc : s.taEsc = .normal) (h : c = 0x0d ∨ c = 0x0a) :
    s.typeAheadChar c = (s.typeAheadEnter, []) := by
  rcases h with rfl | rfl <;> exact typeAheadChar_key hesc (by decide)

end Pump

end Basht.Keyboard
