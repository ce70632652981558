import Basht.Keyboard.Keys

/-!
# The history of the type-ahead line

Up and Down put entries of the history on the type-ahead line. The cursor that they move
(`cursor`) stays in the list, the line shows the entry at it, and below the newest entry the typed
line comes back. What Enter then queues for readline is one command line if and only if the entry
shown holds no newline (`browses_iff`).
-/

namespace Basht.Keyboard

open Basht.Filter Basht.Tasks

/-- Up or Down, as a CSI or an SS3 sequence. -/
structure Arrow where
  up : Bool
  ss3 : Bool

def Arrow.bytes (a : Arrow) : List UInt8 :=
  [0x1b, if a.ss3 then 0x4f else 0x5b, if a.up then 0x41 else 0x42]

/-- How Up and Down move in a history of `n` entries; none is the typed line. -/
def browse (n : Nat) : Option Nat → Arrow → Option Nat
  | none, a => if a.up = true ∧ n ≠ 0 then some (n - 1) else none
  | some h, a => if a.up then some (h - 1) else if h + 1 < n then some (h + 1) else none

def cursor (n : Nat) (ks : List Arrow) : Option Nat := ks.foldl (browse n) none

/-- What the line shows. -/
def shown (history : List (List UInt8)) (typed : List UInt8) : Option Nat → List UInt8
  | none => typed
  | some h => (history.getD h []).take (CAP - 2)

namespace Pump

variable {s t : Pump} {c : Option Nat}

theorem typeAheadReader_arrow (hesc : s.taEsc = .normal) (a : Arrow) :
    typeAheadReader.final s a.bytes = s.taHistory a.up := by
  have hself : { s with taEsc := .normal } = s := by
    rw [← hesc]
  obtain ⟨up, ss3⟩ := a
  cases up <;> cases ss3 <;>
    simp [Arrow.bytes, typeAheadReader, typeAheadChar, hesc, keyEscape, csiKey, hself]

/-- The line after some arrow keys, when it started as the line of `s`. -/
structure Browsing (s t : Pump) (c : Option Nat) : Prop where
  esc : t.taEsc = .normal
  history : t.history = s.history
  queue : t.ibuffer = s.ibuffer
  hist : t.taHist = c
  range : ∀ h, c = some h → h < s.history.length
  line : t.taRly.text = shown s.history s.taRly.text c
  stash : c ≠ none → t.taStash = s.taRly.text

theorem text_taSet (s : Pump) (line : List UInt8) :
    (s.taSet line).taRly.text = line.take (CAP - 2) := rfl

/-- An entry is put on the line, and the typed line is kept. -/
theorem Browsing.put (h : Browsing s t c) {k : Nat} (hk : k < s.history.length)
    {stash : List UInt8} (hstash : stash = s.taRly.text) :
    Browsing s (({ t with taStash := stash, taHist := some k }).taSet (t.history.getD k []))
      (some k) where
  esc := h.esc
  history := h.history
  queue := h.queue
  hist := rfl
  range k' hk' := by
    cases hk'
    exact hk
  line := by
    rw [text_taSet, h.history]
    rfl
  stash _ := hstash

/-- The typed line is put back. -/
theorem Browsing.back (h : Browsing s t c) (hlen : s.taRly.text.length ≤ CAP - 2)
    (hstash : t.taStash = s.taRly.text) :
    Browsing s (({ t with taHist := none }).taSet t.taStash) none where
  esc := h.esc
  history := h.history
  queue := h.queue
  hist := rfl
  range _ hk := by cases hk
  line := by
    rw [text_taSet, hstash]
    exact List.take_of_length_le hlen
  stash hne := absurd rfl hne

theorem Browsing.taHistory (h : Browsing s t c) (hlen : s.taRly.text.length ≤ CAP - 2) (a : Arrow) :
    Browsing s (t.taHistory a.up) (browse s.history.length c a) := by
  unfold Pump.taHistory
  by_cases hnil : t.history = []
  · have hzero : s.history.length = 0 := by
      rw [← h.history, hnil]
      rfl
    rw [if_pos hnil]
    cases c with
    | none =>
      have hnone : browse s.history.length none a = none := if_neg fun hup => hup.2 hzero
      rw [hnone]
      exact h
    | some k =>
      have hk := h.range k rfl
      omega
  · have hpos : s.history.length ≠ 0 := by
      rw [← h.history]
      exact fun hlength => hnil (List.length_eq_zero_iff.mp hlength)
    have hlength : t.history.length = s.history.length := congrArg List.length h.history
    rw [if_neg hnil, h.hist]
    cases c with
    | none =>
      cases hup : a.up with
      | false =>
        have hnone : browse s.history.length none a = none := by
          simp [browse, hup]
        rw [hnone]
        exact h
      | true =>
        have hsome : browse s.history.length none a = some (s.history.length - 1) :=
          if_pos ⟨hup, hpos⟩
        rw [hsome, ← hlength]
        exact h.put (by omega) h.line
    | some k =>
      have hk := h.range k rfl
      have hstash := h.stash (by simp)
      dsimp only
      cases hup : a.up with
      | true =>
        have hsome : browse s.history.length (some k) a = some (k - 1) := if_pos hup
        rw [if_pos rfl, hsome]
        exact h.put (by omega) hstash
      | false =>
        have hdown : browse s.history.length (some k) a =
            if k + 1 < s.history.length then some (k + 1) else none := if_neg (by simp [hup])
        rw [if_neg (by decide), hdown, hlength]
        by_cases hlast : s.history.length ≤ k + 1
        · rw [if_pos hlast, if_neg (Nat.not_lt.mpr hlast)]
          exact h.back hlen hstash
        · rw [if_neg hlast, if_pos (Nat.lt_of_not_le hlast)]
          exact h.put (by omega) hstash

theorem Browsing.arrows (h : Browsing s t c) (hlen : s.taRly.text.length ≤ CAP - 2)
    (ks : List Arrow) :
    Browsing s (typeAheadReader.final t (ks.flatMap Arrow.bytes))
      (ks.foldl (browse s.history.length) c) := by
  induction ks generalizing t c with
  | nil => exact h
  | cons a ks ih =>
    rw [List.flatMap_cons, Transducer.final_append, typeAheadReader_arrow h.esc]
    exact ih (h.taHistory hlen a)

/-- After any of the keys the cursor is in the list or below it, and the line shows what it is at;
and Enter queues the line, which is one command line. -/
def Browses (s : Pump) (ks : List Arrow) (e : UInt8) : Prop :=
  (∀ ks', ks' <+: ks →
    let t := typeAheadReader.final s (ks'.flatMap Arrow.bytes)
    (∀ h, t.taHist = some h → h < s.history.length) ∧
      t.taRly.text = shown s.history s.taRly.text t.taHist) ∧
  let t := typeAheadReader.final s (ks.flatMap Arrow.bytes)
  (typeAheadReader.final t [e]).ibuffer = (t.ibuffer.stuffAll t.taRly.text).stuffAll [0x0a] ∧
    0x0a ∉ t.taRly.text

/-- Browsing is reversible, and Enter ends one command line if and only if the entry that is shown
holds no newline. -/
theorem browses_iff {ks : List Arrow} {e : UInt8} (hesc : s.taEsc = .normal)
    (hhist : s.taHist = none) (hlen : s.taRly.text.length ≤ CAP - 2) (htyped : 0x0a ∉ s.taRly.text)
    (he : e = 0x0d ∨ e = 0x0a) :
    s.Browses ks e ↔ ∀ h, cursor s.history.length ks = some h →
      0x0a ∉ (s.history.getD h []).take (CAP - 2) := by
  have hstart : Browsing s s none :=
    ⟨hesc, rfl, rfl, hhist, nofun, rfl, fun hne => absurd rfl hne⟩
  have hend := hstart.arrows hlen ks
  have henter := typeAheadChar_enter hend.esc he
  have hqueue := congrArg (fun x : Pump × List Out => x.1.ibuffer) henter
  have hline : 0x0a ∉ (typeAheadReader.final s (ks.flatMap Arrow.bytes)).taRly.text ↔
      ∀ h, cursor s.history.length ks = some h →
        0x0a ∉ (s.history.getD h []).take (CAP - 2) := by
    rw [hend.line]
    change 0x0a ∉ shown s.history s.taRly.text (cursor s.history.length ks) ↔ _
    cases cursor s.history.length ks with
    | none => exact iff_of_true htyped fun _ hk => by cases hk
    | some k => exact ⟨fun hno h hk => Option.some.inj hk ▸ hno, fun hall => hall k rfl⟩
  rw [← hline]
  refine ⟨fun h => h.2.2, fun hno => ⟨fun ks' _ => ?_, hqueue, hno⟩⟩
  have hkeys := hstart.arrows hlen ks'
  refine ⟨fun h hh => hkeys.range h (hkeys.hist.symm.trans hh), ?_⟩
  rw [hkeys.line, hkeys.hist]

/-- A task in line mode during an episode, with one entry in the history. -/
def withHistory (entry : List UInt8) : Pump := { oneTask true with history := [entry] }

theorem browses_iff_ls :
    (withHistory [0x6c, 0x73]).Browses [⟨true, false⟩] 0x0d ↔
      ∀ h, cursor (withHistory [0x6c, 0x73]).history.length [⟨true, false⟩] = some h →
        0x0a ∉ ((withHistory [0x6c, 0x73]).history.getD h []).take (CAP - 2) :=
  browses_iff rfl rfl (by decide) (by decide) (Or.inl rfl)

/-- The entry `a`, newline, `b`: Up and Enter queue two command lines. -/
theorem multiline_entry : ¬(withHistory [0x61, 0x0a, 0x62]).Browses [⟨true, false⟩] 0x0d := by
  intro h
  exact h.2.2 (by decide)

end Pump

end Basht.Keyboard
