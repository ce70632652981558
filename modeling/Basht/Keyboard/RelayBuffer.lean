import Basht.Keyboard.TypeAhead

/-!
# The buffer of a relay

`relay_prefix` and `relay_chars` on the line buffer of the relay as it is in memory: one array
with the task's prompt in front (`fix` bytes) and the typed text behind it. Its steps do what the
relay of `Basht.Keyboard.Relay` does (`Holds`). What Enter ships is then what has been typed
(`relay_ships`).
-/

namespace Basht.Keyboard

open Basht.Filter Basht.Tasks

/-- `struct basht_linebuf`, the fields that a relay uses. -/
structure RelayBuf where
  data : Buffer UInt8 CAP
  len : Nat
  cur : Nat
  fix : Nat
  esc : Esc

/-- What `relay_chars` does besides changing the relay; a write is one call of
`basht_write_all`. -/
inductive RelayOut where
  | write (bytes : List UInt8)
  | signal (pid : Int32) (sig : Sig)
  | cycle (d : Dir)
deriving DecidableEq

namespace RelayBuf

/-- `memset` to zero. -/
def zeroed : RelayBuf := ⟨Buffer.fill CAP 0, 0, 0, 0, .normal⟩

/-- The partial line of the task that `relay_prefix` copies. -/
def source (sl : Slot) : Option (List UInt8) :=
  if sl.out ≠ [] then some sl.out else if sl.err ≠ [] then some sl.err else none

/-- `relay_prefix`. -/
def relayPrefix (sl : Slot) (b : RelayBuf) : Except StoreFault RelayBuf :=
  if 0 < b.len ∨ 0 < b.fix then .ok b
  else
    match source sl with
    | none => .ok b
    | some src =>
      let n := if CAP / 2 < src.length then CAP / 2 else src.length
      match b.data.write 0 (src.take n) with
      | .error e => .error e
      | .ok data => .ok { b with data := data, len := n, cur := n, fix := n }

/-- The end of the task's pending line at Enter. -/
def completeLine (sl : Slot) : Slot :=
  if sl.out ≠ [] then { sl with out := [] }
  else if sl.err ≠ [] then { sl with err := [] }
  else sl

/-- The newline and the write of Enter. -/
def ship (sl : Slot) (b : RelayBuf) : Except StoreFault (RelayBuf × List RelayOut) :=
  match sl.keyFd with
  | none => .ok (b, [])
  | some _ =>
    match b.data.write b.len [0x0a] with
    | .error e => .error e
    | .ok data => .ok ({ b with data := data }, [.write (data.slice b.fix (b.len - b.fix + 1))])

/-- Enter in `relay_chars`. -/
def relayEnter (sl : Slot) (b : RelayBuf) :
    Except StoreFault ((Slot × RelayBuf) × List RelayOut) := do
  let b ← b.relayPrefix sl
  let (b, out) ← b.ship sl
  return ((completeLine sl, { b with len := 0, cur := 0, fix := 0 }), out)

/-- Backspace in `relay_chars`. -/
def relayErase (b : RelayBuf) : RelayBuf :=
  if b.fix < b.len then { b with len := b.len - 1, cur := b.len - 1 } else b

/-- A printable character in `relay_chars`. -/
def relayType (sl : Slot) (b : RelayBuf) (c : UInt8) : Except StoreFault RelayBuf := do
  let b ← b.relayPrefix sl
  if b.len < CAP - 2 then
    match b.data.write b.len [c] with
    | .error e => .error e
    | .ok data => .ok { b with data := data, len := b.len + 1, cur := b.len + 1 }
  else .ok b

/-- The writes to the descriptor of `cap_key_fd`. -/
def toTask (sl : Slot) (bytes : List UInt8) : List RelayOut :=
  if sl.keyFd.isSome then [.write bytes] else []

/-- The key in `relay_chars`, when `key_escape` leaves it alone. -/
def relayKey (sl : Slot) (b : RelayBuf) (c : UInt8) :
    Except StoreFault ((Slot × RelayBuf) × List RelayOut) :=
  if c = 0x03 ∨ c = 0x1a then
    if sl.signalsHere then .ok ((sl, b), [.signal sl.cap.pid (sigOf c)])
    else .ok ((sl, b), toTask sl [c])
  else if c = 0x04 then .ok ((sl, b), toTask sl [c])
  else if c = 0x0d ∨ c = 0x0a then b.relayEnter sl
  else if c = 0x7f ∨ c = 0x08 then .ok ((sl, b.relayErase), [])
  else if c = 0x09 ∨ 0x20 ≤ c then (b.relayType sl c).map fun b => ((sl, b), [])
  else .ok ((sl, b), [])

/-- The body of the loop of `relay_chars`. -/
def relayChar (cycles : Bool) (s : Slot × RelayBuf) (c : UInt8) :
    Except StoreFault ((Slot × RelayBuf) × List RelayOut) :=
  let e := keyEscape cycles s.2.esc c
  let b := { s.2 with esc := e.1 }
  match e.2 with
  | .none => b.relayKey s.1 c
  | .eat | .up | .down => .ok ((s.1, b), [])
  | .cycle d => .ok ((s.1, b), [.cycle d])

/-- What happens to a relay: a call of `relay_chars`, or a change of the task's partial lines. -/
inductive Event where
  | chars (buf : List UInt8)
  | partials (out err : List UInt8)

def event (cycles : Bool) (s : Slot × RelayBuf) :
    Event → Except StoreFault ((Slot × RelayBuf) × List RelayOut)
  | .chars buf => Fallible.exec (relayChar cycles) s buf
  | .partials out err => .ok (({ s.1 with out := out, err := err }, s.2), [])

/-! ## The relay as a prefix and a typed text -/

variable {b b' : RelayBuf} {r : Relay} {sl : Slot} {c : UInt8}

/-- The buffer holds the line of the relay `r`. -/
structure Holds (b : RelayBuf) (r : Relay) : Prop where
  fix : b.fix = r.fix.length
  len : b.len = r.text.length
  cur : b.cur = b.len
  text : b.data.upTo b.len = r.text
  esc : b.esc = r.esc
  prompt : b.fix ≤ CAP / 2
  room : b.len ≤ CAP - 2

theorem Holds.started_iff (h : Holds b r) : 0 < b.len ∨ 0 < b.fix ↔ r.text ≠ [] := by
  have hle : r.fix.length ≤ r.text.length := by
    rw [Relay.text, List.length_append]
    exact Nat.le_add_right _ _
  rw [h.fix, h.len, Ne, ← List.length_eq_zero_iff]
  omega

theorem holds_zeroed : Holds zeroed .zeroed :=
  ⟨rfl, rfl, rfl, rfl, rfl, Nat.zero_le _, Nat.zero_le _⟩

theorem source_eq (sl : Slot) (r : Relay) (h : r.text = []) :
    Keyboard.relayPrefix sl r = match source sl with
      | none => r
      | some src => { r with fix := src.take (CAP / 2), typed := [] } := by
  unfold Keyboard.relayPrefix source
  rw [if_neg (not_not.mpr h)]
  split
  · rfl
  · split <;> rfl

/-- The prompt of the task is put in front of an empty line only. -/
theorem Holds.relayPrefix (h : Holds b r) (sl : Slot) :
    ∃ b', b.relayPrefix sl = .ok b' ∧ Holds b' (Keyboard.relayPrefix sl r) := by
  unfold RelayBuf.relayPrefix
  by_cases hstart : 0 < b.len ∨ 0 < b.fix
  · refine ⟨b, if_pos hstart, ?_⟩
    rw [Keyboard.relayPrefix, if_pos (h.started_iff.mp hstart)]
    exact h
  · have htext : r.text = [] := not_not.mp (mt h.started_iff.mpr hstart)
    rw [if_neg hstart, source_eq sl r htext]
    cases source sl with
    | none => exact ⟨b, rfl, h⟩
    | some src =>
      have hn : (if CAP / 2 < src.length then CAP / 2 else src.length) =
          (src.take (CAP / 2)).length := by
        rw [List.length_take]
        split <;> omega
      have htake : src.take (if CAP / 2 < src.length then CAP / 2 else src.length) =
          src.take (CAP / 2) := by
        split
        · rfl
        · rw [List.take_length, List.take_of_length_le (by omega)]
      have hle : (src.take (CAP / 2)).length ≤ CAP / 2 := List.length_take_le ..
      have hfit : 0 + (src.take (CAP / 2)).length ≤ CAP := by
        rw [Nat.zero_add]
        exact Nat.le_trans hle (by decide)
      have happend := Buffer.upTo_append b.data hfit
      rw [Nat.zero_add] at happend
      refine ⟨_, by dsimp only; rw [htake, Buffer.write_of_le b.data hfit], ?_⟩
      dsimp only
      rw [hn]
      refine ⟨rfl, ?_, rfl, ?_, h.esc, hle, Nat.le_trans hle (by decide)⟩
      · rw [Relay.text, List.append_nil]
      · rw [Relay.text, List.append_nil]
        exact happend

/-- The relay after a printable character. -/
def typed (sl : Slot) (r : Relay) (c : UInt8) : Relay :=
  let v := Keyboard.relayPrefix sl r
  if v.text.length < CAP - 2 then { v with typed := v.typed ++ [c] } else v

/-- The relay after backspace. -/
def erased (r : Relay) : Relay := { r with typed := r.typed.dropLast }

/-- The relay after Enter. -/
def entered (sl : Slot) (r : Relay) : Relay :=
  { Keyboard.relayPrefix sl r with fix := [], typed := [] }

theorem Holds.relayType (h : Holds b r) (sl : Slot) (c : UInt8) :
    ∃ b', b.relayType sl c = .ok b' ∧ Holds b' (typed sl r c) := by
  obtain ⟨b₁, hprefix, h₁⟩ := h.relayPrefix sl
  have hbind : b.relayType sl c = if b₁.len < CAP - 2 then
      match b₁.data.write b₁.len [c] with
      | .error e => .error e
      | .ok data => .ok { b₁ with data := data, len := b₁.len + 1, cur := b₁.len + 1 }
      else .ok b₁ := by
    rw [RelayBuf.relayType, hprefix]
    rfl
  rw [hbind]
  unfold typed
  by_cases hroom : b₁.len < CAP - 2
  · have hfit : b₁.len + [c].length ≤ CAP := Nat.le_trans hroom (by decide)
    rw [if_pos hroom, Buffer.write_of_le _ hfit]
    dsimp only
    rw [if_pos (h₁.len ▸ hroom)]
    refine ⟨_, rfl, h₁.fix, ?_, rfl, ?_, h₁.esc, h₁.prompt, hroom⟩
    · simp only [Relay.text, List.length_append, List.length_singleton, h₁.len, Nat.add_assoc]
    · refine (Buffer.upTo_append b₁.data hfit).trans ?_
      rw [h₁.text, Relay.text, Relay.text, List.append_assoc]
  · rw [if_neg hroom]
    dsimp only
    rw [if_neg (h₁.len ▸ hroom)]
    exact ⟨b₁, rfl, h₁⟩

theorem Holds.relayErase (h : Holds b r) : Holds b.relayErase (erased r) := by
  unfold RelayBuf.relayErase erased
  have hlen : b.len = r.fix.length + r.typed.length := h.len.trans List.length_append
  by_cases hsome : b.fix < b.len
  · have hne : r.typed ≠ [] := by
      intro hnil
      rw [hnil, List.length_nil, ← h.fix] at hlen
      omega
    have hpos : 0 < r.typed.length := List.length_pos_iff.mpr hne
    rw [if_pos hsome]
    refine ⟨h.fix, ?_, rfl, ?_, h.esc, h.prompt, Nat.le_trans (Nat.sub_le _ _) h.room⟩
    · change b.len - 1 = (r.fix ++ r.typed.dropLast).length
      rw [List.length_append, List.length_dropLast, hlen]
      omega
    · have htake := Buffer.take_upTo b.data (Nat.sub_le b.len 1)
      refine htake.symm.trans ?_
      rw [h.text, h.len, ← List.dropLast_eq_take, Relay.text, Relay.text]
      exact List.dropLast_append_of_ne_nil hne
  · have hnil : r.typed = [] := by
      rw [← List.length_eq_zero_iff]
      have hfix := h.fix
      omega
    rw [if_neg hsome, hnil, List.dropLast_nil, ← hnil]
    exact h

theorem Holds.relayEnter (h : Holds b r) (hfd : sl.keyFd.isSome) :
    ∃ b', b.relayEnter sl = .ok ((completeLine sl, b'),
      [.write ((Keyboard.relayPrefix sl r).typed ++ [0x0a])]) ∧ Holds b' (entered sl r) := by
  obtain ⟨b₁, hprefix, h₁⟩ := h.relayPrefix sl
  have hfit : b₁.len + [(0x0a : UInt8)].length ≤ CAP :=
    Nat.le_trans (Nat.add_le_add_right h₁.room 1) (by decide)
  have hle : b₁.fix ≤ b₁.len := by
    rw [h₁.fix, h₁.len, Relay.text, List.length_append]
    exact Nat.le_add_right _ _
  have hship : (b₁.data.overwrite b₁.len [0x0a] hfit).slice b₁.fix (b₁.len - b₁.fix + 1) =
      (Keyboard.relayPrefix sl r).typed ++ [0x0a] := by
    have hsum : b₁.fix + (b₁.len - b₁.fix + 1) = b₁.len + [(0x0a : UInt8)].length := by
      rw [List.length_singleton]
      omega
    rw [Buffer.slice_eq, hsum, Buffer.upTo_append, h₁.text, Relay.text, List.append_assoc, h₁.fix]
    exact List.drop_left ..
  obtain ⟨p, hp⟩ := Option.isSome_iff_exists.mp hfd
  have hbuf : b₁.ship sl = .ok ({ b₁ with data := b₁.data.overwrite b₁.len [0x0a] hfit },
      [.write ((Keyboard.relayPrefix sl r).typed ++ [0x0a])]) := by
    rw [ship, hp]
    dsimp only
    rw [Buffer.write_of_le _ hfit, ← hship]
  refine ⟨{ b₁ with data := b₁.data.overwrite b₁.len [0x0a] hfit, len := 0, cur := 0, fix := 0 },
    ?_, rfl, rfl, rfl, rfl, h₁.esc, Nat.zero_le _, Nat.zero_le _⟩
  rw [RelayBuf.relayEnter, hprefix]
  change (b₁.ship sl >>= _) = _
  rw [hbuf]
  rfl

/-! ## What Enter ships -/

/-- Printable bytes, TAB, backspace and Enter. -/
def IsKey (c : UInt8) : Prop := c = 0x08 ∨ c = 0x09 ∨ c = 0x0a ∨ c = 0x0d ∨ 0x20 ≤ c

instance (c : UInt8) : Decidable (IsKey c) := inferInstanceAs (Decidable (_ ∨ _ ∨ _ ∨ _ ∨ _))

/-- What has been typed since Enter: the line that backspace edits, all the characters, and
whether the line has been short enough throughout. -/
structure Pending where
  line : List UInt8
  chars : List UInt8
  short : Bool

namespace Pending

def empty : Pending := ⟨[], [], true⟩

/-- The keys that `relay_chars` reads; Enter emits what it ends. -/
def key (p : Pending) (c : UInt8) : Pending × List Pending :=
  if c = 0x0d ∨ c = 0x0a then (empty, [p])
  else if c = 0x7f ∨ c = 0x08 then ({ p with line := p.line.dropLast }, [])
  else
    (⟨p.line ++ [c], p.chars ++ [c], p.short && decide (p.line.length + 1 ≤ CAP / 2 - 2)⟩, [])

def keys : Transducer Pending UInt8 Pending where
  step := key

/-- The write of Enter: the line, if it has been short enough, and otherwise some of the
characters. -/
def Shipped (p : Pending) (o : RelayOut) : Prop :=
  ∃ l, o = .write (l ++ [0x0a]) ∧ l.Sublist p.chars ∧ (p.short = true → l = p.line)

end Pending

/-- The relay has what has been typed. -/
structure Kept (s : Slot × RelayBuf) (r : Relay) (p : Pending) : Prop where
  holds : Holds s.2 r
  esc : r.esc = .normal
  keyFd : s.1.keyFd.isSome
  sublist : r.typed.Sublist p.chars
  typed : p.short = true → r.typed = p.line

theorem relayChar_key {cycles : Bool} {s : Slot × RelayBuf} (hesc : s.2.esc = .normal)
    (hc : c ≠ 0x1b) : relayChar cycles s c = s.2.relayKey s.1 c := by
  have hself : { s.2 with esc := .normal } = s.2 := by
    rw [← hesc]
  have hscan : keyEscape cycles s.2.esc c = (.normal, .none) := by
    rw [hesc]
    exact if_neg hc
  unfold relayChar
  rw [hscan]
  simp only [hself]

theorem IsKey.ne_esc (h : IsKey c) : c ≠ 0x1b := by
  rintro rfl
  exact absurd h (by decide)

theorem IsKey.printable (h : IsKey c) (henter : ¬(c = 0x0d ∨ c = 0x0a))
    (herase : ¬(c = 0x7f ∨ c = 0x08)) : c = 0x09 ∨ 0x20 ≤ c ∧ c ≠ 0x7f := by
  rcases h with h | h | h | h | h
  · exact absurd (Or.inr h) herase
  · exact Or.inl h
  · exact absurd (Or.inr h) henter
  · exact absurd (Or.inl h) henter
  · exact Or.inr ⟨h, fun heq => herase (Or.inl heq)⟩

theorem completeLine_keyFd (sl : Slot) : (completeLine sl).keyFd = sl.keyFd := by
  unfold completeLine
  split
  · rfl
  · split <;> rfl

theorem Kept.relayType {s : Slot × RelayBuf} {p : Pending} (h : Kept s r p) {b' : RelayBuf}
    (hb : Holds b' (RelayBuf.typed s.1 r c)) :
    Kept (s.1, b') (RelayBuf.typed s.1 r c) ⟨p.line ++ [c], p.chars ++ [c],
      p.short && decide (p.line.length + 1 ≤ CAP / 2 - 2)⟩ := by
  have htyped := relayPrefix_typed s.1 r
  have hesc : (RelayBuf.typed s.1 r c).esc = .normal := by
    unfold RelayBuf.typed
    dsimp only
    split <;> exact (relayPrefix_esc s.1 r).trans h.esc
  refine ⟨hb, hesc, h.keyFd, ?_, fun hshort => ?_⟩
  · unfold RelayBuf.typed
    dsimp only
    split
    · exact htyped ▸ h.sublist.append (.refl _)
    · exact htyped ▸ h.sublist.trans (List.sublist_append_left ..)
  · rw [Bool.and_eq_true, decide_eq_true_eq] at hshort
    have hline := h.typed hshort.1
    -- a prompt of at most half the buffer leaves room for half a buffer of text
    have hprompt : (Keyboard.relayPrefix s.1 r).fix.length ≤ CAP / 2 := by
      obtain ⟨b₁, -, h₁⟩ := h.holds.relayPrefix s.1
      exact h₁.fix ▸ h₁.prompt
    have hroom : (Keyboard.relayPrefix s.1 r).text.length < CAP - 2 := by
      have hcap : CAP = 8192 := rfl
      rw [Relay.text, List.length_append, htyped, hline]
      omega
    unfold RelayBuf.typed
    dsimp only
    rw [if_pos hroom, htyped, hline]

/-- A key does to the relay what it does to the pending line. -/
theorem Kept.step (cycles : Bool) {s : Slot × RelayBuf} {p : Pending} (h : Kept s r p)
    (hc : IsKey c) :
    ∃ s' r' outs, relayChar cycles s c = .ok (s', outs) ∧ Kept s' r' (p.key c).1 ∧
      List.Forall₂ Pending.Shipped (p.key c).2 outs ∧
      (r.text ≠ [] → ¬(c = 0x0d ∨ c = 0x0a) → r'.fix = r.fix) := by
  rw [relayChar_key (h.holds.esc.trans h.esc) hc.ne_esc, relayKey]
  have hsignal : ¬(c = 0x03 ∨ c = 0x1a) := by
    rintro (rfl | rfl) <;> exact absurd hc (by decide)
  have hend : c ≠ 0x04 := by
    rintro rfl
    exact absurd hc (by decide)
  rw [if_neg hsignal, if_neg hend, Pending.key]
  by_cases henter : c = 0x0d ∨ c = 0x0a
  · rw [if_pos henter, if_pos henter]
    obtain ⟨b', hrun, hb'⟩ := h.holds.relayEnter h.keyFd
    refine ⟨_, entered s.1 r, _, hrun, ⟨hb', (relayPrefix_esc s.1 r).trans h.esc,
      (completeLine_keyFd s.1).symm ▸ h.keyFd, List.Sublist.refl _, fun _ => rfl⟩,
      .cons ⟨_, rfl, ?_, fun hshort => ?_⟩ .nil, fun _ hno => absurd henter hno⟩
    · exact relayPrefix_typed s.1 r ▸ h.sublist
    · exact (relayPrefix_typed s.1 r).trans (h.typed hshort)
  · rw [if_neg henter, if_neg henter]
    by_cases herase : c = 0x7f ∨ c = 0x08
    · rw [if_pos herase, if_pos herase]
      refine ⟨_, erased r, _, rfl, ⟨h.holds.relayErase, h.esc, h.keyFd, ?_, fun hshort => ?_⟩,
        .nil, fun _ _ => rfl⟩
      · exact (List.dropLast_sublist _).trans h.sublist
      · exact congrArg List.dropLast (h.typed hshort)
    · obtain ⟨b', hrun, hb'⟩ := h.holds.relayType s.1 c
      rw [if_neg herase, if_neg herase, if_pos (printable (hc.printable henter herase)).typed, hrun]
      refine ⟨_, RelayBuf.typed s.1 r c, _, rfl, h.relayType hb', .nil, fun hstart _ => ?_⟩
      unfold RelayBuf.typed Keyboard.relayPrefix
      dsimp only
      rw [if_pos hstart]
      split <;> rfl

theorem Kept.chars {cycles : Bool} {buf : List UInt8} (hbuf : ∀ c ∈ buf, IsKey c)
    {s : Slot × RelayBuf} {r : Relay} {p : Pending} (h : Kept s r p) :
    ∃ s' r' outs, Fallible.exec (relayChar cycles) s buf = .ok (s', outs) ∧
      Kept s' r' (Pending.keys.final p buf) ∧
      List.Forall₂ Pending.Shipped (Pending.keys.output p buf) outs := by
  induction buf generalizing s r p with
  | nil => exact ⟨s, r, [], rfl, h, .nil⟩
  | cons c buf ih =>
    obtain ⟨s₁, r₁, outs₁, hstep, h₁, hship₁, -⟩ := h.step cycles (hbuf c (by simp))
    obtain ⟨s', r', outs, hrun, h', hship⟩ := ih (fun d hd => hbuf d (List.mem_cons_of_mem _ hd)) h₁
    exact ⟨s', r', outs₁ ++ outs,
      Fallible.andThen_eq_ok.mpr ⟨s₁, outs₁, s', outs, hstep, hrun, rfl⟩, h',
      List.rel_append hship₁ hship⟩

/-- The bytes that are read, in order. -/
def Event.bytes : Event → List UInt8
  | .chars buf => buf
  | .partials _ _ => []

theorem Kept.events (cycles : Bool) {es : List Event} (hes : ∀ e ∈ es, ∀ c ∈ e.bytes, IsKey c)
    {s : Slot × RelayBuf} {r : Relay} {p : Pending} (h : Kept s r p) :
    ∃ s' r' outs, Fallible.exec (event cycles) s es = .ok (s', outs) ∧
      Kept s' r' (Pending.keys.final p (es.flatMap Event.bytes)) ∧
      List.Forall₂ Pending.Shipped (Pending.keys.output p (es.flatMap Event.bytes)) outs := by
  induction es generalizing s r p with
  | nil => exact ⟨s, r, [], rfl, h, .nil⟩
  | cons e es ih =>
    have hstep : ∃ s₁ r₁ outs₁, event cycles s e = .ok (s₁, outs₁) ∧
        Kept s₁ r₁ (Pending.keys.final p e.bytes) ∧
        List.Forall₂ Pending.Shipped (Pending.keys.output p e.bytes) outs₁ := by
      cases e with
      | chars buf => exact h.chars (hes (.chars buf) (by simp))
      | partials out err =>
        exact ⟨_, r, [], rfl, ⟨h.holds, h.esc, h.keyFd, h.sublist, h.typed⟩, .nil⟩
    obtain ⟨s₁, r₁, outs₁, hrun₁, h₁, hship₁⟩ := hstep
    obtain ⟨s', r', outs, hrun, h', hship⟩ :=
      ih (fun e he => hes e (List.mem_cons_of_mem _ he)) h₁
    refine ⟨s', r', outs₁ ++ outs,
      Fallible.andThen_eq_ok.mpr ⟨s₁, outs₁, s', outs, hrun₁, hrun, rfl⟩, ?_, ?_⟩
    · rw [List.flatMap_cons, Transducer.final_append]
      exact h'
    · rw [List.flatMap_cons, Transducer.output_append]
      exact List.rel_append hship₁ hship

/-- A relay on which no line has been started. -/
def Idle (b : RelayBuf) : Prop := b.len = 0 ∧ b.cur = 0 ∧ b.fix = 0 ∧ b.esc = .normal

theorem Idle.kept {s : Slot × RelayBuf} (h : Idle s.2) (hfd : s.1.keyFd.isSome) :
    Kept s .zeroed .empty := by
  obtain ⟨hlen, hcur, hfix, hesc⟩ := h
  refine ⟨⟨hfix, hlen, hcur.trans hlen.symm, ?_, hesc, ?_, ?_⟩, rfl, hfd, .refl _, fun _ => rfl⟩
  · rw [hlen]
    rfl
  · rw [hfix]
    exact Nat.zero_le _
  · rw [hlen]
    exact Nat.zero_le _

theorem Holds.upTo_fix (h : Holds b r) : b.data.upTo b.fix = r.fix := by
  have hle : b.fix ≤ b.len := by
    rw [h.fix, h.len, Relay.text, List.length_append]
    exact Nat.le_add_right _ _
  rw [← Buffer.take_upTo b.data hle, h.text, Relay.text, h.fix]
  exact List.take_left ..

/-- Whatever is typed, in whatever portions, and however the task's partial lines change: no
store leaves the buffer, each Enter ships the line that has been typed, and the prompt in front
of a line that has been started stays as it is. -/
theorem relay_ships {cycles : Bool} {s : Slot × RelayBuf} (hfd : s.1.keyFd.isSome)
    (hidle : Idle s.2) {es : List Event} (hes : ∀ e ∈ es, ∀ c ∈ e.bytes, IsKey c) :
    ∃ t outs, Fallible.exec (event cycles) s es = .ok (t, outs) ∧
      List.Forall₂ Pending.Shipped (Pending.keys.output .empty (es.flatMap Event.bytes)) outs ∧
      t.2.fix ≤ t.2.len ∧ t.2.len ≤ CAP - 2 ∧
      ∀ c, IsKey c → ¬(c = 0x0d ∨ c = 0x0a) → 0 < t.2.len →
        ∃ t', relayChar cycles t c = .ok (t', []) ∧ t'.2.fix = t.2.fix ∧
          t'.2.data.upTo t'.2.fix = t.2.data.upTo t.2.fix := by
  obtain ⟨t, r, outs, hrun, h, hship⟩ := (hidle.kept hfd).events cycles hes
  refine ⟨t, outs, hrun, hship, ?_, h.holds.room, fun c hc henter hlen => ?_⟩
  · rw [h.holds.fix, h.holds.len, Relay.text, List.length_append]
    exact Nat.le_add_right _ _
  · obtain ⟨t', r', outs', hstep, h', hout, hfix⟩ := h.step cycles hc
    have hsame : r'.fix = r.fix := hfix (h.holds.started_iff.mp (Or.inl hlen)) henter
    have hnil : outs' = [] := by
      rw [Pending.key, if_neg henter] at hout
      split at hout
      · exact List.forall₂_nil_left_iff.mp hout
      · exact List.forall₂_nil_left_iff.mp hout
    refine ⟨t', hnil ▸ hstep, ?_, ?_⟩
    · rw [h'.holds.fix, hsame, h.holds.fix]
    · rw [h'.holds.upTo_fix, hsame, h.holds.upTo_fix]

/-- A task that reads its keyboard in line mode. -/
def reader : Slot := (Pump.oneTask true).slots 0

theorem relay_ships_prompted : ∃ t outs,
    Fallible.exec (event true) (reader, zeroed)
      [.chars [0x61], .partials [0x3e] [], .chars [0x62, 0x7f, 0x0d, 0x63]] = .ok (t, outs) ∧
      List.Forall₂ Pending.Shipped
        (Pending.keys.output .empty ([0x61] ++ ([] ++ ([0x62, 0x7f, 0x0d, 0x63] ++ [])))) outs ∧
      t.2.fix ≤ t.2.len ∧ t.2.len ≤ CAP - 2 ∧
      ∀ c, IsKey c → ¬(c = 0x0d ∨ c = 0x0a) → 0 < t.2.len →
        ∃ t', relayChar true t c = .ok (t', []) ∧ t'.2.fix = t.2.fix ∧
          t'.2.data.upTo t'.2.fix = t.2.data.upTo t.2.fix :=
  relay_ships (s := (reader, zeroed)) (by decide) ⟨rfl, rfl, rfl, rfl⟩
    (by decide +kernel)

end RelayBuf

end Basht.Keyboard
