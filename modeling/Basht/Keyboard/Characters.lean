import Basht.Keyboard.RelayBuffer
import Basht.Library.Utf8

/-!
# Backspace and characters

A key is a byte to `relay_chars` and to the type-ahead line of `basht_fg_pump`, and backspace
takes the last byte (`editByte`, in both copies of the code). A text that is typed is taken back
by a backspace for each character if and only if it is ASCII, and what Enter ships is valid
UTF-8 if and only if no character has been cut (`backspace_iff`).
-/

namespace Basht.Keyboard

open Basht.Filter Basht.Tasks Utf8

/-! ## The line editor -/

/-- The character is not a control key. -/
def Typeable (c : Char) : Prop := c.toNat = 0x09 ∨ 0x20 ≤ c.toNat ∧ c.toNat ≠ 0x7f

def IsPrintable (c : UInt8) : Prop := c = 0x09 ∨ 0x20 ≤ c ∧ c ≠ 0x7f

def IsErase (c : UInt8) : Prop := c = 0x7f ∨ c = 0x08

instance (c : UInt8) : Decidable (IsPrintable c) := inferInstanceAs (Decidable (_ ∨ _ ∧ _))

instance (c : UInt8) : Decidable (IsErase c) := inferInstanceAs (Decidable (_ ∨ _))

/-- A key on a line that has room. -/
def editByte (l : List UInt8) (c : UInt8) : List UInt8 :=
  if IsErase c then l.dropLast else l ++ [c]

def edited (l : List UInt8) (buf : List UInt8) : List UInt8 := buf.foldl editByte l

/-- A character or a backspace. -/
inductive Stroke where
  | char (c : Char) (h : Typeable c)
  | erase (c : UInt8) (h : IsErase c)

namespace Stroke

def bytes : Stroke → List UInt8
  | char c _ => String.utf8EncodeChar c
  | erase c _ => [c]

/-- The characters of the line, of which backspace takes a byte. -/
def edit (ps : List Piece) : Stroke → List Piece
  | char c _ => ps ++ [Piece.whole c]
  | erase _ _ => dropByte ps

end Stroke

/-- No backspace has taken a part of a character and left a part of it. -/
def Uncut (ks : List Stroke) : Prop := ∀ p ∈ ks.foldl Stroke.edit [], p.Whole

instance (ks : List Stroke) : Decidable (Uncut ks) := inferInstanceAs (Decidable (∀ _ ∈ _, _))

/-- All characters are ASCII. -/
def Ascii (t : List Char) : Prop := ∀ c ∈ t, c.utf8Size = 1

instance (t : List Char) : Decidable (Ascii t) := inferInstanceAs (Decidable (∀ _ ∈ _, _))

theorem not_isErase {c : UInt8} (h : IsPrintable c) : ¬IsErase c := (printable h).not_erase

theorem printable_of_ge {n : Nat} (h : 0x80 ≤ n) (hlt : n < 256) :
    IsPrintable (UInt8.ofNat n) := by
  have hn : (UInt8.ofNat n).toNat = n := UInt8.toNat_ofNat_of_lt hlt
  refine Or.inr ⟨?_, fun heq => ?_⟩
  · rw [UInt8.le_iff_toNat_le, hn]
    exact Nat.le_trans (by decide) h
  · have h7f := congrArg UInt8.toNat heq
    rw [hn] at h7f
    change n = 127 at h7f
    omega

/-- The bytes of a character that can be typed are printable. -/
theorem printable_of_mem {c : Char} (h : Typeable c) {b : UInt8}
    (hb : b ∈ String.utf8EncodeChar c) : IsPrintable b := by
  have hbig : ∀ n, 0x80 ≤ n → n < 256 → b = UInt8.ofNat n → IsPrintable b := by
    rintro n hn hlt rfl
    exact printable_of_ge hn hlt
  have hv : c.toNat = c.val.toNat := rfl
  unfold String.utf8EncodeChar at hb
  dsimp only at hb
  split at hb
  · rename_i hle
    rw [List.mem_singleton] at hb
    have hn : (UInt8.ofNat c.val.toNat).toNat = c.toNat :=
      UInt8.toNat_ofNat_of_lt (Nat.lt_of_le_of_lt hle (by decide))
    rcases h with h | ⟨hlow, hne⟩
    · refine Or.inl ?_
      rw [hb, ← hv, h]
      rfl
    · refine Or.inr ⟨?_, fun heq => hne ?_⟩
      · rw [hb, UInt8.le_iff_toNat_le, hn]
        exact hlow
      · rw [← hn, ← hb, heq]
        rfl
  · split at hb
    · simp only [List.mem_cons, List.not_mem_nil, or_false] at hb
      rcases hb with hb | hb <;> exact hbig _ (by omega) (by omega) hb
    · split at hb
      · simp only [List.mem_cons, List.not_mem_nil, or_false] at hb
        rcases hb with hb | hb | hb <;> exact hbig _ (by omega) (by omega) hb
      · simp only [List.mem_cons, List.not_mem_nil, or_false] at hb
        rcases hb with hb | hb | hb | hb <;> exact hbig _ (by omega) (by omega) hb

theorem edited_append (l buf buf' : List UInt8) :
    edited l (buf ++ buf') = edited (edited l buf) buf' := List.foldl_append ..

theorem edited_printable {buf : List UInt8} (h : ∀ c ∈ buf, IsPrintable c) (l : List UInt8) :
    edited l buf = l ++ buf := by
  induction buf generalizing l with
  | nil => exact (List.append_nil l).symm
  | cons c buf ih =>
    obtain ⟨hc, hbuf⟩ := List.forall_mem_cons.mp h
    change edited (editByte l c) buf = l ++ c :: buf
    rw [ih hbuf, editByte, if_neg (not_isErase hc), List.append_assoc]
    rfl

theorem edited_erase {e : UInt8} (he : IsErase e) (k : Nat) (l : List UInt8) :
    edited l (List.replicate k e) = l.take (l.length - k) := by
  induction k generalizing l with
  | zero =>
    rw [Nat.sub_zero, List.take_length]
    rfl
  | succ k ih =>
    change edited (editByte l e) (List.replicate k e) = _
    rw [ih, editByte, if_pos he, List.length_dropLast, List.dropLast_eq_take, List.take_take,
      Nat.min_eq_left (Nat.sub_le _ _), Nat.sub_sub, Nat.add_comm 1 k]

theorem edited_strokes (ks : List Stroke) (ps : List Piece) :
    edited (bytesOf ps) (ks.flatMap Stroke.bytes) = bytesOf (ks.foldl Stroke.edit ps) := by
  induction ks generalizing ps with
  | nil => rfl
  | cons k ks ih =>
    have hstep : edited (bytesOf ps) k.bytes = bytesOf (k.edit ps) := by
      cases k with
      | char c hc =>
        rw [Stroke.bytes, edited_printable fun b hb => printable_of_mem hc hb]
        rw [Stroke.edit, bytesOf_append, bytesOf_cons, Piece.bytes_whole]
        exact congrArg _ (List.append_nil _).symm
      | erase c hc =>
        rw [Stroke.edit, bytesOf_dropByte]
        exact if_pos hc
    rw [List.flatMap_cons, edited_append, hstep, ih]
    rfl

/-- Whether a text can be taken back is a matter of lengths. -/
theorem edited_back_iff {t : List Char} (ht : ∀ c ∈ t, Typeable c) {e : UInt8} (he : IsErase e)
    (l : List UInt8) : edited l (encode t ++ List.replicate t.length e) = l ↔ Ascii t := by
  have hprint : ∀ b ∈ encode t, IsPrintable b := fun b hb => by
    obtain ⟨c, hc, hbc⟩ := List.mem_flatMap.mp hb
    exact printable_of_mem (ht c hc) hbc
  have hle := length_le_encode t
  rw [edited_append, edited_printable hprint, edited_erase he, Ascii, ← length_encode_eq_iff]
  constructor
  · intro heq
    have hlength := congrArg List.length heq
    rw [List.length_take, List.length_append] at hlength
    omega
  · intro heq
    rw [List.length_append, heq, Nat.add_sub_cancel, List.take_left]

/-- Whether the text of a line is valid is a matter of its pieces. -/
theorem edited_valid_iff (ks : List Stroke) :
    Valid (edited [] (ks.flatMap Stroke.bytes)) ↔ Uncut ks := by
  have hline := edited_strokes ks []
  rw [show edited [] (ks.flatMap Stroke.bytes) = bytesOf (ks.foldl Stroke.edit []) from hline]
  exact valid_iff

/-- The keys that edit a line. -/
def Edits (c : UInt8) : Prop := IsPrintable c ∨ IsErase c

instance (c : UInt8) : Decidable (Edits c) := inferInstanceAs (Decidable (_ ∨ _))

theorem Stroke.edits {k : Stroke} {c : UInt8} (h : c ∈ k.bytes) : Edits c := by
  cases k with
  | char d hd => exact Or.inl (printable_of_mem hd h)
  | erase d hd => exact Or.inr (List.mem_singleton.mp h ▸ hd)

/-! ## The line of a task -/

namespace RelayBuf

variable {cycles : Bool} {s : Slot × RelayBuf} {r : Relay} {c : UInt8}

/-- The text that has been typed. -/
def typedText (b : RelayBuf) : List UInt8 := b.data.slice b.fix (b.len - b.fix)

/-- A character finds room. -/
def FindsRoom (s : Slot × RelayBuf) (c : UInt8) : Prop :=
  IsPrintable c → ∀ b, s.2.relayPrefix s.1 = .ok b → b.len < CAP - 2

theorem Holds.typedText {b : RelayBuf} (h : Holds b r) : b.typedText = r.typed := by
  have hlen : b.fix + (b.len - b.fix) = b.len := by
    rw [h.fix, h.len, Relay.text, List.length_append]
    omega
  rw [RelayBuf.typedText, Buffer.slice_eq, hlen, h.text, Relay.text, h.fix]
  exact List.drop_left ..

theorem Holds.edit (cycles : Bool) (h : Holds s.2 r) (hesc : r.esc = .normal) (hc : Edits c)
    (hroom : FindsRoom s c) :
    ∃ b' r', relayChar cycles s c = .ok ((s.1, b'), []) ∧ Holds b' r' ∧ r'.esc = .normal ∧
      r'.typed = editByte r.typed c := by
  rcases hc with hc | hc
  · have hp := printable hc
    obtain ⟨b', hrun, hb'⟩ := h.relayType s.1 c
    obtain ⟨b₁, hprefix, h₁⟩ := h.relayPrefix s.1
    have hlt : (Keyboard.relayPrefix s.1 r).text.length < CAP - 2 := h₁.len ▸ hroom hc b₁ hprefix
    have htyped : RelayBuf.typed s.1 r c = { Keyboard.relayPrefix s.1 r with
        typed := (Keyboard.relayPrefix s.1 r).typed ++ [c] } := if_pos hlt
    rw [relayChar_key (h.esc.trans hesc) hp.not_escape, relayKey, if_neg hp.not_signal,
      if_neg hp.not_end, if_neg hp.not_enter, if_neg hp.not_erase, if_pos hp.typed, hrun]
    refine ⟨b', _, rfl, hb', ?_, ?_⟩
    · rw [htyped]
      exact (relayPrefix_esc s.1 r).trans hesc
    · rw [htyped, editByte, if_neg (not_isErase hc)]
      exact congrArg (· ++ [c]) (relayPrefix_typed s.1 r)
  · have hkey : relayChar cycles s c = .ok ((s.1, s.2.relayErase), []) := by
      rcases hc with rfl | rfl <;> exact relayChar_key (h.esc.trans hesc) (by decide)
    exact ⟨_, erased r, hkey, h.relayErase, hesc, (if_pos hc).symm⟩

/-- Half a buffer has room behind every prompt. -/
theorem Holds.meets_findsRoom {buf : List UInt8} (hbuf : ∀ c ∈ buf, Edits c) (h : Holds s.2 r)
    (hesc : r.esc = .normal) (hlength : r.typed.length + buf.length ≤ CAP / 2 - 2) :
    Fallible.Meets (relayChar cycles) FindsRoom s buf := by
  induction buf generalizing s r with
  | nil => trivial
  | cons c buf ih =>
    obtain ⟨hc, hrest⟩ := List.forall_mem_cons.mp hbuf
    rw [List.length_cons] at hlength
    have hroom : FindsRoom s c := by
      intro _ b hb
      obtain ⟨b₁, hprefix, h₁⟩ := h.relayPrefix s.1
      cases hprefix.symm.trans hb
      have hprompt := h₁.prompt
      have hcap : CAP = 8192 := rfl
      rw [h₁.len, Relay.text, List.length_append, relayPrefix_typed, ← h₁.fix]
      omega
    obtain ⟨b', r', hstep, h', hesc', htyped⟩ := h.edit cycles hesc hc hroom
    refine Fallible.Meets.cons hstep hroom (ih hrest h' hesc' ?_)
    have hgrow : (editByte r.typed c).length ≤ r.typed.length + 1 := by
      unfold editByte
      split
      · rw [List.length_dropLast]
        omega
      · exact Nat.le_of_eq List.length_append
    rw [htyped]
    omega

/-- What has been typed for a task is edited byte by byte. -/
theorem Holds.edits {buf : List UInt8} (hbuf : ∀ c ∈ buf, Edits c) (h : Holds s.2 r)
    (hesc : r.esc = .normal) (hroom : Fallible.Meets (relayChar cycles) FindsRoom s buf) :
    ∃ b' r', Fallible.exec (relayChar cycles) s buf = .ok ((s.1, b'), []) ∧ Holds b' r' ∧
      r'.esc = .normal ∧ r'.typed = edited r.typed buf := by
  induction buf generalizing s r with
  | nil => exact ⟨s.2, r, rfl, h, hesc, rfl⟩
  | cons c buf ih =>
    obtain ⟨hc, hrest⟩ := List.forall_mem_cons.mp hbuf
    obtain ⟨b₁, r₁, hstep, h₁, hesc₁, htyped₁⟩ := h.edit cycles hesc hc hroom.1
    obtain ⟨b', r', hrun, h', hesc', htyped⟩ := ih hrest h₁ hesc₁ (hroom.2 _ _ hstep)
    refine ⟨b', r', Fallible.andThen_eq_ok.mpr ⟨_, _, _, _, hstep, hrun, rfl⟩, h', hesc', ?_⟩
    rw [htyped, htyped₁]
    rfl

/-- The text, and then a backspace for each of its characters, leave the line as it was. -/
def Restores (cycles : Bool) (s : Slot × RelayBuf) (t : List Char) (e : UInt8) : Prop :=
  ∃ s', Fallible.exec (relayChar cycles) s (encode t ++ List.replicate t.length e) = .ok (s', []) ∧
    s'.2.typedText = s.2.typedText

theorem restores_iff {t : List Char} {e : UInt8} (h : Holds s.2 r) (hesc : r.esc = .normal)
    (ht : ∀ c ∈ t, Typeable c) (he : IsErase e)
    (hroom : Fallible.Meets (relayChar cycles) FindsRoom s (encode t)) :
    Restores cycles s t e ↔ Ascii t := by
  have htext : ∀ c ∈ encode t, Edits c := fun b hb => by
    obtain ⟨c, hc, hbc⟩ := List.mem_flatMap.mp hb
    exact Or.inl (printable_of_mem (ht c hc) hbc)
  have herase : ∀ c ∈ List.replicate t.length e, Edits c := fun b hb =>
    Or.inr (List.eq_of_mem_replicate hb ▸ he)
  obtain ⟨b₁, r₁, hrun₁, -⟩ := h.edits htext hesc hroom
  have hback : ∀ s, Fallible.Meets (relayChar cycles) FindsRoom s (List.replicate t.length e) :=
    Fallible.meets_of_forall _ fun s b hb hp =>
      absurd (List.eq_of_mem_replicate hb ▸ he) (not_isErase hp)
  obtain ⟨b', r', hrun, h', -, htyped⟩ := h.edits
    (List.forall_mem_append.mpr ⟨htext, herase⟩) hesc (hroom.append hrun₁ (hback _))
  rw [← edited_back_iff ht he r.typed, ← htyped, ← h'.typedText, ← h.typedText]
  constructor
  · rintro ⟨s', hrun', hsame⟩
    cases hrun.symm.trans hrun'
    exact hsame
  · intro hsame
    exact ⟨_, hrun, hsame⟩

/-- What Enter ships is valid UTF-8. -/
def ShipsValid (cycles : Bool) (s : Slot × RelayBuf) (ks : List Stroke) (e : UInt8) : Prop :=
  ∃ s' l, Fallible.exec (relayChar cycles) s (ks.flatMap Stroke.bytes ++ [e]) =
    .ok (s', [.write (l ++ [0x0a])]) ∧ Valid l

theorem shipsValid_iff {ks : List Stroke} {e : UInt8} (hidle : Idle s.2) (hfd : s.1.keyFd.isSome)
    (he : e = 0x0d ∨ e = 0x0a)
    (hroom : Fallible.Meets (relayChar cycles) FindsRoom s (ks.flatMap Stroke.bytes)) :
    ShipsValid cycles s ks e ↔ Uncut ks := by
  have hedits : ∀ c ∈ ks.flatMap Stroke.bytes, Edits c := fun c hc => by
    obtain ⟨k, -, hk⟩ := List.mem_flatMap.mp hc
    exact k.edits hk
  obtain ⟨b₁, r₁, hrun₁, h₁, hesc₁, htyped⟩ :=
    (hidle.kept hfd).holds.edits hedits rfl hroom
  obtain ⟨b₂, henter, -⟩ := h₁.relayEnter hfd
  have hkey : relayChar cycles (s.1, b₁) e = b₁.relayEnter s.1 := by
    rcases he with rfl | rfl <;> exact relayChar_key (h₁.esc.trans hesc₁) (by decide)
  have hrun : Fallible.exec (relayChar cycles) s (ks.flatMap Stroke.bytes ++ [e]) =
      .ok ((completeLine s.1, b₂), [.write (r₁.typed ++ [0x0a])]) := by
    rw [Fallible.exec_append, hrun₁]
    refine Fallible.andThen_eq_ok.mpr ⟨_, _, _, _, rfl, ?_, rfl⟩
    refine Fallible.andThen_eq_ok.mpr ⟨_, _, _, _, hkey.trans henter, rfl, ?_⟩
    rw [relayPrefix_typed]
    rfl
  rw [← edited_valid_iff, show edited [] _ = r₁.typed from htyped.symm]
  constructor
  · rintro ⟨s', l, hrun', hvalid⟩
    rw [hrun] at hrun'
    have hout := congrArg Prod.snd (Except.ok.inj hrun')
    have hl : r₁.typed ++ [0x0a] = l ++ [0x0a] := RelayOut.write.inj (List.cons.inj hout).1
    rw [List.append_cancel_right hl]
    exact hvalid
  · intro hvalid
    exact ⟨_, _, hrun, hvalid⟩

end RelayBuf

/-! ## The line of the shell -/

namespace Pump

variable {p : Pump}

/-- A character finds room. -/
def FindsRoom (p : Pump) (c : UInt8) : Prop := IsPrintable c → p.taRly.text.length < CAP - 2

theorem edits {buf : List UInt8} (hbuf : ∀ c ∈ buf, Edits c) (hesc : p.taEsc = .normal)
    (hroom : typeAheadReader.Along FindsRoom p buf) :
    (typeAheadReader.final p buf).taRly.text = edited p.taRly.text buf ∧
      (typeAheadReader.final p buf).taEsc = .normal ∧
      (typeAheadReader.final p buf).ibuffer = p.ibuffer := by
  induction buf generalizing p with
  | nil => exact ⟨rfl, hesc, rfl⟩
  | cons c buf ih =>
    obtain ⟨hc, hrest⟩ := List.forall_mem_cons.mp hbuf
    have hstep : typeAheadReader.step p c = (p.setTypeAhead (editByte p.taRly.text c), []) := by
      rcases hc with hc | hc
      · rw [editByte, if_neg (not_isErase hc)]
        exact typeAheadChar_char hesc hc (hroom.1 hc)
      · rw [editByte, if_pos hc]
        exact typeAheadChar_erase hesc hc
    have hroom' := hroom.2
    rw [hstep] at hroom'
    rw [Transducer.final_cons, hstep]
    exact ih hrest hesc hroom'

/-- The text, and then a backspace for each of its characters, leave the line as it was. -/
def Restores (p : Pump) (t : List Char) (e : UInt8) : Prop :=
  (typeAheadReader.final p (encode t ++ List.replicate t.length e)).taRly.text = p.taRly.text

theorem restores_iff {t : List Char} {e : UInt8} (hesc : p.taEsc = .normal)
    (ht : ∀ c ∈ t, Typeable c) (he : IsErase e)
    (hroom : typeAheadReader.Along FindsRoom p (encode t)) : p.Restores t e ↔ Ascii t := by
  have htext : ∀ c ∈ encode t, Edits c := fun b hb => by
    obtain ⟨c, hc, hbc⟩ := List.mem_flatMap.mp hb
    exact Or.inl (printable_of_mem (ht c hc) hbc)
  have herase : ∀ c ∈ List.replicate t.length e, Edits c := fun b hb =>
    Or.inr (List.eq_of_mem_replicate hb ▸ he)
  have hback : ∀ q, typeAheadReader.Along FindsRoom q (List.replicate t.length e) :=
    Transducer.along_of_forall _ fun q b hb hp =>
      absurd (List.eq_of_mem_replicate hb ▸ he) (not_isErase hp)
  obtain ⟨hline, -⟩ := edits (p := p) (List.forall_mem_append.mpr ⟨htext, herase⟩) hesc
    ((Transducer.along_append ..).mpr ⟨hroom, hback _⟩)
  rw [Restores, hline]
  exact edited_back_iff ht he p.taRly.text

/-- What Enter queues is the line, and valid UTF-8. -/
def QueuesValid (p : Pump) (ks : List Stroke) (e : UInt8) : Prop :=
  let q := typeAheadReader.final p (ks.flatMap Stroke.bytes)
  (typeAheadReader.final q [e]).ibuffer = (q.ibuffer.stuffAll q.taRly.text).stuffAll [0x0a] ∧
    Valid q.taRly.text

theorem queuesValid_iff {ks : List Stroke} {e : UInt8} (hesc : p.taEsc = .normal)
    (hempty : p.taRly.text = []) (he : e = 0x0d ∨ e = 0x0a)
    (hroom : typeAheadReader.Along FindsRoom p (ks.flatMap Stroke.bytes)) :
    p.QueuesValid ks e ↔ Uncut ks := by
  have hedits : ∀ c ∈ ks.flatMap Stroke.bytes, Edits c := fun c hc => by
    obtain ⟨k, -, hk⟩ := List.mem_flatMap.mp hc
    exact k.edits hk
  obtain ⟨hline, hesc', -⟩ := edits hedits hesc hroom
  have henter := typeAheadChar_enter hesc' he
  have hqueue : (typeAheadReader.final (typeAheadReader.final p (ks.flatMap Stroke.bytes))
      [e]).ibuffer = ((typeAheadReader.final p (ks.flatMap Stroke.bytes)).ibuffer.stuffAll
        (typeAheadReader.final p (ks.flatMap Stroke.bytes)).taRly.text).stuffAll [0x0a] :=
    congrArg (fun x : Pump × List Out => x.1.ibuffer) henter
  rw [← edited_valid_iff, QueuesValid, hqueue, hline, hempty]
  exact and_iff_right rfl

end Pump

/-! ## Both lines -/

/-- On the line of a task and on the shell's line: a text is taken back by a backspace for each of
its characters if and only if it is ASCII, and what Enter ends is valid UTF-8 if and only if no
character has been cut. -/
theorem backspace_iff {cycles : Bool} {s s₀ : Slot × RelayBuf} {r : Relay} {p p₀ : Pump}
    {t : List Char} {ks : List Stroke} {b e : UInt8} (hline : RelayBuf.Holds s.2 r)
    (hesc : r.esc = .normal) (hidle : RelayBuf.Idle s₀.2) (hfd : s₀.1.keyFd.isSome)
    (hshell : p.taEsc = .normal) (hshell₀ : p₀.taEsc = .normal) (hempty : p₀.taRly.text = [])
    (ht : ∀ c ∈ t, Typeable c) (hb : IsErase b) (he : e = 0x0d ∨ e = 0x0a)
    (hroom : Fallible.Meets (RelayBuf.relayChar cycles) RelayBuf.FindsRoom s (encode t))
    (hroom₀ : Fallible.Meets (RelayBuf.relayChar cycles) RelayBuf.FindsRoom s₀
      (ks.flatMap Stroke.bytes))
    (hspace : Pump.typeAheadReader.Along Pump.FindsRoom p (encode t))
    (hspace₀ : Pump.typeAheadReader.Along Pump.FindsRoom p₀ (ks.flatMap Stroke.bytes)) :
    ((RelayBuf.Restores cycles s t b ↔ Ascii t) ∧
      (RelayBuf.ShipsValid cycles s₀ ks e ↔ Uncut ks)) ∧
    (p.Restores t b ↔ Ascii t) ∧ (p₀.QueuesValid ks e ↔ Uncut ks) :=
  ⟨⟨RelayBuf.restores_iff hline hesc ht hb hroom, RelayBuf.shipsValid_iff hidle hfd he hroom₀⟩,
    Pump.restores_iff hshell ht hb hspace, Pump.queuesValid_iff hshell₀ hempty he hspace₀⟩

theorem typeable_a : Typeable 'a' := Or.inr (by decide)

theorem typeable_eAcute : Typeable 'é' := Or.inr (by decide)

theorem backspace_iff_a :
    ((RelayBuf.Restores true (RelayBuf.reader, .zeroed) ['a'] 0x7f ↔ Ascii ['a']) ∧
      (RelayBuf.ShipsValid true (RelayBuf.reader, .zeroed) [.char 'a' typeable_a] 0x0d ↔
        Uncut [.char 'a' typeable_a])) ∧
    ((Pump.oneTask true).Restores ['a'] 0x7f ↔ Ascii ['a']) ∧
      ((Pump.oneTask true).QueuesValid [.char 'a' typeable_a] 0x0d ↔
        Uncut [.char 'a' typeable_a]) := by
  have hedits : ∀ c ∈ encode ['a'], Edits c := by decide +kernel
  have hroom : Fallible.Meets (RelayBuf.relayChar true) RelayBuf.FindsRoom
      (RelayBuf.reader, .zeroed) (encode ['a']) :=
    RelayBuf.holds_zeroed.meets_findsRoom hedits rfl (by decide)
  have hspace : Pump.typeAheadReader.Along Pump.FindsRoom (Pump.oneTask true) (encode ['a']) :=
    ⟨fun _ => by decide, trivial⟩
  exact backspace_iff RelayBuf.holds_zeroed rfl ⟨rfl, rfl, rfl, rfl⟩ (by decide) rfl rfl rfl
    (by simp [typeable_a]) (Or.inl rfl) (Or.inl rfl) hroom hroom hspace hspace

/-- The letter `é`, and a backspace: its first byte stays, and Enter ships it. -/
theorem eAcute_cut :
    ¬RelayBuf.Restores true (RelayBuf.reader, .zeroed) ['é'] 0x7f ∧
      ¬RelayBuf.ShipsValid true (RelayBuf.reader, .zeroed)
        [.char 'é' typeable_eAcute, .erase 0x7f (Or.inl rfl)] 0x0d := by
  have hroom : ∀ buf : List UInt8, (∀ c ∈ buf, Edits c) → buf.length ≤ 8 →
      Fallible.Meets (RelayBuf.relayChar true) RelayBuf.FindsRoom (RelayBuf.reader, .zeroed)
        buf := by
    intro buf hbuf hlength
    refine RelayBuf.holds_zeroed.meets_findsRoom hbuf rfl ?_
    exact Nat.le_trans (Nat.add_le_add_left hlength _) (by decide)
  constructor
  · rw [RelayBuf.restores_iff RelayBuf.holds_zeroed rfl (by simp [typeable_eAcute]) (Or.inl rfl)
      (hroom _ (by decide +kernel) (by decide +kernel))]
    intro hascii
    exact absurd (hascii 'é' (List.mem_singleton_self _)) (by decide)
  · rw [RelayBuf.shipsValid_iff ⟨rfl, rfl, rfl, rfl⟩ (by decide) (Or.inl rfl)
      (hroom _ (by decide +kernel) (by decide +kernel))]
    decide +kernel

end Basht.Keyboard
