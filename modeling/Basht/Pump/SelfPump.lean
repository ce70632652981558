import Mathlib.Data.List.Basic
import Basht.Library.Fallible

/-!
# The pump of the shell's own output

A helper thread reads the shell's own pty and appends what it has read to a list of chunks;
the main thread takes the list and displays it. A mutex guards the list, and a pipe tells the
main thread that there is something in it.

An event is one step of one of the threads. `self_pump_safe` holds after any interleaving of
them: nothing is lost, repeated or reordered, and chunks are not left behind without a wake.
-/

namespace Basht.Pump

abbrev SELF_CHUNK_SZ : Nat := 65536

/-- `sizeof (struct self_chunk)`, a pointer and a `size_t`, is 16. -/
abbrev SELF_CHUNK_CAP : Nat := SELF_CHUNK_SZ - 16

/-- The size of the buffer the pump reads into. -/
abbrev sizeofBuf : Nat := 4096

/-- The size of the buffer the wake pipe is read into. -/
abbrev sizeofJunk : Nat := 64

/-- `struct self_chunk`. -/
structure Chunk where
  data : List UInt8
  fits : data.length ≤ SELF_CHUNK_CAP

namespace Chunk

/-- `self_chunk_new`. -/
def new : Chunk := ⟨[], Nat.zero_le _⟩

def IsFull (c : Chunk) : Prop := c.data.length = SELF_CHUNK_CAP

instance (c : Chunk) : Decidable c.IsFull := inferInstanceAs (Decidable (_ = _))

def space (c : Chunk) : Nat := SELF_CHUNK_CAP - c.data.length

/-- What the `memcpy` of `self_pump` makes of the chunk. -/
def fill (c : Chunk) (bytes : List UInt8) : Chunk where
  data := c.data ++ bytes.take c.space
  fits := by
    have := c.fits
    simp only [List.length_append, List.length_take, space]
    omega

end Chunk

/-! ## The threads -/

/-- Where the pump stands. -/
inductive PumpAt where
  /-- before its `read` -/
  | reading
  /-- before it locks the mutex, with what it has read -/
  | fetched (burst : List UInt8)
  /-- in the loop that appends, with the rest of the burst; `touched` once it has changed the
  list -/
  | appending (rest : List UInt8) (touched : Bool)
  /-- before its write to the wake pipe -/
  | unlocked
  /-- behind the loop -/
  | ended
deriving DecidableEq

/-- Where the main thread stands. -/
inductive MainAt where
  /-- outside of `drain_self` -/
  | outside
  /-- between the two handlers of a fork, with the mutex -/
  | forking
  /-- in the loops that wait for the pump and empty the wake pipe -/
  | emptying
  /-- before it locks the mutex -/
  | emptied
  /-- with the mutex, before it takes the list -/
  | holding
  /-- with the mutex and the list -/
  | taken (chunks : List Chunk)
  /-- in the loop that displays the chunks -/
  | displaying (chunks : List Chunk)

/-- What the threads share, and where they stand. `wake` counts the bytes in the wake pipe. -/
structure World where
  pump : PumpAt
  main : MainAt
  locked : Bool
  chunks : List Chunk
  wake : Nat

def World.start : World := ⟨.reading, .outside, false, [], 0⟩

/-- The steps of the pump. -/
inductive PumpStep where
  | read (burst : List UInt8)
  | eof
  | lock
  | newChunk
  | append
  | unlock
  | wake

/-- The steps of the main thread. -/
inductive MainStep where
  | enter
  | readWake
  | lock
  | take
  | unlock
  | display
  | leave
  | forkPrepare
  | forkParent

inductive Event where
  | pump (e : PumpStep)
  | main (e : MainStep)

/-- What is read from the master, and what is given to `basht_filter_bytes`. -/
inductive Out where
  | read (bytes : List UInt8)
  | displayed (bytes : List UInt8)

/-- The thread does not stand where the step starts, or has to wait for the mutex. -/
inductive Disabled where
  | disabled
deriving DecidableEq

/-- The pump has to link a new chunk before it can append. -/
def NeedsChunk (chunks : List Chunk) : Prop := ∀ c, chunks.getLast? = some c → c.IsFull

instance (chunks : List Chunk) : Decidable (NeedsChunk chunks) :=
  match h : chunks.getLast? with
  | none => isTrue fun c hc => by rw [h] at hc; cases hc
  | some c => decidable_of_iff c.IsFull ⟨fun hc d hd => by rw [h] at hd; cases hd; exact hc,
      fun hall => hall c h⟩

/-- The bytes in a list of chunks. -/
def bytesOf (chunks : List Chunk) : List UInt8 := chunks.flatMap Chunk.data

namespace World

variable (pipeSize : Nat)

/-- The steps of `self_pump`. A byte that finds the wake pipe full is dropped. -/
def pumpStep (w : World) : PumpStep → Except Disabled (World × List Out)
  | .read burst =>
    if w.pump = .reading ∧ burst ≠ [] ∧ burst.length ≤ sizeofBuf then
      .ok ({ w with pump := .fetched burst }, [.read burst])
    else .error .disabled
  | .eof =>
    if w.pump = .reading then .ok ({ w with pump := .ended }, []) else .error .disabled
  | .lock =>
    match w.pump with
    | .fetched burst =>
      if w.locked then .error .disabled
      else .ok ({ w with pump := .appending burst false, locked := true }, [])
    | _ => .error .disabled
  | .newChunk =>
    match w.pump with
    | .appending rest _ =>
      if rest ≠ [] ∧ NeedsChunk w.chunks then
        .ok ({ w with pump := .appending rest true, chunks := w.chunks ++ [.new] }, [])
      else .error .disabled
    | _ => .error .disabled
  | .append =>
    match w.pump, w.chunks.getLast? with
    | .appending rest _, some tail =>
      if rest ≠ [] ∧ ¬tail.IsFull then
        .ok ({ w with
          pump := .appending (rest.drop tail.space) true
          chunks := w.chunks.dropLast ++ [tail.fill rest] }, [])
      else .error .disabled
    | _, _ => .error .disabled
  | .unlock =>
    match w.pump with
    | .appending [] _ => .ok ({ w with pump := .unlocked, locked := false }, [])
    | _ => .error .disabled
  | .wake =>
    if w.pump = .unlocked then
      .ok ({ w with
        pump := .reading
        wake := if w.wake < pipeSize then w.wake + 1 else w.wake }, [])
    else .error .disabled

/-- The steps of `drain_self`, and of the handlers of a fork. -/
def mainStep (w : World) (e : MainStep) : Except Disabled (World × List Out) :=
  match e, w.main with
  | .enter, .outside => .ok ({ w with main := .emptying }, [])
  | .readWake, .emptying =>
    if w.wake = 0 then .ok ({ w with main := .emptied }, [])
    else .ok ({ w with wake := w.wake - sizeofJunk }, [])
  | .lock, .emptied =>
    if w.locked then .error .disabled else .ok ({ w with main := .holding, locked := true }, [])
  | .take, .holding => .ok ({ w with main := .taken w.chunks, chunks := [] }, [])
  | .unlock, .taken chunks => .ok ({ w with main := .displaying chunks, locked := false }, [])
  | .display, .displaying (c :: chunks) =>
    .ok ({ w with main := .displaying chunks }, [.displayed c.data])
  | .leave, .displaying [] => .ok ({ w with main := .outside }, [])
  | .forkPrepare, .outside =>
    if w.locked then .error .disabled else .ok ({ w with main := .forking, locked := true }, [])
  | .forkParent, .forking => .ok ({ w with main := .outside, locked := false }, [])
  | _, _ => .error .disabled

/-- One step of one of the threads. -/
def step (w : World) : Event → Except Disabled (World × List Out)
  | .pump e => w.pumpStep pipeSize e
  | .main e => w.mainStep e

/-! ## What a step can do -/

/-- The steps of the two threads, as a relation. -/
inductive Move : World → World → List Out → Prop where
  | read {m l cs k} (burst : List UInt8) (hne : burst ≠ []) :
      Move ⟨.reading, m, l, cs, k⟩ ⟨.fetched burst, m, l, cs, k⟩ [.read burst]
  | eof {m l cs k} : Move ⟨.reading, m, l, cs, k⟩ ⟨.ended, m, l, cs, k⟩ []
  | pumpLock {burst m cs k} :
      Move ⟨.fetched burst, m, false, cs, k⟩ ⟨.appending burst false, m, true, cs, k⟩ []
  | newChunk {rest touched m l cs k} (hneeds : NeedsChunk cs) :
      Move ⟨.appending rest touched, m, l, cs, k⟩ ⟨.appending rest true, m, l, cs ++ [.new], k⟩ []
  | append {rest touched m l cs tail k} :
      Move ⟨.appending rest touched, m, l, cs ++ [tail], k⟩
        ⟨.appending (rest.drop tail.space) true, m, l, cs ++ [tail.fill rest], k⟩ []
  | pumpUnlock {touched m l cs k} :
      Move ⟨.appending [] touched, m, l, cs, k⟩ ⟨.unlocked, m, false, cs, k⟩ []
  | wake {m l cs k k'} (hk : k' = if k < pipeSize then k + 1 else k) :
      Move ⟨.unlocked, m, l, cs, k⟩ ⟨.reading, m, l, cs, k'⟩ []
  | enter {p l cs k} : Move ⟨p, .outside, l, cs, k⟩ ⟨p, .emptying, l, cs, k⟩ []
  | readWake {p l cs k} : Move ⟨p, .emptying, l, cs, k⟩ ⟨p, .emptying, l, cs, k - sizeofJunk⟩ []
  | emptied {p l cs} : Move ⟨p, .emptying, l, cs, 0⟩ ⟨p, .emptied, l, cs, 0⟩ []
  | mainLock {p cs k} : Move ⟨p, .emptied, false, cs, k⟩ ⟨p, .holding, true, cs, k⟩ []
  | take {p l cs k} : Move ⟨p, .holding, l, cs, k⟩ ⟨p, .taken cs, l, [], k⟩ []
  | mainUnlock {p l ds cs k} : Move ⟨p, .taken ds, l, cs, k⟩ ⟨p, .displaying ds, false, cs, k⟩ []
  | display {p l c ds cs k} :
      Move ⟨p, .displaying (c :: ds), l, cs, k⟩ ⟨p, .displaying ds, l, cs, k⟩ [.displayed c.data]
  | leave {p l cs k} : Move ⟨p, .displaying [], l, cs, k⟩ ⟨p, .outside, l, cs, k⟩ []
  | forkPrepare {p cs k} : Move ⟨p, .outside, false, cs, k⟩ ⟨p, .forking, true, cs, k⟩ []
  | forkParent {p l cs k} : Move ⟨p, .forking, l, cs, k⟩ ⟨p, .outside, false, cs, k⟩ []

variable {pipeSize}

theorem move_of_pumpStep {w w' : World} {e : PumpStep} {outs : List Out}
    (h : w.pumpStep pipeSize e = .ok (w', outs)) : Move pipeSize w w' outs := by
  obtain ⟨p, m, l, cs, k⟩ := w
  unfold pumpStep at h
  split at h
  · split at h
    · rename_i hread
      obtain ⟨rfl, hne, -⟩ := hread
      cases h
      exact .read _ hne
    · cases h
  · split at h
    · rename_i hpump
      cases hpump
      cases h
      exact .eof
    · cases h
  · split at h
    · rename_i hpump
      cases hpump
      split at h
      · cases h
      · rename_i hfree
        cases eq_false_of_ne_true hfree
        cases h
        exact .pumpLock
    · cases h
  · split at h
    · rename_i hpump
      cases hpump
      split at h
      · rename_i hneeds
        cases h
        exact .newChunk hneeds.2
      · cases h
    · cases h
  · split at h
    · rename_i hpump hlast
      cases hpump
      obtain ⟨ys, rfl⟩ := List.getLast?_eq_some_iff.mp hlast
      split at h
      · cases h
        simp only [List.dropLast_concat]
        exact .append
      · cases h
    · cases h
  · split at h
    · rename_i hpump
      cases hpump
      cases h
      exact .pumpUnlock
    · cases h
  · split at h
    · rename_i hpump
      cases hpump
      cases h
      exact .wake rfl
    · cases h

theorem move_of_mainStep {w w' : World} {e : MainStep} {outs : List Out}
    (h : w.mainStep e = .ok (w', outs)) : Move pipeSize w w' outs := by
  obtain ⟨p, m, l, cs, k⟩ := w
  unfold mainStep at h
  split at h
  · rename_i hmain
    cases hmain
    cases h
    exact .enter
  · rename_i hmain
    cases hmain
    split at h
    · rename_i hempty
      cases hempty
      cases h
      exact .emptied
    · cases h
      exact .readWake
  · rename_i hmain
    cases hmain
    split at h
    · cases h
    · rename_i hfree
      cases eq_false_of_ne_true hfree
      cases h
      exact .mainLock
  · rename_i hmain
    cases hmain
    cases h
    exact .take
  · rename_i hmain
    cases hmain
    cases h
    exact .mainUnlock
  · rename_i hmain
    cases hmain
    cases h
    exact .display
  · rename_i hmain
    cases hmain
    cases h
    exact .leave
  · rename_i hmain
    cases hmain
    split at h
    · cases h
    · rename_i hfree
      cases eq_false_of_ne_true hfree
      cases h
      exact .forkPrepare
  · rename_i hmain
    cases hmain
    cases h
    exact .forkParent
  · cases h

theorem move_of_step {w w' : World} {e : Event} {outs : List Out}
    (h : w.step pipeSize e = .ok (w', outs)) : Move pipeSize w w' outs := by
  cases e with
  | pump e => exact move_of_pumpStep h
  | main e => exact move_of_mainStep h

end World

/-! ## What the steps keep -/

/-- The chunks the main thread has taken and not yet displayed. -/
def MainAt.chunks : MainAt → List Chunk
  | .taken chunks | .displaying chunks => chunks
  | .outside | .forking | .emptying | .emptied | .holding => []

/-- The bytes the pump has read and not yet appended. -/
def PumpAt.bytes : PumpAt → List UInt8
  | .fetched rest | .appending rest _ => rest
  | .reading | .unlocked | .ended => []

/-- The pump is between its first change of the list for a burst and its write to the wake
pipe. -/
def PumpAt.BeforeWake (p : PumpAt) : Prop := p = .unlocked ∨ ∃ rest, p = .appending rest true

/-- The main thread is in `drain_self` and has not taken the list yet. -/
def MainAt.BeforeTake (m : MainAt) : Prop := m = .emptying ∨ m = .emptied ∨ m = .holding

/-- The main thread is not in `drain_self`. -/
def MainAt.NotDraining (m : MainAt) : Prop := m = .outside ∨ m = .forking

def PumpAt.HoldsMutex (p : PumpAt) : Prop := ∃ rest touched, p = .appending rest touched

def MainAt.HoldsMutex (m : MainAt) : Prop :=
  m = .forking ∨ m = .holding ∨ ∃ chunks, m = .taken chunks

/-- All chunks but the last one are full. -/
def FullButLast (chunks : List Chunk) : Prop := ∀ c ∈ chunks.dropLast, c.IsFull

/-- What is on its way from the master to the display. -/
def World.onTheWay (w : World) : List UInt8 :=
  bytesOf w.main.chunks ++ bytesOf w.chunks ++ w.pump.bytes

def readBytes (outs : List Out) : List UInt8 :=
  outs.flatMap fun
    | .read bytes => bytes
    | .displayed _ => []

def displayedBytes (outs : List Out) : List UInt8 :=
  outs.flatMap fun
    | .read _ => []
    | .displayed bytes => bytes

theorem FullButLast.tail {c : Chunk} {chunks : List Chunk} (h : FullButLast (c :: chunks)) :
    FullButLast chunks := by
  cases chunks with
  | nil => exact fun _ hc => by cases hc
  | cons d chunks => exact fun e he => h e (List.mem_cons_of_mem _ he)

/-- A chunk may be linked behind a full one. -/
theorem FullButLast.concat {chunks : List Chunk} (h : FullButLast chunks)
    (hneeds : NeedsChunk chunks) (c : Chunk) : FullButLast (chunks ++ [c]) := by
  rw [FullButLast, List.dropLast_concat]
  rcases List.eq_nil_or_concat chunks with rfl | ⟨ys, tail, rfl⟩
  · exact fun _ hc => by cases hc
  · intro d hd
    rw [List.concat_eq_append] at h hneeds hd
    rcases List.mem_append.mp hd with hd | hd
    · exact h d (by rwa [List.dropLast_concat])
    · rw [List.mem_singleton.mp hd]
      exact hneeds tail List.getLast?_concat

namespace World

variable {pipeSize : Nat} {w w' : World} {outs : List Out}

/-- No step loses, repeats or reorders a byte. -/
theorem Move.conserves (h : Move pipeSize w w' outs) :
    displayedBytes outs ++ w'.onTheWay = w.onTheWay ++ readBytes outs := by
  cases h with
  | append =>
    simp only [displayedBytes, readBytes, onTheWay, bytesOf, PumpAt.bytes, List.flatMap_append,
      List.flatMap_singleton, Chunk.fill, List.append_assoc, List.take_append_drop,
      List.flatMap_nil, List.nil_append, List.append_nil]
  | _ => simp [displayedBytes, readBytes, onTheWay, bytesOf, PumpAt.bytes, MainAt.chunks,
      Chunk.new]

theorem Move.full (h : Move pipeSize w w' outs) (hfull : FullButLast w.chunks) :
    FullButLast w'.chunks := by
  cases h with
  | newChunk hneeds => exact hfull.concat hneeds _
  | append =>
    rw [FullButLast, List.dropLast_concat] at hfull ⊢
    exact hfull
  | take => exact fun _ hc => by cases hc
  | _ => exact hfull

/-- One thread has the mutex when it is locked, and none when it is not. -/
structure Mutex (w : World) : Prop where
  locked : w.locked = true → w.pump.HoldsMutex ∨ w.main.HoldsMutex
  unlocked : w.locked = false → ¬w.pump.HoldsMutex ∧ ¬w.main.HoldsMutex
  exclusive : ¬(w.pump.HoldsMutex ∧ w.main.HoldsMutex)

theorem Move.mutex (h : Move pipeSize w w' outs) (hw : w.Mutex) : w'.Mutex := by
  obtain ⟨hlocked, hunlocked, hexcl⟩ := hw
  cases h with
  | pumpLock =>
    obtain ⟨-, hmain⟩ := hunlocked rfl
    exact ⟨fun _ => Or.inl ⟨_, _, rfl⟩, nofun, fun hboth => hmain hboth.2⟩
  | pumpUnlock =>
    have hmain := fun hm => hexcl ⟨⟨_, _, rfl⟩, hm⟩
    exact ⟨nofun, fun _ => ⟨by simp [PumpAt.HoldsMutex], hmain⟩,
      fun hboth => hmain hboth.2⟩
  | mainLock | forkPrepare =>
    obtain ⟨hpump, -⟩ := hunlocked rfl
    exact ⟨fun _ => Or.inr (by simp [MainAt.HoldsMutex]), nofun,
      fun hboth => hpump hboth.1⟩
  | mainUnlock | forkParent =>
    have hpump := fun hp => hexcl ⟨hp, by simp [MainAt.HoldsMutex]⟩
    exact ⟨nofun, fun _ => ⟨hpump, by simp [MainAt.HoldsMutex]⟩,
      fun hboth => hpump hboth.1⟩
  | _ => constructor <;> simp_all [PumpAt.HoldsMutex, MainAt.HoldsMutex]

/-- Chunks lie in the list with a wake in the pipe, or one to come, or while the main thread is
about to take them. -/
def Awake (w : World) : Prop :=
  w.chunks ≠ [] → 0 < w.wake ∨ w.pump.BeforeWake ∨ w.main.BeforeTake

theorem Move.awake (hsize : 0 < pipeSize) (h : Move pipeSize w w' outs) (hw : w.Awake) :
    w'.Awake := by
  cases h with
  | newChunk | append => exact fun _ => Or.inr (Or.inl (Or.inr ⟨_, rfl⟩))
  | pumpUnlock => exact fun _ => Or.inr (Or.inl (Or.inl rfl))
  | @wake m l cs k k' hk =>
    refine fun _ => Or.inl ?_
    change 0 < k'
    split at hk <;> omega
  | enter | readWake | emptied | mainLock =>
    exact fun _ => Or.inr (Or.inr (by simp [MainAt.BeforeTake]))
  | take => exact fun hne => absurd rfl hne
  | _ => exact fun hne => by simpa [PumpAt.BeforeWake, MainAt.BeforeTake] using hw hne

/-! ## Runs -/

theorem chunks_full {events : List Event} (h : Fallible.exec (step pipeSize) start events
    = .ok (w, outs)) : FullButLast w.chunks :=
  Fallible.exec_invariant (fun _ _ _ _ hfull hstep => (move_of_step hstep).full hfull)
    (fun c hc => by cases hc) h

/-- The two threads never have the mutex at once. -/
theorem mutual_exclusion {events : List Event}
    (h : Fallible.exec (step pipeSize) start events = .ok (w, outs)) :
    ¬(w.pump.HoldsMutex ∧ w.main.HoldsMutex) := by
  have hstart : start.Mutex := by
    constructor <;> simp [start, PumpAt.HoldsMutex, MainAt.HoldsMutex]
  exact (Fallible.exec_invariant (fun _ _ _ _ hw hstep => (move_of_step hstep).mutex hw)
    hstart h).exclusive

theorem conserved {events : List Event}
    (h : Fallible.exec (step pipeSize) start events = .ok (w, outs)) :
    displayedBytes outs ++ w.onTheWay = readBytes outs := by
  have hlaw := Fallible.exec_law
    (Q := fun w outs w' => displayedBytes outs ++ w'.onTheWay = w.onTheWay ++ readBytes outs)
    (fun w => by simp [displayedBytes, readBytes])
    (fun w outs w' outs' w'' h h' => by
      simp only [displayedBytes, readBytes, List.flatMap_append, List.append_assoc] at h h' ⊢
      rw [h', ← List.append_assoc, h, List.append_assoc])
    (fun _ _ _ _ _ hstep => (move_of_step hstep).conserves) h
  exact hlaw

/-- **The pump.** After any steps of the two threads, what is displayed is a prefix of what was
read, chunks are full but for the last one, and there is a wake in the pipe when chunks wait,
the pump is not about to write one, and the main thread is not in `drain_self`. -/
theorem self_pump_safe (hsize : 0 < pipeSize) {events : List Event}
    (h : Fallible.exec (step pipeSize) start events = .ok (w, outs)) :
    displayedBytes outs <+: readBytes outs ∧
      (∀ c ∈ w.chunks, c.data.length ≤ SELF_CHUNK_CAP) ∧
      (∀ c ∈ w.chunks.dropLast, c.data.length = SELF_CHUNK_CAP) ∧
      (w.chunks ≠ [] → ¬w.pump.BeforeWake → w.main.NotDraining → 0 < w.wake) := by
  refine ⟨⟨w.onTheWay, conserved h⟩, fun c _ => c.fits, chunks_full h, fun hne hpump hmain => ?_⟩
  have hawake : w.Awake := Fallible.exec_invariant
    (fun _ _ _ _ hw hstep => (move_of_step hstep).awake hsize hw) (fun hne => absurd rfl hne) h
  rcases hawake hne with hwake | hbefore | hbefore
  · exact hwake
  · exact absurd hbefore hpump
  · rcases hmain with hm | hm <;> rcases hbefore with hb | hb | hb <;> rw [hm] at hb <;> cases hb

/-- The pump has appended a burst and still holds the mutex. -/
def appended : List Event := [.pump (.read [104]), .pump .lock, .pump .newChunk, .pump .append]

theorem self_pump_safe_burst : ∃ w outs,
    Fallible.exec (step 65536) start (appended ++ [.pump .unlock, .pump .wake]) = .ok (w, outs) ∧
      w.chunks ≠ [] ∧ 0 < w.wake := by
  have h : ∃ w outs, Fallible.exec (step 65536) start (appended ++ [.pump .unlock, .pump .wake])
      = .ok (w, outs) ∧ w.chunks ≠ [] ∧ w.pump = .reading ∧ w.main = .outside :=
    ⟨_, _, rfl, by simp, rfl, rfl⟩
  obtain ⟨w, outs, hrun, hne, hpump, hmain⟩ := h
  refine ⟨w, outs, hrun, hne, (self_pump_safe (by decide) hrun).2.2.2 hne ?_ (Or.inl hmain)⟩
  simp [hpump, PumpAt.BeforeWake]

/-- There is no wake in the pipe before the pump unlocks the mutex. -/
theorem appended_without_wake : ∃ w outs,
    Fallible.exec (step 65536) start appended = .ok (w, outs) ∧ w.chunks ≠ [] ∧
      w.pump ≠ .unlocked ∧ w.main = .outside ∧ ¬0 < w.wake :=
  ⟨_, _, rfl, by simp, by simp, rfl, by decide⟩

end World

end Basht.Pump
