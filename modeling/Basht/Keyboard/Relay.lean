import Basht.Filter.LineBuf
import Basht.Keyboard.Console
import Basht.Library.RingBuffer
import Basht.Library.Transducer

/-!
# The relays

What becomes of the keys once their target is chosen: a task in line mode gets them a line at a
time (`relay_chars`), a task that reads keystrokes as they come (`relay_raw`), and the shell,
while it waits for a foreground task, through readline's input queue.

The descriptor that a relay writes to is fixed when it starts, and the modes of the ptys do not
change meanwhile; consecutive bytes that are written in one piece are the same output as the
bytes one by one.
-/

namespace Basht.Keyboard

open Basht.Filter Basht.Tasks

/-! ## The keyboard pty of a task -/

namespace Slot

/-- `cap_key_fd`. -/
def keyFd (sl : Slot) : Option Pty := sl.cap.keyFd sl.icanon

/-- `cap_stdin_raw`. -/
def raw (sl : Slot) : Bool :=
  match sl.keyFd with
  | none => false
  | some p => !sl.icanon p

/-- `*isig` of `cap_stdin_raw`. -/
def keyIsig (sl : Slot) : Bool :=
  match sl.keyFd with
  | none => true
  | some p => sl.isig p

/-- `key_signals_here`, for the descriptor of `cap_key_fd`. -/
def signalsHere (sl : Slot) : Bool := !sl.cap.sess || sl.keyFd != some .mIn

end Slot

inductive Sig where
  | int
  | tstp
deriving DecidableEq, Repr

/-- What the keys make happen. -/
inductive Out where
  /-- A byte written to a pty of the task in a slot. -/
  | key (i : Fin MAX_CAPS) (p : Pty) (b : UInt8)
  | signal (pid : Int32) (sig : Sig)
  /-- A byte of `rl_insert_text`. -/
  | insert (b : UInt8)
  /-- A byte that `basht_getc` returns to readline. -/
  | getc (b : UInt8)
  | cycle (d : Dir)
deriving DecidableEq, Repr

/-- `basht_write_all` to the keyboard pty of a task, if there is one. -/
def Slot.write (sl : Slot) (i : Fin MAX_CAPS) (bytes : List UInt8) : List Out :=
  match sl.keyFd with
  | none => []
  | some p => bytes.map (.key i p)

/-- The signal of a key. -/
def sigOf (c : UInt8) : Sig := if c = 0x03 then .int else .tstp

/-! ## Escape sequences -/

/-- What `key_escape` returns; `cycle` is `KESC_EAT` after a call of `basht_cycle_owner`. -/
inductive Kesc where
  | none
  | eat
  | up
  | down
  | cycle (d : Dir)
deriving DecidableEq, Repr

/-- The end of a CSI sequence in `key_escape`. -/
def csiKey (cycles : Bool) (n n2 : Int32) (more : Bool) (c : UInt8) : Kesc :=
  if cycles = true ∧ n = 1 ∧ n2 = 3 ∧ (c = 0x43 ∨ c = 0x44) then
    .cycle (if c = 0x43 then .right else .left)
  else if n = 0 ∧ more = false then
    if c = 0x41 then .up else if c = 0x42 then .down else .eat
  else .eat

/-- `key_escape`. -/
def keyEscape (cycles : Bool) (st : Esc) (c : UInt8) : Esc × Kesc :=
  match st with
  | .esc =>
    if c = 0x5b then (.csi 0 0 false, .eat) else if c = 0x4f then (.ss3, .eat) else (.normal, .eat)
  | .ss3 => (.normal, if c = 0x41 then .up else if c = 0x42 then .down else .eat)
  | .csi n n2 more =>
    if 0x30 ≤ c ∧ c ≤ 0x39 then
      let digit := Int32.ofNat (c - 0x30).toNat
      if more = true then (.csi n (n2 * 10 + digit) more, .eat)
      else (.csi (n * 10 + digit) n2 more, .eat)
    else if c = 0x3b then (.csi n n2 true, .eat)
    else if 0x40 ≤ c ∧ c ≤ 0x7e then (.normal, csiKey cycles n n2 more c)
    else (.csi n n2 more, .eat)
  | .normal => if c = 0x1b then (.esc, .eat) else (.normal, .none)

/-! ## The display, as far as it decides where keys go -/

namespace Console

/-- `basht_display_partial` on a stream with a line. -/
def displayPartial (s : Console) (o : Owner) (line : List UInt8) : Console :=
  { s with bot := if line ≠ [] then some o else if s.bot = some o then none else s.bot }

/-- `basht_display_stream_gone`. -/
def streamGone (s : Console) (o : Owner) : Console :=
  { s with bot := if s.bot = some o then none else s.bot }

end Console

/-! ## Lines for a task -/

/-- The relay streams of tasks. -/
inductive Rly where
  | fg
  | prompt
deriving DecidableEq, Repr

def Rly.owner : Rly → Owner
  | .fg => .fgRly
  | .prompt => .promptRly

namespace Console

def rly (s : Console) : Rly → Relay
  | .fg => s.fgRly
  | .prompt => s.promptRly

def setRly (s : Console) : Rly → Relay → Console
  | .fg, r => { s with fgRly := r }
  | .prompt, r => { s with promptRly := r }

def setSlot (s : Console) (i : Fin MAX_CAPS) (sl : Slot) : Console :=
  { s with slots := Function.update s.slots i sl }

end Console

/-- `relay_prefix`. -/
def relayPrefix (sl : Slot) (r : Relay) : Relay :=
  if r.text ≠ [] then r
  else if sl.out ≠ [] then { r with fix := sl.out.take (CAP / 2), typed := [] }
  else if sl.err ≠ [] then { r with fix := sl.err.take (CAP / 2), typed := [] }
  else r

namespace Console

/-- Enter's echo ends the pending line of the task. -/
def completeLine (s : Console) (i : Fin MAX_CAPS) : Console :=
  if (s.slots i).out ≠ [] then
    (s.setSlot i { s.slots i with out := [] }).displayPartial (.stream (.out i)) []
  else if (s.slots i).err ≠ [] then
    (s.setSlot i { s.slots i with err := [] }).displayPartial (.stream (.err i)) []
  else s

/-- Enter in `relay_chars`. -/
def relayEnter (i : Fin MAX_CAPS) (r : Rly) (s : Console) : Console × List Out :=
  let v := relayPrefix (s.slots i) (s.rly r)
  let s' := (s.setRly r { v with fix := [], typed := [] }).displayPartial r.owner []
  (s'.completeLine i, (s.slots i).write i (v.typed ++ [0x0a]))

/-- Backspace in `relay_chars`. -/
def relayErase (r : Rly) (s : Console) : Console :=
  let v := { s.rly r with typed := (s.rly r).typed.dropLast }
  (s.setRly r v).displayPartial r.owner v.text

/-- A printable character in `relay_chars`. -/
def relayType (i : Fin MAX_CAPS) (r : Rly) (c : UInt8) (s : Console) : Console :=
  let v := relayPrefix (s.slots i) (s.rly r)
  let v' := if v.text.length < CAP - 2 then { v with typed := v.typed ++ [c] } else v
  (s.setRly r v').displayPartial r.owner v'.text

/-- The key in `relay_chars`, when `key_escape` leaves it alone. -/
def relayKey (i : Fin MAX_CAPS) (r : Rly) (c : UInt8) (s : Console) : Console × List Out :=
  if c = 0x03 ∨ c = 0x1a then
    if (s.slots i).signalsHere then (s, [.signal (s.slots i).cap.pid (sigOf c)])
    else (s, (s.slots i).write i [c])
  else if c = 0x04 then (s, (s.slots i).write i [c])
  else if c = 0x0d ∨ c = 0x0a then s.relayEnter i r
  else if c = 0x7f ∨ c = 0x08 then (s.relayErase r, [])
  else if c = 0x09 ∨ 0x20 ≤ c then (s.relayType i r c, [])
  else (s, [])

/-- The body of the loop of `relay_chars`. -/
def relayChar (i : Fin MAX_CAPS) (r : Rly) (s : Console) (c : UInt8) : Console × List Out :=
  let e := keyEscape true (s.rly r).esc c
  let s' := s.setRly r { s.rly r with esc := e.1 }
  match e.2 with
  | .none => s'.relayKey i r c
  | .eat | .up | .down => (s', [])
  | .cycle d => (cycleOwner d s', [.cycle d])

end Console

/-! ## Keystrokes for a task -/

/-- A cycle key as `relay_raw` looks for it, or another byte. -/
inductive RawKey where
  | cycle (d : Dir)
  | byte (b : UInt8)
deriving DecidableEq, Repr

/-- The test for a cycle key in `relay_raw`. -/
def cycleKey? : List UInt8 → Option Dir
  | c₀ :: c₁ :: c₂ :: c₃ :: c₄ :: c₅ :: _ =>
    if c₀ = 0x1b ∧ c₁ = 0x5b ∧ c₂ = 0x31 ∧ c₃ = 0x3b ∧ c₄ = 0x33 then
      if c₅ = 0x43 then some .right else if c₅ = 0x44 then some .left else none
    else none
  | _ => none

/-- The keys of a burst, as the loop of `relay_raw` finds them. -/
def rawKeys : List UInt8 → List RawKey
  | [] => []
  | c :: buf =>
    match cycleKey? (c :: buf) with
    | some d => .cycle d :: rawKeys (buf.drop 5)
    | none => .byte c :: rawKeys buf
termination_by buf => buf.length

/-- The body of the loop of `relay_raw`. -/
def Console.relayRawKey (i : Fin MAX_CAPS) (s : Console) : RawKey → Console × List Out
  | .cycle d => (cycleOwner d s, [.cycle d])
  | .byte c =>
    if ((s.slots i).keyIsig && (s.slots i).signalsHere) = true ∧ (c = 0x03 ∨ c = 0x1a) then
      (s, [.signal (s.slots i).cap.pid (sigOf c)])
    else (s, (s.slots i).write i [c])

end Basht.Keyboard
