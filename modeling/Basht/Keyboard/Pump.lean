import Basht.Keyboard.Relay

/-!
# What a read of the keyboard does

`basht_fg_pump` and `basht_getc` choose the target once for each read, prepare its relay
(`fgArrive`, `promptArrive`) and hand it what was read. At the end of a foreground episode what
has been typed and not been sent goes to readline's input queue (`fgEnd`).

The pump runs without the window branch here: a task in a window is never the foreground task
(`fgCap`), and when it becomes one its relay stands down (`standDown`).
-/

namespace Basht.Keyboard

open Basht.Filter Basht.Tasks

/-- `ibuffer_len`. -/
def IBUFFER_LEN : Nat := 511

/-- The keyboard: the routers, the shell's type-ahead line with the history it browses, and the
input queue of readline. -/
structure Pump extends Console where
  taEsc : Esc
  taHist : Option Nat
  taStash : List UInt8
  history : List (List UInt8)
  ibuffer : RingBuffer UInt8 IBUFFER_LEN

namespace Pump

def setConsole (s : Pump) (c : Console) : Pump := { s with toConsole := c }

/-- `rl_stuff_char` on some bytes, one after the other. -/
def stuff (s : Pump) (bytes : List UInt8) : Pump :=
  { s with ibuffer := s.ibuffer.stuffAll bytes }

/-! ## The type-ahead line of the shell -/

/-- The line that is typed, shown. -/
def setTypeAhead (s : Pump) (line : List UInt8) : Pump :=
  let r := { s.taRly with fix := [], typed := line }
  s.setConsole (({ s.toConsole with taRly := r }).displayPartial .taRly line)

/-- `ta_set`. -/
def taSet (s : Pump) (line : List UInt8) : Pump := s.setTypeAhead (line.take (CAP - 2))

/-- `ta_history`. -/
def taHistory (s : Pump) (up : Bool) : Pump :=
  if s.history = [] then s
  else
    match s.taHist with
    | none =>
      if up = false then s
      else
        let h := s.history.length - 1
        ({ s with taStash := s.taRly.text, taHist := some h }).taSet (s.history.getD h [])
    | some h =>
      if up = true then ({ s with taHist := some (h - 1) }).taSet (s.history.getD (h - 1) [])
      else if s.history.length ≤ h + 1 then ({ s with taHist := none }).taSet s.taStash
      else ({ s with taHist := some (h + 1) }).taSet (s.history.getD (h + 1) [])

/-- Enter on the type-ahead line. -/
def typeAheadEnter (s : Pump) : Pump :=
  let s' := ({ (s.stuff s.taRly.text).stuff [0x0a] with taHist := none }).setTypeAhead []
  s'.setConsole { s'.toConsole with bot := some (.stream .self) }

/-- The key in the type-ahead branch of `basht_fg_pump`, when `key_escape` leaves it alone. -/
def typeAheadKey (s : Pump) (c : UInt8) : Pump × List Out :=
  if c = 0x03 ∨ c = 0x1a then (s, [.signal s.fgPid (sigOf c)])
  else if c = 0x0d ∨ c = 0x0a then (s.typeAheadEnter, [])
  else if c = 0x7f ∨ c = 0x08 then (s.setTypeAhead s.taRly.text.dropLast, [])
  else if c = 0x09 ∨ 0x20 ≤ c then
    if s.taRly.text.length < CAP - 2 then (s.setTypeAhead (s.taRly.text ++ [c]), [])
    else (s.setTypeAhead s.taRly.text, [])
  else (s, [])

/-- The body of the loop of the type-ahead branch. -/
def typeAheadChar (s : Pump) (c : UInt8) : Pump × List Out :=
  let e := keyEscape true s.taEsc c
  let s' := { s with taEsc := e.1 }
  match e.2 with
  | .none => s'.typeAheadKey c
  | .eat => (s', [])
  | .up => (s'.taHistory true, [])
  | .down => (s'.taHistory false, [])
  | .cycle d => (s'.setConsole (Console.cycleOwner d s'.toConsole), [.cycle d])

/-! ## The relay of the prompt -/

/-- The typed text goes to readline: to its queue during a foreground episode, else into its
line. -/
def giveBack (s : Pump) (bytes : List UInt8) : Pump × List Out :=
  if s.InFg then (s.stuff bytes, []) else (s, bytes.map .insert)

/-- `prompt_relay_drop`. -/
def relayDrop (s : Pump) : Pump × List Out :=
  let r := { s.promptRly with fix := [], typed := [] }
  let c := ({ s.toConsole with promptRly := r }).streamGone .promptRly
  (s.setConsole { c with rslot := none }, s.promptRly.typed.map .insert)

/-- `prompt_relay_bind`. -/
def relayBind (s : Pump) (i : Fin MAX_CAPS) : Pump × List Out :=
  if s.rslot = some i ∧ s.promptRly.pid = (s.slots i).cap.pid then (s, [])
  else
    let g := s.giveBack s.promptRly.typed
    let r := { Relay.zeroed with pid := (s.slots i).cap.pid, id := (s.slots i).cap.id }
    (g.1.setConsole { g.1.toConsole with promptRly := r, rslot := some i }, g.2)

/-! ## Reads -/

/-- The relay that the bytes of a read go to. -/
inductive Sink where
  | line (i : Fin MAX_CAPS) (r : Rly)
  | raw (i : Fin MAX_CAPS)
  | typeAhead
deriving DecidableEq

/-- The typed text of a relay goes to the task, which reads keystrokes now. -/
def flush (s : Pump) (i : Fin MAX_CAPS) (r : Rly) : Pump × List Out :=
  let v := s.rly r
  let c :=
    if v.text ≠ [] then (s.setRly r { v with fix := [], typed := [] }).streamGone r.owner
    else s.toConsole
  (s.setConsole c, (s.slots i).write i v.typed)

/-- The target of a read in `basht_fg_pump`, for the foreground slot `c`. -/
def fgArrive (s : Pump) (c : Fin MAX_CAPS) : Pump × Sink × List Out :=
  let t := s.fgTarget c
  let s' := s.setConsole t.1
  match t.2 with
  | none => (s', .typeAhead, [])
  | some i =>
    if (s'.slots i).raw = true then
      if i = c then ((s'.flush i .fg).1, .raw i, (s'.flush i .fg).2) else (s', .raw i, [])
    else if i = c then (s', .line i .fg, [])
    else ((s'.relayBind i).1, .line i .prompt, (s'.relayBind i).2)

/-- The start of `basht_getc`'s loop: a dead relay binding expires. -/
def expire (s : Pump) : Pump × List Out :=
  if s.rslotDead = true then s.relayDrop else (s, [])

/-- The target of a read in `basht_getc`; without one, readline is given a byte. -/
def promptArrive (s : Pump) : Pump × Option Sink × List Out :=
  let e := s.expire
  match e.1.promptTarget with
  | none => (e.1, none, e.2)
  | some i =>
    if (e.1.slots i).raw = true then
      if e.1.rslot = some i then
        let f := e.1.flush i .prompt
        -- the owner of the bottom line is given up even when nothing has been typed
        let c := { f.1.toConsole.streamGone .promptRly with rslot := none }
        (f.1.setConsole c, some (.raw i), e.2 ++ f.2)
      else (e.1, some (.raw i), e.2)
    else ((e.1.relayBind i).1, some (.line i .prompt), e.2 ++ (e.1.relayBind i).2)

/-- `relay_chars`. -/
def lineReader (i : Fin MAX_CAPS) (r : Rly) : Transducer Pump UInt8 Out where
  step s c := (s.setConsole (s.relayChar i r c).1, (s.relayChar i r c).2)

/-- The loop of `relay_raw`. -/
def rawReader (i : Fin MAX_CAPS) : Transducer Pump RawKey Out where
  step s k := (s.setConsole (s.relayRawKey i k).1, (s.relayRawKey i k).2)

/-- The loop of the type-ahead branch. -/
def typeAheadReader : Transducer Pump UInt8 Out where
  step := typeAheadChar

/-- A read is handed to the relay of its target. -/
def feed (s : Pump) (buf : List UInt8) : Sink → Pump × List Out
  | .line i r => ((lineReader i r).final s buf, (lineReader i r).output s buf)
  | .raw i => ((rawReader i).final s (rawKeys buf), (rawReader i).output s (rawKeys buf))
  | .typeAhead => (typeAheadReader.final s buf, typeAheadReader.output s buf)

/-- A read during a foreground episode. -/
def fgRead (c : Fin MAX_CAPS) (s : Pump) (buf : List UInt8) : Pump × List Out :=
  let a := s.fgArrive c
  let f := a.1.feed buf a.2.1
  (f.1, a.2.2 ++ f.2)

/-! ## The episode -/

/-- A foreground episode starts for the task in a slot. -/
def fgBegin (s : Pump) (c : Fin MAX_CAPS) : Pump :=
  let r := { Relay.zeroed with pid := (s.slots c).cap.pid, id := (s.slots c).cap.id }
  { s with
    fgPid := (s.slots c).cap.pid
    manualSel := none
    taEsc := .normal
    taHist := none
    taRly := .zeroed
    fgRly := r }

/-- The foreground task has come to be in a window: its relay is stood down. -/
def standDown (s : Pump) : Pump :=
  let r := { s.fgRly with fix := [], typed := [] }
  s.setConsole (({ s.toConsole with fgPid := -1, fgRly := r }).streamGone .fgRly)

/-- `basht_fg_end`. -/
def fgEnd (s : Pump) : Pump :=
  let s' := (s.stuff s.fgRly.typed).stuff s.taRly.text
  let r := { s.fgRly with fix := [], typed := [] }
  let t := { s.taRly with fix := [], typed := [] }
  let c := { s'.toConsole with fgPid := -1, manualSel := none, fgRly := r, taRly := t }
  { s'.setConsole ((c.streamGone .fgRly).streamGone .taRly) with taEsc := .normal, taHist := none }

/-- The keyboard with an empty input queue. -/
def of (c : Console) : Pump :=
  { c with
    taEsc := .normal
    taHist := none
    taStash := []
    history := []
    ibuffer := ⟨fun _ => 0, 0, 0, Nat.zero_le _, Nat.zero_le _⟩ }

/-- A task with the pid 7 in the first slot, in line mode or reading keystrokes. -/
def oneTask (icanon : Bool) : Pump :=
  .of { Console.idle with
    slots := Function.update (fun _ => .unused) 0
      { Slot.unused with
        cap := ⟨true, true, true, 7, .empty, 1, true⟩, icanon := fun _ => icanon } }

end Pump

end Basht.Keyboard
