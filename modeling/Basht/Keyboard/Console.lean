import Mathlib.Logic.Function.Iterate
import Basht.Library.Rotation
import Basht.Tasks.Table

/-!
# Who has the keyboard

Alt-left and alt-right cycle through the shell and the tasks that are inputting
(`basht_cycle_owner`). What is typed goes where the routers say: `fg_target` during a foreground
episode, by the selection that was made; `prompt_target` at the prompt, by the stream that is
shown on the bottom line.

The relay streams hold the line that is being typed for a task, behind the task's own partial
line, which is only displayed.
-/

namespace Basht.Keyboard

open Basht.Tasks

/-! ## Streams and slots -/

/-- The state of `key_escape` in a line buffer, with the fields it uses in each; `ss3` is what
`BF_OSC` is borrowed for. -/
inductive Esc where
  | normal
  | esc
  | ss3
  | csi (n n2 : Int32) (more : Bool)
deriving DecidableEq

/-- A relay stream: the task it is for, the display-only prefix of its line and what has been
typed behind it. -/
structure Relay where
  pid : Int32
  id : Int32
  fix : List UInt8
  typed : List UInt8
  esc : Esc
deriving DecidableEq

/-- `memset` to zero. -/
def Relay.zeroed : Relay := ⟨0, 0, [], [], .normal⟩

/-- `lb.data[0..lb.len)`. -/
def Relay.text (r : Relay) : List UInt8 := r.fix ++ r.typed

/-- A slot of `caps`: the task, whether it is or was in a window, the partial lines of its
streams, and the modes of its ptys. -/
structure Slot where
  cap : Cap
  windowed : Bool
  wWas : Bool
  out : List UInt8
  err : List UInt8
  icanon : Pty → Bool
  isig : Pty → Bool

namespace Slot

/-- A slot after `basht_init`. -/
def unused : Slot := ⟨.unused, false, false, [], [], fun _ => true, fun _ => true⟩

/-- The task has a partial line on a stream. -/
def MidLine (sl : Slot) : Prop := sl.out ≠ [] ∨ sl.err ≠ []

instance (sl : Slot) : Decidable sl.MidLine := inferInstanceAs (Decidable (_ ∨ _))

/-- The slot holds a task whose keyboard is at the console. -/
def AtConsole (sl : Slot) : Prop :=
  sl.cap.id ≠ 0 ∧ sl.cap.mIn = true ∧ sl.windowed = false ∧ sl.wWas = false

instance (sl : Slot) : Decidable sl.AtConsole := inferInstanceAs (Decidable (_ ∧ _ ∧ _ ∧ _))

end Slot

/-- The streams that may own the bottom line. -/
inductive Owner where
  | stream (s : StreamId)
  | fgRly
  | promptRly
  | taRly
deriving DecidableEq, Repr

/-- Where a key goes: the shell, or the task in a slot. -/
abbrev Target := Option (Fin MAX_CAPS)

/-- The variables of the keyboard's routers. -/
structure Console where
  slots : Fin MAX_CAPS → Slot
  fgPid : Int32
  manualSel : Option StreamId
  manualSelPid : Int32
  bot : Option Owner
  rslot : Option (Fin MAX_CAPS)
  fgRly : Relay
  promptRly : Relay
  taRly : Relay

/-- The console without tasks, at the prompt. -/
def Console.idle : Console where
  slots _ := .unused
  fgPid := -1
  manualSel := none
  manualSelPid := 0
  bot := none
  rslot := none
  fgRly := .zeroed
  promptRly := .zeroed
  taRly := .zeroed

inductive Dir where
  | left
  | right
deriving DecidableEq, Repr

namespace Console

/-! ## The cycle -/

/-- A foreground episode is open. -/
def InFg (s : Console) : Prop := 0 < s.fgPid

instance (s : Console) : Decidable s.InFg := inferInstanceAs (Decidable (_ < _))

/-- The slot has the pid of the foreground task. -/
def IsFg (s : Console) (i : Fin MAX_CAPS) : Prop := s.InFg ∧ (s.slots i).cap.pid = s.fgPid

instance (s : Console) (i : Fin MAX_CAPS) : Decidable (s.IsFg i) :=
  inferInstanceAs (Decidable (_ ∧ _))

/-- The slot is in the ring. -/
def Candidate (s : Console) (i : Fin MAX_CAPS) : Prop :=
  (s.slots i).AtConsole ∧ (s.IsFg i ∨ (s.slots i).MidLine)

instance (s : Console) (i : Fin MAX_CAPS) : Decidable (s.Candidate i) :=
  inferInstanceAs (Decidable (_ ∧ _))

/-- `slot[0..n)`. -/
def ring (s : Console) : List Target :=
  none :: ((List.finRange MAX_CAPS).filter fun i => s.Candidate i).map some

/-- The stream of a slot in `cand`. -/
def slotStream (s : Console) (i : Fin MAX_CAPS) : StreamId :=
  if (s.slots i).out ≠ [] then .out i else if (s.slots i).err ≠ [] then .err i else .out i

/-- `cand`. -/
def cand (s : Console) : Target → StreamId
  | none => .self
  | some i => s.slotStream i

/-- The condition under which the loop sets `cur`. -/
def At (s : Console) : Target → Prop
  | none =>
    if s.InFg then s.manualSel = some .self else s.bot = none ∨ s.bot = some (.stream .self)
  | some i =>
    if s.InFg then
      if s.manualSel = none then s.IsFg i
      else s.manualSel = some (.out i) ∨ s.manualSel = some (.err i)
    else s.bot = some (.stream (.out i)) ∨ s.bot = some (.stream (.err i)) ∨
      (s.bot = some .promptRly ∧ s.rslot = some i)

instance (s : Console) (t : Target) : Decidable (s.At t) := by
  cases t <;> unfold At <;> infer_instance

/-- `cur`, the last position that is found. -/
def cur (s : Console) : Option Nat :=
  (List.range s.ring.length).reverse.find? fun k => (s.ring[k]?).any fun t => s.At t

/-- `dir`, as it is added modulo `n`. -/
def Dir.places (n : Nat) : Dir → Nat
  | .right => 1
  | .left => n - 1

/-- `next`. -/
def next (s : Console) (d : Dir) : Nat :=
  match s.cur with
  | none => if d = .right then 0 else s.ring.length - 1
  | some k => (k + Dir.places s.ring.length d) % s.ring.length

/-- The candidate that is selected, if there is one to switch to. -/
def selected (s : Console) (d : Dir) : Option Target :=
  if s.ring.length < 2 then none else if s.cur = some (s.next d) then none else s.ring[s.next d]?

/-- `show`. -/
def showOf (s : Console) : Target → Owner
  | none => if s.InFg ∧ s.taRly.text ≠ [] then .taRly else .stream .self
  | some i =>
    if s.IsFg i ∧ s.fgRly.text ≠ [] then .fgRly
    else if s.rslot = some i ∧ s.promptRly.text ≠ [] then .promptRly
    else .stream (s.slotStream i)

/-- The effects of selecting a candidate. -/
def select (s : Console) (t : Target) : Console :=
  { s with
    manualSel := some (s.cand t)
    manualSelPid := t.elim (-1) fun i => (s.slots i).cap.pid
    bot := some (s.showOf t) }

/-- `basht_cycle_owner`. -/
def cycleOwner (d : Dir) (s : Console) : Console :=
  match s.selected d with
  | none => s
  | some t => s.select t

/-! ## The routers -/

/-- The test of `fg_target` on a slot, for the foreground slot `c`. -/
def Selects (s : Console) (c i : Fin MAX_CAPS) : Prop :=
  (s.manualSel = some (.out i) ∨ s.manualSel = some (.err i)) ∧
    (s.slots i).cap.pid = s.manualSelPid ∧ (s.slots i).cap.id ≠ 0 ∧
    (s.slots i).cap.mIn = true ∧ (i = c ∨ (s.slots i).MidLine)

instance (s : Console) (c i : Fin MAX_CAPS) : Decidable (s.Selects c i) :=
  inferInstanceAs (Decidable (_ ∧ _ ∧ _ ∧ _ ∧ _))

/-- `fg_target`. -/
def fgTarget (s : Console) (c : Fin MAX_CAPS) : Console × Target :=
  if s.manualSel = none then (s, some c)
  else if s.manualSel = some .self then (s, none)
  else
    match (List.finRange MAX_CAPS).find? fun i => s.Selects c i with
    | some i => (s, some i)
    | none => ({ s with manualSel := none }, some c)

/-- The foreground task, if its keyboard is at the console: `cp` in `basht_fg_pump`. -/
def fgCap (s : Console) : Option (Fin MAX_CAPS) :=
  ((List.finRange MAX_CAPS).find? fun i =>
    (s.slots i).cap.pid = s.fgPid ∧ (s.slots i).cap.id ≠ 0).filter fun i =>
      !(s.slots i).windowed && !(s.slots i).wWas

/-- The tests of `prompt_target` on the owner's slot. -/
def promptSlot (s : Console) (i : Fin MAX_CAPS) : Target :=
  if (s.slots i).AtConsole ∧ (s.slots i).MidLine then some i else none

/-- `prompt_target`. -/
def promptTarget (s : Console) : Target :=
  match s.bot with
  | some .promptRly =>
    match s.rslot with
    | none => none
    | some i =>
      if (s.slots i).cap.pid ≠ s.promptRly.pid ∨ (s.slots i).cap.id ≠ s.promptRly.id then none
      else s.promptSlot i
  | some (.stream (.out i)) | some (.stream (.err i)) => s.promptSlot i
  | none | some (.stream .self) | some .fgRly | some .taRly => none

/-- `rslot_dead`. -/
def rslotDead (s : Console) : Bool :=
  match s.rslot with
  | none => false
  | some i =>
    (s.slots i).cap.pid ≠ s.promptRly.pid || (s.slots i).cap.id ≠ s.promptRly.id ||
      !(s.slots i).cap.mIn || ((s.slots i).out.isEmpty && (s.slots i).err.isEmpty)

/-- The target of the next key, in either mode. -/
def target (s : Console) : Target :=
  if s.InFg then s.fgCap.bind fun c => (s.fgTarget c).2 else s.promptTarget

end Console

end Basht.Keyboard
