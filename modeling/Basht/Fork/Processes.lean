import Basht.Display.Console
import Basht.Tasks.Table

/-!
# The shell and the processes forked from it

A forked process has its own copy of the variables of `basht.c` and `basht_display.c`, and
shares the masters. `basht_child_stdio` clears `self_shell`, so its forks are not tasks;
`basht_active` stays set, and that is what `basht_drain` and `basht_fg_pump` test.

Tasks are numbered by the forks, so that a slot taken again belongs to another task. Each
call of `read` on a master is one step, and the steps of the processes interleave freely.
-/

namespace Basht.Fork

open Basht.Filter (Call)
open Basht.Display (Console Ident Write)
open Basht.Tasks (MAX_CAPS Pty ForkFlags Opened)

/-- The streams: `self`, and `out` and `err` of a task. -/
inductive Handle where
  | self
  | out (t : Nat)
  | err (t : Nat)
deriving DecidableEq, Repr

/-- The line counters: `self_lines`, and `lines` of a task. -/
inductive Counter where
  | self
  | task (t : Nat)
deriving DecidableEq, Repr

/-- The counter of a stream. -/
def Handle.lines : Handle → Option Counter
  | .self => some .self
  | .out t | .err t => some (.task t)

/-- The masters: `self_master`, and the three of a task. -/
inductive Master where
  | self
  | cap (t : Nat) (pty : Pty)
deriving DecidableEq, Repr

/-- The stream that shows what is read from the master. -/
def Master.stream : Master → Handle
  | .self => .self
  | .cap t .mErr => .err t
  | .cap t .mIn | .cap t .mOut => .out t

/-! ## One process -/

/-- A slot in use. Its in pty is open until `cap_free`. -/
structure Capture where
  task : Nat
  mOut : Bool
  mErr : Bool

def Capture.isOpen (cp : Capture) : Pty → Bool
  | .mIn => true
  | .mOut => cp.mOut
  | .mErr => cp.mErr

/-- The slot with the master closed. -/
def Capture.close (cp : Capture) : Pty → Capture
  | .mIn => cp
  | .mOut => { cp with mOut := false }
  | .mErr => { cp with mErr := false }

/-- The variables of a process. -/
structure Proc where
  active : Bool
  selfShell : Bool
  pumpLive : Bool
  chunks : List (List UInt8)
  caps : Fin MAX_CAPS → Option Capture
  pendSlot : Option (Fin MAX_CAPS)
  console : Console Handle Counter

/-- An operation of a process, or of the kernel. -/
inductive Out where
  /-- a task, or the driver's echo, writes to the slave -/
  | wrote (m : Master) (bytes : List UInt8)
  | read (p : Nat) (m : Master) (bytes : List UInt8)
  /-- a read of an in pty in canonical mode with `ECHO`: nothing is displayed -/
  | drop (p : Nat) (t : Nat) (bytes : List UInt8)
  /-- a call of the filter on the stream of the master -/
  | call (p : Nat) (m : Master) (c : Call)
  | write (p : Nat) (w : Write Handle)

/-- A step that cannot be taken, or a store outside a line buffer. -/
inductive Stuck where
  | impossible
  | fault (e : StoreFault)

namespace Proc

/-- After `basht_init`. The thread of the pump may not have been created. -/
def start (ident : Handle → Ident) (pumpLive : Bool) : Proc where
  active := true
  selfShell := true
  pumpLive := pumpLive
  chunks := []
  caps _ := none
  pendSlot := none
  console := .start ident Handle.lines (some .self)

def setCap (s : Proc) (i : Fin MAX_CAPS) (cp : Option Capture) : Proc :=
  { s with caps := Function.update s.caps i cp }

/-- `cap_free` of the slot `i`. -/
def capFree (s : Proc) (i : Fin MAX_CAPS) : Proc :=
  match s.caps i with
  | none => s
  | some cp =>
    { s.setCap i none with
      console := (s.console.streamGone (.out cp.task)).streamGone (.err cp.task) }

/-- The stale capture of a fork that was never completed is dropped. In a captured child this
is its own slot: `basht_fork_done` is called in the parent only. -/
def dropPending (s : Proc) : Proc :=
  match s.pendSlot with
  | none => s
  | some i => { s.capFree i with pendSlot := none }

/-- The slot `basht_fork_prepare` takes. -/
def freeSlot (s : Proc) : Option (Fin MAX_CAPS) :=
  (List.finRange MAX_CAPS).find? fun i => (s.caps i).isNone

/-- `basht_fork_prepare` of the fork `t`. -/
def forkPrepare (s : Proc) (flags : ForkFlags) (opened : Opened) (t : Nat) : Proc :=
  let s := s.dropPending
  if !s.active || !s.selfShell || flags.comsub || flags.procsub then s
  else
    match s.freeSlot with
    | none => s
    | some i =>
      if !opened.mIn || !opened.mOut || !opened.mErr then s
      else { s.setCap i (some ⟨t, true, true⟩) with pendSlot := some i }

/-- `basht_fork_done` in the parent. -/
def forkDone (s : Proc) (forked : Bool) : Proc :=
  if forked then { s with pendSlot := none } else s.dropPending

/-- `self_atfork_child`. -/
def atforkChild (s : Proc) : Proc :=
  if s.pumpLive then { s with chunks := [], pumpLive := false } else s

/-- `basht_child_stdio`: what it does to the variables. -/
def childStdio (s : Proc) : Proc := if s.active then { s with selfShell := false } else s

/-- A call of the filter on the stream of `m`, in the process `p`. -/
def filter (p : Nat) (m : Master) (s : Proc) (call : Call) : Except Stuck (Proc × List Out) :=
  match s.console.filterCall m.stream call with
  | .error e => .error (.fault e)
  | .ok (c, ws) => .ok ({ s with console := c }, .call p m call :: ws.map (.write p))

/-- What the pump appends. `full`: the last chunk is. -/
def append (s : Proc) (full : Bool) (bytes : List UInt8) : Proc :=
  match s.chunks.getLast? with
  | none => { s with chunks := [bytes] }
  | some tail =>
    if full then { s with chunks := s.chunks ++ [bytes] }
    else { s with chunks := s.chunks.dropLast ++ [tail ++ bytes] }

end Proc

/-! ## All processes -/

/-- The processes, and the queues of the ptys. `ended`: the slave is closed everywhere. -/
structure World where
  shell : Proc
  subshell : Nat → Option Proc
  forks : Nat
  queue : Master → List UInt8
  ended : Master → Bool

/-- A step. -/
inductive Act where
  | fork (p : Nat) (flags : ForkFlags) (opened : Opened) (forked : Bool)
  | write (m : Master) (bytes : List UInt8)
  | close (m : Master)
  /-- the pump's thread reads at most `n + 1` bytes -/
  | pump (n : Nat) (full : Bool)
  /-- `drain_self`, or one turn of `drain_self_direct` -/
  | drainSelf (p : Nat) (n : Nat)
  /-- one turn of `drain_cap_out`, `drain_cap_fd` or `drain_cap_in` -/
  | drainCap (p : Nat) (i : Fin MAX_CAPS) (pty : Pty) (n : Nat) (hidden : Bool)
  /-- the end of a turn of `drain_caps` -/
  | release (p : Nat) (i : Fin MAX_CAPS)
  | sync (p : Nat) (wsCol : Option Nat)
  | setDefault (p : Nat) (dflt : Bool)

/-- The process whose pid is `self.pid`. -/
def SHELL : Nat := 0

namespace World

def start (ident : Handle → Ident) (pumpLive : Bool) : World where
  shell := .start ident pumpLive
  subshell _ := none
  forks := 1
  queue _ := []
  ended _ := false

def proc (w : World) (p : Nat) : Option Proc := if p = SHELL then some w.shell else w.subshell p

def setProc (w : World) (p : Nat) (s : Proc) : World :=
  if p = SHELL then { w with shell := s }
  else { w with subshell := Function.update w.subshell p (some s) }

def setQueue (w : World) (m : Master) (bytes : List UInt8) : World :=
  { w with queue := Function.update w.queue m bytes }

/-- `make_child` in the process `p`, up to the return of the hooks. The child is the process
with the number of the fork. -/
def fork (w : World) (p : Nat) (s : Proc) (flags : ForkFlags) (opened : Opened) (forked : Bool) :
    World :=
  let t := s.forkPrepare flags opened w.forks
  let w' := { w with forks := w.forks + 1 }.setProc p (t.forkDone forked)
  if forked then w'.setProc w.forks t.atforkChild.childStdio else w'

/-- A call of `read` that returns bytes, and the filter on them. -/
def read (w : World) (p : Nat) (s : Proc) (m : Master) (n : Nat) :
    Except Stuck (World × List Out) :=
  let bytes := (w.queue m).take (n + 1)
  match s.filter p m (.bytes bytes false) with
  | .error e => .error e
  | .ok (s, outs) =>
    .ok ((w.setQueue m ((w.queue m).drop (n + 1))).setProc p s, .read p m bytes :: outs)

/-- `drain_self` while the pump is live: its chunks are taken. -/
def takeChunks (w : World) (p : Nat) (s : Proc) : Except Stuck (World × List Out) :=
  match Fallible.exec (Proc.filter p .self) { s with chunks := [] }
      (s.chunks.map (Call.bytes · false)) with
  | .error e => .error e
  | .ok (s, outs) => .ok (w.setProc p s, outs)

def drainSelf (w : World) (p : Nat) (s : Proc) (n : Nat) : Except Stuck (World × List Out) :=
  if s.pumpLive then w.takeChunks p s
  else if w.queue .self = [] then .ok (w, [])
  else w.read p s .self n

/-- One turn in the loop of a master: `read` returns bytes, or 0 or `EIO` once the slave is
closed, or `EAGAIN`. -/
def drainCap (w : World) (p : Nat) (s : Proc) (i : Fin MAX_CAPS) (pty : Pty) (n : Nat)
    (hidden : Bool) : Except Stuck (World × List Out) :=
  match s.caps i with
  | none => .ok (w, [])
  | some cp =>
    let m := Master.cap cp.task pty
    if cp.isOpen pty = false then .ok (w, [])
    else if w.queue m ≠ [] then
      if pty = .mIn ∧ hidden then
        .ok (w.setQueue m ((w.queue m).drop (n + 1)),
          [.drop p cp.task ((w.queue m).take (n + 1))])
      else w.read p s m n
    else if pty ≠ .mIn ∧ w.ended m then
      match s.filter p m .flush with
      | .error e => .error e
      | .ok (s, outs) => .ok (w.setProc p (s.setCap i (some (cp.close pty))), outs)
    else .ok (w, [])

/-- A slot is released once both output ptys are closed. -/
def release (w : World) (p : Nat) (s : Proc) (i : Fin MAX_CAPS) : World :=
  match s.caps i with
  | none => w
  | some cp => if cp.mOut = false ∧ cp.mErr = false then w.setProc p (s.capFree i) else w

def sync (w : World) (p : Nat) (s : Proc) (wsCol : Option Nat) :
    Except Stuck (World × List Out) :=
  match s.console.displaySync (Console.columns wsCol) with
  | .error e => .error (.fault e)
  | .ok (c, ws) => .ok (w.setProc p { s with console := c }, ws.map (.write p))

/-- What the process `p` does; nothing while `basht_active` is 0. -/
def active (w : World) (p : Nat) (k : Proc → Except Stuck (World × List Out)) :
    Except Stuck (World × List Out) :=
  match w.proc p with
  | none => .error .impossible
  | some s => if s.active then k s else .ok (w, [])

/-- One step. -/
def step (w : World) : Act → Except Stuck (World × List Out)
  | .fork p flags opened forked =>
    match w.proc p with
    | none => .error .impossible
    | some s => .ok (w.fork p s flags opened forked, [])
  | .write m bytes =>
    if w.ended m then .error .impossible
    else .ok (w.setQueue m (w.queue m ++ bytes), [.wrote m bytes])
  | .close m => .ok ({ w with ended := Function.update w.ended m true }, [])
  | .pump n full =>
    if w.shell.pumpLive = false ∨ w.queue .self = [] then .error .impossible
    else
      .ok ((w.setQueue .self ((w.queue .self).drop (n + 1))).setProc SHELL
          (w.shell.append full ((w.queue .self).take (n + 1))),
        [.read SHELL .self ((w.queue .self).take (n + 1))])
  | .drainSelf p n => w.active p fun s => w.drainSelf p s n
  | .drainCap p i pty n hidden => w.active p fun s => w.drainCap p s i pty n hidden
  | .release p i => w.active p fun s => .ok (w.release p s i, [])
  | .sync p wsCol => w.active p fun s => w.sync p s wsCol
  | .setDefault p dflt =>
    let owner := if dflt then some .self else none
    w.active p fun s => .ok (w.setProc p { s with console := s.console.setDefault owner }, [])

end World

end Basht.Fork
