import Basht.History.Window

/-!
# What the history list is for

A list of entries. With a maximum set it forgets the oldest one when another comes; the entries are
numbered from `base` on. The operations of the library are those of this list, as long as the
pointer of the interactive history is inside of the list when it is moved.
-/

namespace Basht.History

/-- The list, and the variables of the library that callers see. -/
structure Recall where
  entries : List Entry
  base : Nat
  offset : Nat
  stifled : Bool
  maxEntries : Nat
  /-- Something has been added at some time. -/
  started : Bool

namespace Recall

def empty : Recall := ⟨[], 1, 0, false, 0, false⟩

/-- The list is full. -/
def Full (q : Recall) : Prop := q.stifled = true ∧ q.entries.length = q.maxEntries

instance (q : Recall) : Decidable q.Full := inferInstanceAs (Decidable (_ ∧ _))

def add (q : Recall) (e : Entry) : Recall :=
  if q.Full then
    if q.entries = [] then q
    else { q with entries := q.entries.tail ++ [e], base := q.base + 1 }
  else { q with entries := q.entries ++ [e], started := true }

/-- The entry at an offset, if there is one. -/
def find (q : Recall) (i : Int) : Option (Nat × Entry) :=
  if i < 0 then none else q.entries[i.toNat]?.map fun e => (i.toNat, e)

def addTime (q : Recall) (timestamp : Line) : Recall :=
  match q.entries.getLast? with
  | none => q
  | some e => { q with entries := q.entries.dropLast ++ [{ e with timestamp := some timestamp }] }

def replace (q : Recall) (which : Int) (line : Line) (data : Option Nat) :
    Recall × Option Entry :=
  match q.find which with
  | none => (q, none)
  | some (i, e) => ({ q with entries := q.entries.set i ⟨line, e.timestamp, data⟩ }, some e)

def remove (q : Recall) (which : Int) : Recall × Option Entry :=
  match q.find which with
  | none => (q, none)
  | some (i, e) => ({ q with entries := q.entries.eraseIdx i }, some e)

def removeRange (q : Recall) (first last : Int) : Recall × List Entry :=
  match q.find first, q.find last with
  | some (i, _), some (j, _) =>
    if j < i then (q, [])
    else ({ q with entries := q.entries.take i ++ q.entries.drop (j + 1) },
      (q.entries.drop i).take (j + 1 - i))
  | _, _ => (q, [])

/-- The base is then the number of the entries that are forgotten. -/
def stifle (q : Recall) (max : Int) : Recall :=
  let forgotten := q.entries.length - max.toNat
  { q with
    entries := q.entries.drop forgotten
    base := if forgotten = 0 then q.base else forgotten
    stifled := true
    maxEntries := max.toNat }

def unstifle (q : Recall) : Recall × Int :=
  if q.stifled then ({ q with stifled := false }, q.maxEntries) else (q, -q.maxEntries)

def clear (q : Recall) : Recall := { q with entries := [], offset := 0, base := 1 }

def setPos (q : Recall) (pos : Int) : Recall × Bool :=
  if (q.entries.length : Int) < pos ∨ pos < 0 ∨ q.started = false then (q, false)
  else ({ q with offset := pos.toNat }, true)

def previous (q : Recall) : Recall × Option Entry :=
  if q.offset = 0 then (q, none)
  else ({ q with offset := q.offset - 1 }, q.entries[q.offset - 1]?)

def next (q : Recall) : Recall × Option Entry :=
  if q.offset = q.entries.length then (q, none)
  else ({ q with offset := q.offset + 1 }, q.entries[q.offset + 1]?)

/-- The entry with a number. -/
def get (q : Recall) (n : Int) : Option Entry := (q.find (n - q.base)).map Prod.snd

end Recall

/-! ## Operations -/

/-- The calls of the library. What is replaced or removed is freed by the caller. -/
inductive Op where
  | add (string timestamp : Line)
  | addTime (string : Line)
  | replace (which : Int) (line : Line) (data : Option Nat)
  | remove (which : Int)
  | removeRange (first last : Int)
  | stifle (max : Int)
  | unstifle
  | clear
  | using_
  | setPos (pos : Int)
  | current
  | previous
  | next
  | get (offset : Int)

inductive Out where
  | entry (e : Option Entry)
  | entries (es : List Entry)
  | number (n : Int)
  | flag (b : Bool)
deriving DecidableEq

/-- The calls, on the list. -/
def onList : Transducer Recall Op Out where
  step q
    | .add string timestamp => (q.add ⟨string, some timestamp, none⟩, [])
    | .addTime string => (q.addTime string, [])
    | .replace which line data => let r := q.replace which line data; (r.1, [.entry r.2])
    | .remove which => let r := q.remove which; (r.1, [.entry r.2])
    | .removeRange first last => let r := q.removeRange first last; (r.1, [.entries r.2])
    | .stifle max => (q.stifle max, [])
    | .unstifle => let r := q.unstifle; (r.1, [.number r.2])
    | .clear => (q.clear, [])
    | .using_ => ({ q with offset := q.entries.length }, [])
    | .setPos pos => let r := q.setPos pos; (r.1, [.flag r.2])
    | .current => (q, [.entry q.entries[q.offset]?])
    | .previous => let r := q.previous; (r.1, [.entry r.2])
    | .next => let r := q.next; (r.1, [.entry r.2])
    | .get n => (q, [.entry (q.get n)])

namespace Hist

/-- What a pointer shows. -/
def contents (h : Hist) : Option Address → Except Fault (Option Entry)
  | none => .ok none
  | some a => do
    let e ← h.deref (some a)
    .ok (some e)

/-- The caller has a look at an entry and frees it. -/
def takeOut (r : Hist × Option Address) : Except Fault (Hist × Option Entry) := do
  let e ← r.1.contents r.2
  let h ← r.1.freeHistoryEntry r.2
  .ok (h, e)

def takeOutAll (h : Hist) : List (Option Address) → Except Fault (Hist × List Entry)
  | [] => .ok (h, [])
  | p :: ps => do
    let e ← h.deref p
    let h ← h.freeHistoryEntry p
    let r ← takeOutAll h ps
    .ok (r.1, e :: r.2)

/-- The calls, in memory. -/
def step (h : Hist) : Op → Except Fault (Hist × List Out)
  | .add string timestamp => do
    let h ← h.addHistory string timestamp
    .ok (h, [])
  | .addTime string => do
    let h ← h.addHistoryTime string
    .ok (h, [])
  | .replace which line data => do
    let r ← h.replaceHistoryEntry which line data
    let r ← takeOut r
    .ok (r.1, [.entry r.2])
  | .remove which => do
    let r ← h.removeHistory which
    let r ← takeOut r
    .ok (r.1, [.entry r.2])
  | .removeRange first last => do
    let r ← h.removeHistoryRange first last
    let r ← r.1.takeOutAll r.2
    .ok (r.1, [.entries r.2])
  | .stifle max => do
    let h ← h.stifleHistory max
    .ok (h, [])
  | .unstifle => .ok (h.unstifleHistory.1, [.number h.unstifleHistory.2])
  | .clear => do
    let h ← h.clearHistory
    .ok (h, [])
  | .using_ => .ok (h.usingHistory, [])
  | .setPos pos => .ok ((h.setPos pos).1, [.flag (h.setPos pos).2])
  | .current => do
    let p ← h.currentHistory
    let e ← h.contents p
    .ok (h, [.entry e])
  | .previous => do
    let r ← h.previousHistory
    let e ← r.1.contents r.2
    .ok (r.1, [.entry e])
  | .next => do
    let r ← h.nextHistory
    let e ← r.1.contents r.2
    .ok (r.1, [.entry e])
  | .get n => do
    let p ← h.get n
    let e ← h.contents p
    .ok (h, [.entry e])

end Hist

end Basht.History
