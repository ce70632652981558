import Basht.Library.Simulation

/-!
# The history list (`lib/readline/history.c`)

The entries are pointers in a block of memory, `real_history`. The list is a window into it: it
starts at `the_history`, has `history_length` entries and ends with a null pointer. Entries are
dropped at the front by moving the window; when it meets the end of the block, it is moved back to
the start. Reads and writes outside of the block, null pointers that are followed and entries that
are used after they were freed are faults. Requests for memory are granted.
-/

namespace Basht.History

/-- A string: its bytes without the NUL. -/
abbrev Line := List UInt8

abbrev Address := Nat

/-- `HIST_ENTRY` -/
structure Entry where
  line : Line
  timestamp : Option Line
  data : Option Nat
deriving DecidableEq

inductive Fault where
  | bounds
  | null
  | freed
deriving DecidableEq

/-- The globals of `history.c`, and the entries that are allocated. -/
structure Hist where
  /-- `real_history`, of `real_history_size` slots. -/
  realHistory : List (Option Address)
  /-- `the_history - real_history`; both are null as long as there is no block. -/
  theHistory : Nat
  stifled : Bool
  /-- `history_size` -/
  size : Nat
  maxEntries : Nat
  offset : Nat
  length : Nat
  base : Nat
  entry : Address → Option Entry
  /-- Addresses from here on have not been used. -/
  next : Address

/-- Before the first call. -/
def start : Hist where
  realHistory := []
  theHistory := 0
  stifled := false
  size := 0
  maxEntries := 0
  offset := 0
  length := 0
  base := 1
  entry _ := none
  next := 0

namespace Hist

/-! ## Memory -/

/-- A new entry. -/
def alloc (h : Hist) (e : Entry) : Hist :=
  { h with entry := fun a => if a = h.next then some e else h.entry a, next := h.next + 1 }

def deref (h : Hist) : Option Address → Except Fault Entry
  | none => .error .null
  | some a =>
    match h.entry a with
    | none => .error .freed
    | some e => .ok e

/-- `free_history_entry` -/
def freeHistoryEntry (h : Hist) : Option Address → Except Fault Hist
  | none => .ok h
  | some a =>
    match h.entry a with
    | none => .error .freed
    | some _ => .ok { h with entry := fun b => if b = a then none else h.entry b }

/-- `the_history[i]` -/
def read (h : Hist) (i : Nat) : Except Fault (Option Address) :=
  match h.realHistory[h.theHistory + i]? with
  | none => .error .bounds
  | some p => .ok p

/-- `the_history[i] = p` -/
def write (h : Hist) (i : Nat) (p : Option Address) : Except Fault Hist :=
  if h.theHistory + i < h.realHistory.length then
    .ok { h with realHistory := h.realHistory.set (h.theHistory + i) p }
  else .error .bounds

/-- `memmove` of `n` slots inside of the block. -/
def memmove (h : Hist) (dst src n : Nat) : Except Fault Hist :=
  if dst + n ≤ h.realHistory.length ∧ src + n ≤ h.realHistory.length then
    .ok { h with
      realHistory := h.realHistory.take dst ++ (h.realHistory.drop src).take n ++
        h.realHistory.drop (dst + n) }
  else .error .bounds

/-! ## Room for entries -/

/-- `_bit_length` -/
def bitLength (n : Nat) : Nat :=
  if n = 0 then 0 else bitLength (n / 2) + 1
termination_by n
decreasing_by omega

/-- `history_list_grow_size` -/
def listGrowSize (h : Hist) : Nat :=
  if h.length < 1 <<< 10 then 256
  else
    let width := 10 + bitLength (h.length >>> 10)
    max 256 ((1 <<< (width / 2)) + (1 <<< ((width - 1) / 2)))

/-- `history_list_resize` -/
def listResize (h : Hist) (newSize : Nat) : Except Fault Hist :=
  if newSize < h.length then .ok h
  else
    (if h.theHistory ≠ 0 then h.memmove 0 h.theHistory h.length else .ok h) >>= fun h =>
    -- what the new slots hold does not matter: all from `history_length` on are set below
    let real := h.realHistory ++ List.replicate (newSize - h.realHistory.length) none
    .ok { h with
      realHistory := real.take h.length ++ List.replicate (real.length - h.length) none
      theHistory := 0
      size := real.length }

/-- `advance_history` -/
def advance (h : Hist) : Except Fault Hist :=
  let h := { h with theHistory := h.theHistory + 1, size := h.size - 1 }
  if h.length = h.size then h.listResize (h.length + h.listGrowSize) else .ok h

/-! ## The entries -/

/-- The end of `add_history`: a new entry is put behind `n - 1` others. -/
def putLast (h : Hist) (n : Nat) (e : Entry) : Except Fault Hist := do
  let p := h.next
  let h ← (h.alloc e).write n none
  let h ← h.write (n - 1) (some p)
  .ok { h with length := n }

/-- `add_history`, at the time that `timestamp` says. -/
def addHistory (h : Hist) (string timestamp : Line) : Except Fault Hist :=
  if h.stifled ∧ h.length = h.maxEntries then
    if h.length = 0 then .ok h
    else do
      let p ← h.read 0
      let h ← h.freeHistoryEntry p
      let h ← h.advance
      ({ h with base := h.base + 1 }).putLast h.length ⟨string, some timestamp, none⟩
  else if h.size = 0 then do
    let initialSize :=
      if h.stifled ∧ 0 < h.maxEntries then
        if 8192 < h.maxEntries then 8192 else h.maxEntries + 2
      else 502
    let h ← h.listResize initialSize
    h.putLast 1 ⟨string, some timestamp, none⟩
  else
    (if h.length = h.size - 1 then h.listResize (h.realHistory.length + h.listGrowSize)
      else .ok h) >>= fun h => h.putLast (h.length + 1) ⟨string, some timestamp, none⟩

/-- `*p = e`, for an entry that is allocated. -/
def setEntry (h : Hist) (p : Option Address) (e : Entry) : Except Fault Hist := do
  let _ ← h.deref p
  .ok { h with entry := fun a => if p = some a then some e else h.entry a }

/-- `add_history_time` -/
def addHistoryTime (h : Hist) (string : Line) : Except Fault Hist :=
  if h.length < 1 then .ok h
  else do
    let p ← h.read (h.length - 1)
    let e ← h.deref p
    h.setEntry p { e with timestamp := some string }

/-- `replace_history_entry`: with the old entry. -/
def replaceHistoryEntry (h : Hist) (which : Int) (line : Line) (data : Option Nat) :
    Except Fault (Hist × Option Address) :=
  if which < 0 ∨ (h.length : Int) ≤ which then .ok (h, none)
  else do
    let old ← h.read which.toNat
    let e ← h.deref old
    let temp := h.next
    let h ← (h.alloc ⟨line, e.timestamp, data⟩).write which.toNat (some temp)
    .ok (h, old)

/-- `remove_history`: with the entry that is removed. -/
def removeHistory (h : Hist) (which : Int) : Except Fault (Hist × Option Address) :=
  if which < 0 ∨ (h.length : Int) ≤ which ∨ h.length = 0 ∨ h.realHistory = [] then .ok (h, none)
  else do
    let value ← h.read which.toNat
    let start := h.theHistory + which.toNat
    let h ← h.memmove start (start + 1) (h.length - which.toNat)
    .ok ({ h with length := h.length - 1 }, value)

/-- The loop of `remove_history_range` that collects `n` entries from `i` on. -/
def readRange (h : Hist) (i : Nat) : Nat → Except Fault (List (Option Address))
  | 0 => .ok []
  | n + 1 => do
    let p ← h.read i
    let ps ← readRange h (i + 1) n
    .ok (p :: ps)

/-- `remove_history_range`: with the entries that are removed, if any. -/
def removeHistoryRange (h : Hist) (first last : Int) :
    Except Fault (Hist × List (Option Address)) :=
  if h.realHistory = [] ∨ h.length = 0 then .ok (h, [])
  else if first < 0 ∨ (h.length : Int) ≤ first ∨ last < 0 ∨ (h.length : Int) ≤ last then
    .ok (h, [])
  else if last < first then .ok (h, [])
  else do
    let n := last.toNat - first.toNat + 1
    let value ← h.readRange first.toNat n
    let h ← h.memmove (h.theHistory + first.toNat) (h.theHistory + last.toNat + 1)
      (h.length - last.toNat)
    .ok ({ h with length := h.length - n }, value)

/-! ## Stifling -/

/-- The entries from `i` on, `n` of them, are freed. -/
def freeRange (h : Hist) (i : Nat) : Nat → Except Fault Hist
  | 0 => .ok h
  | n + 1 => do
    let p ← h.read i
    let h ← h.freeHistoryEntry p
    freeRange h (i + 1) n

/-- The loop `the_history[j] = the_history[i]` for `n` slots. -/
def copyDown (h : Hist) (j i : Nat) : Nat → Except Fault Hist
  | 0 => .ok h
  | n + 1 => do
    let p ← h.read i
    let h ← h.write j p
    copyDown h (j + 1) (i + 1) n

/-- `stifle_history` -/
def stifleHistory (h : Hist) (max : Int) : Except Fault Hist :=
  let max := max.toNat
  (if max < h.length then do
    let h ← h.freeRange 0 (h.length - max)
    -- the base is set, not raised
    let h := { h with base := h.length - max }
    let h ← h.copyDown 0 (h.length - max) max
    let h ← h.write max none
    .ok { h with length := max }
  else .ok h) >>= fun h => .ok { h with stifled := true, maxEntries := max }

/-- `unstifle_history` -/
def unstifleHistory (h : Hist) : Hist × Int :=
  if h.stifled then ({ h with stifled := false }, h.maxEntries) else (h, -h.maxEntries)

/-- The loop of `clear_history`, with `n` entries to go from `i` on. -/
def clearRange (h : Hist) (i : Nat) : Nat → Except Fault Hist
  | 0 => .ok h
  | n + 1 => do
    let p ← h.read i
    let h ← h.freeHistoryEntry p
    let h ← h.write i none
    clearRange h (i + 1) n

/-- `clear_history` -/
def clearHistory (h : Hist) : Except Fault Hist := do
  let h ← h.clearRange 0 h.length
  .ok { h with offset := 0, length := 0, base := 1 }

/-! ## Moving around -/

/-- `using_history` -/
def usingHistory (h : Hist) : Hist := { h with offset := h.length }

/-- `history_set_pos` -/
def setPos (h : Hist) (pos : Int) : Hist × Bool :=
  if (h.length : Int) < pos ∨ pos < 0 ∨ h.realHistory = [] then (h, false)
  else ({ h with offset := pos.toNat }, true)

/-- `current_history` -/
def currentHistory (h : Hist) : Except Fault (Option Address) :=
  if h.offset = h.length ∨ h.realHistory = [] then .ok none else h.read h.offset

/-- `previous_history` -/
def previousHistory (h : Hist) : Except Fault (Hist × Option Address) :=
  if h.offset = 0 then .ok (h, none)
  else do
    let p ← h.read (h.offset - 1)
    .ok ({ h with offset := h.offset - 1 }, p)

/-- `next_history` -/
def nextHistory (h : Hist) : Except Fault (Hist × Option Address) :=
  if h.offset = h.length then .ok (h, none)
  else do
    let p ← h.read (h.offset + 1)
    .ok ({ h with offset := h.offset + 1 }, p)

/-- `history_get` -/
def get (h : Hist) (offset : Int) : Except Fault (Option Address) :=
  let i := offset - h.base
  if (h.length : Int) ≤ i ∨ i < 0 ∨ h.realHistory = [] then .ok none else h.read i.toNat

end Hist

end Basht.History
