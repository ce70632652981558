import Mathlib.Logic.Function.Basic
import Basht.Filter.LineBuf

/-!
# The console

`basht_display.c`, the single writer to the terminal: completed lines are written with
the tag of their stream, and the partial line of one stream, the owner of the bottom line,
is drawn beneath them.

Streams are handles `ι`, the line counters their `lines` point to are handles `κ`. Each
call of `basht_write_all` is one `Write`.
-/

namespace Basht.Display

open Basht.Filter

/-- `BASHT_NAME_MAX`. -/
def NAME_MAX : Nat := 64

/-- The size of the records in `basht_display_line` and `basht_display_sync`. -/
def sizeofOut : Nat := CAP + NAME_MAX + 64

/-- The fields of a stream that its tag shows. -/
structure Ident where
  name : List UInt8
  name_lt : name.length < NAME_MAX
  noNul : 0 ∉ name
  id : Int32
  mark : UInt8
  pid : Int32

/-- A task without a name. -/
def Ident.unnamed : Ident := ⟨[], by decide, List.not_mem_nil, 0, 0, 0⟩

/-- `BASHT_STREAM`. -/
structure Stream (κ : Type) extends Ident where
  lines : Option κ
  lb : LineBuf

/-- The variables of `basht_display.c`, and the streams and counters they are used with.
`dflt` is `def`. -/
structure Console (ι κ : Type) where
  stream : ι → Stream κ
  counter : κ → Int32
  bot : Option ι
  dflt : Option ι
  shown : Nat
  dirty : Bool
  tagfmt : Option (List UInt8)

/-- A call of `basht_write_all`: by `erase_bottom`, by `basht_display_line` for the line
`text` with the number `lineno`, or by `basht_display_sync` for the line it draws and for
the backspaces behind it. -/
inductive Write (ι : Type) where
  | erase (bytes : List UInt8)
  | line (s : ι) (lineno : Int32) (text bytes : List UInt8)
  | redraw (bytes : List UInt8)
  | park (bytes : List UInt8)

/-- The bytes written. -/
def Write.bytes {ι : Type} : Write ι → List UInt8
  | .erase bytes | .line _ _ _ bytes | .redraw bytes | .park bytes => bytes

/-! ## Columns -/

/-- The byte begins a character: it is no UTF-8 continuation byte. -/
def leads (b : UInt8) : Bool := b &&& 0xc0 != 0x80

/-- `count_cols`. -/
def countCols (s : List UInt8) : Nat := s.countP leads

/-- `clamp_cols`: the length of the prefix, and its columns. -/
def clampCols : Nat → List UInt8 → Nat × Nat
  | _, [] => (0, 0)
  | budget, b :: s =>
    if leads b then
      if budget = 0 then (0, 0)
      else ((clampCols (budget - 1) s).1 + 1, (clampCols (budget - 1) s).2 + 1)
    else ((clampCols budget s).1 + 1, (clampCols budget s).2)

/-! ## Tags -/

/-- `"%d"`. -/
def decimal (n : Int) : List UInt8 :=
  if n < 0 then '-'.toUInt8 :: (Nat.toDigits 10 n.natAbs).map Char.toUInt8
  else (Nat.toDigits 10 n.natAbs).map Char.toUInt8

/-- What `snprintf` into `size` bytes leaves in the bytes that `make_tag` counts: a text that
is too long ends with its NUL. -/
def snprintf (size : Nat) (s : List UInt8) : List UInt8 :=
  if s.length < size then s else s.take (size - 1) ++ [0]

/-- The built-in template. -/
def builtinTagfmt : List UInt8 := "[\\n:\\i:\\t:\\l]".toList.map Char.toUInt8

/-- What the escape `\e` of a template renders to, with `room` bytes left. -/
def tagField (ts : Ident) (lineno : Int32) (e : UInt8) (room : Nat) : List UInt8 :=
  if e = 'n'.toUInt8 then snprintf room ts.name
  else if e = 'i'.toUInt8 then
    snprintf room (decimal ts.id.toInt ++ if ts.mark ≠ 0 then [ts.mark] else [])
  else if e = 't'.toUInt8 then snprintf room (decimal ts.pid.toInt)
  else if e = 'l'.toUInt8 then snprintf room (decimal lineno.toInt)
  else if e = '\\'.toUInt8 then ['\\'.toUInt8]
  else ['\\'.toUInt8, e]

/-- The loop of `make_tag`, behind the bytes `out`. -/
def renderTag (cap : Nat) (ts : Ident) (lineno : Int32) : List UInt8 → List UInt8 → List UInt8
  | [], out => out
  | [f], out => if out.length + 2 < cap then out ++ [f] else out
  | f :: e :: fmt, out =>
    if out.length + 2 < cap then
      if f = '\\'.toUInt8 then
        renderTag cap ts lineno fmt (out ++ tagField ts lineno e (cap - out.length - 2))
      else renderTag cap ts lineno (e :: fmt) (out ++ [f])
    else out

/-- `make_tag`. The NUL behind the tag may fall behind the buffer. -/
def makeTag (tagfmt : Option (List UInt8)) (cap : Nat) (ts : Ident) (lineno : Int32) :
    Except StoreFault (List UInt8) :=
  let out := renderTag cap ts lineno (tagfmt.getD builtinTagfmt) []
  let out := if out = [] then out else out ++ [32]
  if out.length < cap then .ok out else .error ⟨out.length, 1⟩

/-! ## Writing -/

/-- `n` bytes `b` in writes of at most 128. -/
def padWrites (b : UInt8) (n : Nat) : List (List UInt8) :=
  if n = 0 then [] else List.replicate (min n 128) b :: padWrites b (n - min n 128)
termination_by n
decreasing_by omega

theorem flatten_padWrites (b : UInt8) (n : Nat) :
    (padWrites b n).flatten = List.replicate n b := by
  induction n using Nat.strongRecOn with
  | ind n ih =>
    rw [padWrites.eq_def]
    split_ifs with hn
    · simp [hn]
    · rw [List.flatten_cons, ih _ (by omega), List.replicate_append_replicate]
      congr 1
      omega

namespace Console

/-- The console before any output, with the default stream `dflt`. -/
def start {ι κ : Type} (ident : ι → Ident) (lines : ι → Option κ) (dflt : Option ι) :
    Console ι κ where
  stream s := ⟨ident s, lines s, .zeroed⟩
  counter _ := 0
  bot := none
  dflt := dflt
  shown := 0
  dirty := dflt.isSome
  tagfmt := none

variable {ι κ : Type} [DecidableEq ι] [DecidableEq κ]

/-- `basht_display_set_tagfmt`. -/
def setTagfmt {ι κ : Type} (c : Console ι κ) (fmt : Option (List UInt8)) : Console ι κ :=
  { c with tagfmt := fmt }

/-- `erase_bottom`: what is written. `shown` is 0 afterwards. -/
def eraseBottom (c : Console ι κ) : List (Write ι) :=
  if c.shown = 0 then []
  else ([['\r'.toUInt8]] ++ padWrites 32 c.shown ++ [['\r'.toUInt8]]).map .erase

/-- The number a completed line gets, and the counters after it. -/
def countLine (c : Console ι κ) (s : ι) : Int32 × (κ → Int32) :=
  match (c.stream s).lines with
  | some k => (c.counter k + 1, Function.update c.counter k (c.counter k + 1))
  | none => (0, c.counter)

/-- `basht_display_line`. -/
def displayLine (s : ι) (c : Console ι κ) (text : List UInt8) :
    Except StoreFault (Console ι κ × List (Write ι)) :=
  let ln := (c.countLine s).1
  match makeTag c.tagfmt sizeofOut (c.stream s).toIdent ln with
  | .error e => .error e
  | .ok tag =>
    let len := min text.length (sizeofOut - tag.length - 1)
    .ok ({ c with counter := (c.countLine s).2, shown := 0, dirty := true },
      c.eraseBottom ++ [.line s ln text (tag ++ text.take len ++ ['\n'.toUInt8])])

/-- The owner of the bottom line after `basht_display_partial` of `s` with a partial of `len`
bytes. -/
def takeOwnership (s : ι) (bot : Option ι) (len : Nat) : Option ι :=
  if len > 0 then some s else if bot = some s then none else bot

/-- `basht_display_partial`. -/
def displayPartial (c : Console ι κ) (s : ι) : Console ι κ :=
  { c with bot := takeOwnership s c.bot (c.stream s).lb.len, dirty := true }

/-- `basht_display_owner`. -/
def displayOwner (c : Console ι κ) : Option ι := c.bot

/-- `basht_display_set_default`. -/
def setDefault (dflt : Option ι) (c : Console ι κ) : Console ι κ :=
  if c.dflt = dflt then c else { c with dflt := dflt, dirty := true }

/-- `basht_display_stream_gone`. -/
def streamGone (s : ι) (c : Console ι κ) : Console ι κ :=
  { c with
    bot := if c.bot = some s then none else c.bot
    dirty := c.dirty || c.bot = some s
    dflt := if c.dflt = some s then none else c.dflt }

/-- The columns of the terminal, given what the `ioctl` reports. -/
def columns (wsCol : Option Nat) : Nat :=
  match wsCol with
  | some w => if w > 0 then w else 80
  | none => 80

/-- The number the pending bottom line will get. -/
def pendingNumber (c : Console ι κ) (s : ι) : Int32 :=
  match (c.stream s).lines with
  | some k => c.counter k + 1
  | none => 0

/-- The bottom line of a stream as `basht_display_sync` draws it: the tag, and the partial. -/
def bottomLine (c : Console ι κ) (s : ι) : Except StoreFault (List UInt8 × List UInt8) :=
  let ts := c.stream s
  match makeTag c.tagfmt sizeofOut ts.toIdent (c.pendingNumber s) with
  | .error e => .error e
  | .ok tag => .ok (tag, ts.lb.data.upTo (min ts.lb.len (sizeofOut - tag.length)))

/-- The backspaces that park the cursor at the byte `pos` of the line `out`, of which `drawn`
bytes are drawn. -/
def parkWrites (out : List UInt8) (pos drawn : Nat) : List (List UInt8) :=
  if pos < drawn then padWrites 8 (countCols ((out.drop pos).take (drawn - pos))) else []

theorem flatten_parkWrites (out : List UInt8) (pos drawn : Nat) :
    (parkWrites out pos drawn).flatten
      = List.replicate (countCols ((out.drop pos).take (drawn - pos))) 8 := by
  unfold parkWrites
  split
  · exact flatten_padWrites 8 _
  · rw [show drawn - pos = 0 by omega]
    rfl

/-- `basht_display_sync` on a terminal of `cols` columns. -/
def displaySync (cols : Nat) (c : Console ι κ) : Except StoreFault (Console ι κ × List (Write ι)) :=
  if c.dirty = false then .ok (c, [])
  else
    match c.bot <|> c.dflt with
    | none => .ok ({ c with dirty := false, shown := 0 }, c.eraseBottom)
    | some s =>
      match c.bottomLine s with
      | .error e => .error e
      | .ok (tag, text) =>
        let out := tag ++ text
        let clamped := clampCols (cols - 1) out
        .ok ({ c with dirty := false, shown := clamped.2 },
          c.eraseBottom ++ [.redraw (out.take clamped.1)] ++
            (parkWrites out (tag.length + (c.stream s).lb.cur) clamped.1).map .park)

omit [DecidableEq ι] [DecidableEq κ] in
theorem displaySync_ok {c : Console ι κ} (cols : Nat) (h : ∀ s, ∃ r, c.bottomLine s = .ok r) :
    ∃ r, c.displaySync cols = .ok r := by
  unfold displaySync
  split
  · exact ⟨_, rfl⟩
  · split
    · exact ⟨_, rfl⟩
    · rename_i s _
      obtain ⟨r, hr⟩ := h s
      rw [hr]
      exact ⟨_, rfl⟩

omit [DecidableEq ι] [DecidableEq κ] in
/-- What a sync does. -/
theorem displaySync_cases {c c' : Console ι κ} {cols : Nat} {ws : List (Write ι)}
    (h : c.displaySync cols = .ok (c', ws)) :
    (c.dirty = false ∧ c' = c ∧ ws = []) ∨
      (c.dirty = true ∧ (c.bot <|> c.dflt) = none ∧ c' = { c with dirty := false, shown := 0 } ∧
        ws = c.eraseBottom) ∨
      ∃ s tag text, c.dirty = true ∧ (c.bot <|> c.dflt) = some s ∧
        c.bottomLine s = .ok (tag, text) ∧
        c' = { c with dirty := false, shown := (clampCols (cols - 1) (tag ++ text)).2 } ∧
        ws = c.eraseBottom ++
          [.redraw ((tag ++ text).take (clampCols (cols - 1) (tag ++ text)).1)] ++
          (parkWrites (tag ++ text) (tag.length + (c.stream s).lb.cur)
            (clampCols (cols - 1) (tag ++ text)).1).map .park := by
  unfold displaySync at h
  split at h
  · rename_i hdirty
    cases h
    exact Or.inl ⟨hdirty, rfl, rfl⟩
  · rename_i hdirty
    rw [Bool.not_eq_false] at hdirty
    split at h
    · rename_i hnone
      cases h
      exact Or.inr (Or.inl ⟨hdirty, hnone, rfl, rfl⟩)
    · rename_i s hs
      split at h
      · cases h
      · rename_i tag text hline
        cases h
        exact Or.inr (Or.inr ⟨s, tag, text, hdirty, hs, hline, rfl, rfl⟩)

omit [DecidableEq ι] [DecidableEq κ] in
theorem displaySync_frame {c c' : Console ι κ} {cols : Nat} {ws : List (Write ι)}
    (h : c.displaySync cols = .ok (c', ws)) :
    c'.stream = c.stream ∧ c'.counter = c.counter ∧ c'.tagfmt = c.tagfmt := by
  rcases displaySync_cases h with ⟨-, rfl, -⟩ | ⟨-, -, rfl, -⟩ | ⟨_, _, _, -, -, -, rfl, -⟩ <;>
    exact ⟨rfl, rfl, rfl⟩

/-- The stream `s` with the line buffer `lb`. -/
def setLineBuf (c : Console ι κ) (s : ι) (lb : LineBuf) : Console ι κ :=
  { c with stream := Function.update c.stream s { c.stream s with lb := lb } }

/-- `basht_filter_bytes` and `basht_filter_flush` on the stream `s`: the lines completed are
displayed in their order, and then the partial. -/
def filterCall (c : Console ι κ) (s : ι) (call : Call) :
    Except StoreFault (Console ι κ × List (Write ι)) :=
  match call.run (c.stream s).lb with
  | .error e => .error e
  | .ok (lb, lines) =>
    Fallible.andThen (Fallible.exec (displayLine s) (c.setLineBuf s lb) lines) fun c =>
      .ok (c.displayPartial s, [])

end Console

/-- An operation on the console: a call of the filter on a stream, or a sync of the bottom
line on a terminal that reports the width `wsCol`. -/
inductive Op (ι : Type) where
  | filter (s : ι) (call : Call)
  | sync (wsCol : Option Nat)

variable {ι κ : Type} [DecidableEq ι] [DecidableEq κ]

/-- One operation. -/
def Console.step (c : Console ι κ) : Op ι → Except StoreFault (Console ι κ × List (Write ι))
  | .filter s call => c.filterCall s call
  | .sync wsCol => c.displaySync (Console.columns wsCol)

end Basht.Display
