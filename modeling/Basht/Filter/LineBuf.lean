import Mathlib.Data.Int.Basic
import Basht.Library.Buffer
import Basht.Library.Fallible

/-!
# The filter of an output stream

`basht_filter.c`: escape sequences are stripped, and the rest is assembled into lines by a
terminal of one line (`basht_linebuf`). Stores into the line are checked: a step that
would write outside `data` fails.

The lines `emit` hands to `basht_display_line` are the output of a step.
-/

namespace Basht.Filter

/-- `BASHT_LINEBUF_CAP`. -/
def CAP : Nat := 8192

/-- `WRAP_MARK`, without its NUL. -/
def wrapMark : List UInt8 := " [wrapped]".toList.map Char.toUInt8

/-- `sizeof WRAP_MARK`. -/
def sizeofWrapMark : Nat := 11

/-- `enum basht_filt_state`. -/
inductive FiltState where
  | normal
  | esc
  | csi
  | osc
  | oscEsc
deriving DecidableEq, Repr

/-- A completed line. -/
abbrev Line := List UInt8

/-- `struct basht_linebuf`, the fields the filter uses. -/
structure LineBuf where
  data : Buffer UInt8 CAP
  len : Nat
  cur : Nat
  moved : Bool
  fs : FiltState
  csiN : Int32
  csiMore : Bool
  csiPriv : Bool

namespace LineBuf

/-- A zeroed `struct basht_linebuf`. -/
def zeroed : LineBuf := ⟨Buffer.fill CAP 0, 0, 0, false, .normal, 0, false, false⟩

/-- The partial line. -/
def text (lb : LineBuf) : List UInt8 := lb.data.upTo lb.len

/-- `emit`: the line, and the buffer without it. -/
def emit (lb : LineBuf) : LineBuf × List Line := ({ lb with len := 0, cur := 0 }, [lb.text])

/-- `fresh`. -/
def fresh (lb : LineBuf) : LineBuf :=
  if lb.moved then { lb with len := 0, cur := 0, moved := false } else lb

/-- The forced line break at the start of `putch`. -/
def wrap (lb : LineBuf) : Except StoreFault (LineBuf × List Line) :=
  if lb.cur ≥ CAP - sizeofWrapMark then
    match lb.data.write lb.len wrapMark with
    | .error e => .error e
    | .ok data => .ok { lb with data := data, len := lb.len + (sizeofWrapMark - 1) }.emit
  else .ok (lb, [])

/-- The end of `putch`: the character is stored at the cursor. -/
def store (lb : LineBuf) (c : UInt8) : Except StoreFault LineBuf :=
  match lb.data.write lb.cur [c] with
  | .error e => .error e
  | .ok data => .ok { lb with data := data, cur := lb.cur + 1, len := max lb.len (lb.cur + 1) }

/-- `putch`. -/
def putch (lb : LineBuf) (c : UInt8) : Except StoreFault (LineBuf × List Line) :=
  match lb.fresh.wrap with
  | .error e => .error e
  | .ok (lb, lines) =>
    match lb.store c with
    | .error e => .error e
    | .ok lb => .ok (lb, lines)

/-- The count of a control sequence: `lb->csi_n > 0 ? (size_t)lb->csi_n : 1`. -/
def nn (lb : LineBuf) : Nat := if lb.csiN > 0 then lb.csiN.toInt.toNat else 1

/-- The final bytes at which the cursor leaves the line. -/
def leavesLine (c : UInt8) : Bool := c ∈ "ABEFHJSTdfr".toList.map Char.toUInt8

/-- The final bytes that edit the line or move the cursor in it. -/
def editsLine (c : UInt8) : Bool := c ∈ "KCDGP@X".toList.map Char.toUInt8

/-- The edits of a final byte on the line the cursor is on. -/
def edit (lb : LineBuf) (c : UInt8) : Except StoreFault LineBuf :=
  let tail := lb.len - lb.cur
  if c = 'K'.toUInt8 then .ok { lb with len := lb.cur }
  else if c = 'C'.toUInt8 then
    .ok { lb with cur := if lb.cur + lb.nn > lb.len then lb.len else lb.cur + lb.nn }
  else if c = 'D'.toUInt8 then
    .ok { lb with cur := if lb.nn > lb.cur then 0 else lb.cur - lb.nn }
  else if c = 'G'.toUInt8 then
    .ok { lb with cur := if lb.nn - 1 > lb.len then lb.len else lb.nn - 1 }
  else if c = 'P'.toUInt8 then
    let n := min lb.nn tail
    match lb.data.write lb.cur (lb.data.slice (lb.cur + n) (tail - n)) with
    | .error e => .error e
    | .ok data => .ok { lb with data := data, len := lb.len - n }
  else if c = '@'.toUInt8 then
    let n := min lb.nn (CAP - 1 - lb.len)
    match lb.data.write (lb.cur + n) (lb.data.slice lb.cur tail) with
    | .error e => .error e
    | .ok data =>
      match data.write lb.cur (List.replicate n 32) with
      | .error e => .error e
      | .ok data => .ok { lb with data := data, len := lb.len + n }
  else if c = 'X'.toUInt8 then
    match lb.data.write lb.cur (List.replicate (min lb.nn tail) 32) with
    | .error e => .error e
    | .ok data => .ok { lb with data := data }
  else .ok lb

/-- The final byte of a control sequence. -/
def csiFinal (lb : LineBuf) (c : UInt8) : Except StoreFault LineBuf :=
  let lb := if leavesLine c then { lb with moved := true } else if editsLine c then lb.fresh else lb
  match lb.edit c with
  | .error e => .error e
  | .ok lb => .ok { lb with fs := .normal }

/-- The byte ends a control sequence that asks for the full screen. -/
def fullScreen (lb : LineBuf) (c : UInt8) : Bool :=
  lb.fs == .csi && c == 'h'.toUInt8 && lb.csiPriv &&
    (lb.csiN == 1049 || lb.csiN == 1047 || lb.csiN == 47 || lb.csiN == 1004)

/-- The body of the loop of `basht_filter_bytes`. -/
def filterByte (lb : LineBuf) (c : UInt8) : Except StoreFault (LineBuf × List Line) :=
  match lb.fs with
  | .normal =>
    if c = 0x1b then .ok ({ lb with fs := .esc }, [])
    else if c = '\n'.toUInt8 then if lb.moved then .ok (lb.fresh, []) else .ok lb.emit
    else if c = '\r'.toUInt8 then .ok ({ lb.fresh with cur := 0 }, [])
    else if c = 0x08 then .ok ({ lb.fresh with cur := lb.fresh.cur - 1 }, [])
    else if c = '\t'.toUInt8 then lb.putch c
    else if c < 0x20 ∨ c = 0x7f then .ok (lb, [])
    else lb.putch c
  | .esc =>
    if c = '['.toUInt8 then
      .ok ({ lb with fs := .csi, csiN := 0, csiMore := false, csiPriv := false }, [])
    else if c = ']'.toUInt8 then .ok ({ lb with fs := .osc }, [])
    else if c ≥ 0x20 ∧ c ≤ 0x2f then .ok (lb, [])
    else if c = '8'.toUInt8 ∨ c = 'D'.toUInt8 ∨ c = 'M'.toUInt8 then
      .ok ({ lb with moved := true, fs := .normal }, [])
    else .ok ({ lb with fs := .normal }, [])
  | .csi =>
    if c ≥ '0'.toUInt8 ∧ c ≤ '9'.toUInt8 ∧ lb.csiMore = false then
      .ok ({ lb with csiN := lb.csiN * 10 + Int32.ofNat (c.toNat - 48) }, [])
    else if c = ';'.toUInt8 then .ok ({ lb with csiMore := true }, [])
    else if c = '?'.toUInt8 then .ok ({ lb with csiPriv := true }, [])
    else if c ≥ 0x40 ∧ c ≤ 0x7e then
      match lb.csiFinal c with
      | .error e => .error e
      | .ok lb => .ok (lb, [])
    else .ok (lb, [])
  | .osc =>
    if c = 0x07 then .ok ({ lb with fs := .normal }, [])
    else if c = 0x1b then .ok ({ lb with fs := .oscEsc }, [])
    else .ok (lb, [])
  | .oscEsc =>
    if c = '\\'.toUInt8 then .ok ({ lb with fs := .normal }, [])
    else if c ≠ 0x1b then .ok ({ lb with fs := .osc }, [])
    else .ok (lb, [])

end LineBuf

/-! ## Calls -/

/-- The loop of `basht_filter_bytes`: the buffer, the number `i` of bytes processed, and
whether the function has returned on a full-screen escape. -/
structure Loop where
  lb : LineBuf
  i : Nat
  returned : Bool

/-- One turn of the loop; nothing is done once the function has returned. `trigger` says
that the caller has passed one. -/
def Loop.turn (trigger : Bool) (s : Loop) (c : UInt8) : Except StoreFault (Loop × List Line) :=
  if s.returned then .ok (s, [])
  else
    match s.lb.filterByte c with
    | .error e => .error e
    | .ok (lb, lines) => .ok (⟨lb, s.i + 1, trigger && s.lb.fullScreen c⟩, lines)

/-- The loop of `basht_filter_bytes` on the bytes `buf`. -/
def filterLoop (trigger : Bool) (lb : LineBuf) (buf : List UInt8) :
    Except StoreFault (Loop × List Line) :=
  Fallible.exec (Loop.turn trigger) ⟨lb, 0, false⟩ buf

/-- What `basht_filter_flush` does to the buffer, and the line it emits. -/
def LineBuf.flush (lb : LineBuf) : LineBuf × List Line :=
  let r := if lb.moved then ({ lb with len := 0, cur := 0 }, [])
    else if lb.len > 0 then lb.emit
    else (lb, [])
  ({ r.1 with moved := false, fs := .normal }, r.2)

/-- A call on a stream. -/
inductive Call where
  | bytes (buf : List UInt8) (trigger : Bool)
  | flush
deriving DecidableEq, Repr

/-- What a call does to the line buffer, and the lines it completes. -/
def Call.run (lb : LineBuf) : Call → Except StoreFault (LineBuf × List Line)
  | .bytes buf trigger =>
    match filterLoop trigger lb buf with
    | .error e => .error e
    | .ok (s, lines) => .ok (s.lb, lines)
  | .flush => .ok lb.flush

end Basht.Filter
