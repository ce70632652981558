import Mathlib.Logic.Function.Basic
import Basht.Library.Descriptors
import Basht.Library.Fallible

/-!
# Buffered streams (`input.c`) and the redirections of `exec` (`redir.c`)

The shell reads its script through a buffered stream. Streams are found by descriptor: a
duplicated descriptor gets a copy of the stream record, which points to the same characters.
The open files of the kernel, with their offsets, and the allocated character buffers are
part of the state, so that a buffer that is used after it has been freed is seen.

The input of the shell is a buffered stream throughout, its files are regular, and the shell
is neither interactive nor an asynchronous subshell.
-/

namespace Basht.Input

open Descriptors

/-- An open file: its text, and the offset that all its descriptors share. -/
structure OpenFile where
  text : List UInt8
  offset : Nat
  deriving DecidableEq

/-- A `BUFFERED_STREAM`. The field `buffer` says which allocation `b_buffer` points to; `b_fd`
is the index of the record. -/
structure BufferedStream where
  buffer : Nat
  size : Nat
  used : Nat
  inputp : Nat
  error : Bool
  shared : Bool
  deriving DecidableEq

inductive Instruction where
  | inputDirection
  | duplicatingInput
  | duplicatingOutput
  | moveInput
  | closeThis
  deriving DecidableEq

/-- A `REDIRECT`; `text` is what the file holds that an `inputDirection` opens. The flags are
`RX_INTERNAL`, `RX_SAVEFD` and `RX_SAVCLEXEC`. -/
structure Redirect where
  redirector : Int
  instruction : Instruction
  dest : Int
  text : List UInt8
  internal : Bool
  savefd : Bool
  savclexec : Bool
  deriving DecidableEq

structure State where
  table : Table Nat
  clexec : Int → Bool
  files : List OpenFile
  heap : Nat → Option (List UInt8)
  heapCount : Nat
  buffers : Int → Option BufferedStream
  bashInput : Int
  undoList : List Redirect
  execUndoList : List Redirect

inductive HeapFault where
  | usedAfterFree
  | freedTwice
  | outOfBounds
  | nullStream
  deriving DecidableEq

/-- A character that `buffered_getchar` returns, and the open file and the position in it that
the descriptor of the input stood at: the offset less what is unread. -/
structure Returned where
  place : Option (Nat × Int)
  char : UInt8
  deriving DecidableEq

def shellFdBase : Int := 10

namespace State

def file (s : State) (f : Nat) : OpenFile := s.files.getD f ⟨[], 0⟩

/-! ## The kernel -/

/-- The copy of `fd` that `dup2` and `fcntl (fd, F_DUPFD, base)` make. -/
def copyFd (s : State) (fd newFd : Int) : State :=
  { s with
    table := s.table.set newFd (s.table.file fd)
    clexec := Function.update s.clexec newFd false }

def dup2 (s : State) (fd newFd : Int) : Option State :=
  if (s.table.file fd).isNone ∨ ¬s.table.InRange newFd then none else some (s.copyFd fd newFd)

def close (s : State) (fd : Int) : State := { s with table := s.table.close fd }

/-- `open`, on the free descriptor `fd`. -/
def openFile (s : State) (fd : Int) (text : List UInt8) : State :=
  { s with
    table := s.table.set fd (some s.files.length)
    clexec := Function.update s.clexec fd false
    files := s.files ++ [⟨text, 0⟩] }

def setClexec (s : State) (fd : Int) (b : Bool) : State :=
  { s with clexec := Function.update s.clexec fd b }

def setOffset (s : State) (f offset : Nat) : State :=
  { s with files := s.files.set f { s.file f with offset := offset } }

/-- `lseek (fd, -n, SEEK_CUR)`. -/
def seekBack (s : State) (fd : Int) (n : Nat) : State :=
  match s.table.file fd with
  | none => s
  | some f => if (s.file f).offset < n then s else s.setOffset f ((s.file f).offset - n)

def setStream (s : State) (fd : Int) (bp : Option BufferedStream) : State :=
  { s with buffers := Function.update s.buffers fd bp }

def setHeap (s : State) (buffer : Nat) (data : Option (List UInt8)) : State :=
  { s with heap := Function.update s.heap buffer data }

/-! ## `input.c` -/

/-- The characters in the buffer of the input that have not been returned. -/
def unread (s : State) : Nat :=
  match s.buffers s.bashInput with
  | none => 0
  | some bp => bp.used - bp.inputp

/-- Where the descriptor of the input stands. -/
def place (s : State) : Option (Nat × Int) :=
  (s.table.file s.bashInput).map fun f => (f, (s.file f).offset - s.unread)

/-- `sync_buffered_stream`. -/
def syncBufferedStream (s : State) (bfd : Int) : State :=
  match s.buffers bfd with
  | none => s
  | some bp =>
    let s := if bp.used - bp.inputp = 0 then s else s.seekBack bfd (bp.used - bp.inputp)
    s.setStream bfd (some { bp with used := 0, inputp := 0 })

/-- `free_buffered_stream`. -/
def freeBufferedStream (s : State) (fd : Int) : Except HeapFault State :=
  match s.buffers fd with
  | none => .ok s
  | some bp =>
    match s.heap bp.buffer with
    | none => .error .freedTwice
    | some _ => .ok ((s.setHeap bp.buffer none).setStream fd none)

/-- `free_buffered_stream`, where the buffer is left alone if it is shared. -/
def releaseBufferedStream (s : State) (fd : Int) : Except HeapFault State :=
  match s.buffers fd with
  | none => .ok s
  | some bp => if bp.shared then .ok (s.setStream fd none) else s.freeBufferedStream fd

/-- `close_buffered_fd`. -/
def closeBufferedFd (s : State) (fd : Int) : Except HeapFault State :=
  if fd < 0 then .ok s
  else (s.releaseBufferedStream fd).map fun s => s.close fd

variable (maxInputBufferSize : Nat)

/-- `fd_to_buffered_stream`; a closed descriptor gets no stream. -/
def fdToBufferedStream (s : State) (fd : Int) : State :=
  match s.table.file fd with
  | none => s
  | some f =>
    let size := min (s.file f).text.length maxInputBufferSize
    let size := if size = 0 then 1 else size
    { s with
      heap := Function.update s.heap s.heapCount (some (List.replicate size 0))
      heapCount := s.heapCount + 1
      buffers := Function.update s.buffers fd (some ⟨s.heapCount, size, 0, 0, false, false⟩) }

/-- The end of `save_bash_input`, with the new descriptor `nfd`. -/
def reinitBashInput (s : State) (fd nfd : Int) : Except HeapFault State := do
  let s ← s.releaseBufferedStream nfd
  let s ← (fdToBufferedStream maxInputBufferSize { s with bashInput := nfd } nfd).closeBufferedFd fd
  return s.setClexec nfd true

/-- `save_bash_input (fd, -1)`. -/
def saveBashInput (s : State) (fd : Int) : Except HeapFault State :=
  let s := s.syncBufferedStream fd
  match s.table.dupfd fd 10 with
  | none => .ok s
  | some nfd => reinitBashInput maxInputBufferSize (s.copyFd fd nfd) fd nfd

/-- `check_bash_input`. -/
def checkBashInput (s : State) (fd : Int) : Except HeapFault State :=
  if s.bashInput = fd then
    if 0 < fd then saveBashInput maxInputBufferSize s fd
    else if fd = 0 then .ok (s.syncBufferedStream fd)
    else .ok s
  else .ok s

/-- The stream of `fd2` is given up to a copy of that of `fd1`. -/
def dropBufferedStream (s : State) (fd1 fd2 : Int) : Except HeapFault State :=
  if (s.buffers fd1).map BufferedStream.buffer = (s.buffers fd2).map BufferedStream.buffer then
    .ok (s.setStream fd2 none)
  else s.releaseBufferedStream fd2

/-- The copy of the stream of `fd1` that `fd2` gets. -/
def copyBufferedStream (s : State) (fd1 fd2 : Int) : State :=
  let s := s.setStream fd2 (s.buffers fd1)
  if s.bashInput = fd2 ∧ s.buffers fd2 = none then fdToBufferedStream maxInputBufferSize s fd2
  else s

/-- `B_SHAREDBUF` for `fd2`. -/
def shareBufferedStream (s : State) (fd1 fd2 : Int) : State :=
  match s.buffers fd2 with
  | none => s
  | some bp =>
    if s.bashInput = fd1 ∨ (s.buffers fd1).any BufferedStream.shared then
      s.setStream fd2 (some { bp with shared := true })
    else s

/-- `duplicate_buffered_stream`. -/
def duplicateBufferedStream (s : State) (fd1 fd2 : Int) : Except HeapFault State :=
  if fd1 = fd2 then .ok s
  else do
    let s ← s.dropBufferedStream fd1 fd2
    let s := copyBufferedStream maxInputBufferSize s fd1 fd2
    if s.bashInput = fd2 ∧ s.buffers fd2 = none then .error .nullStream
    else .ok (s.shareBufferedStream fd1 fd2)

/-- `b_fill_buffer`: none where `read` fails, and the characters that it puts in the buffer. -/
def bFillBuffer (s : State) (bp : BufferedStream) : Except HeapFault (State × List Returned) :=
  let fd := s.bashInput
  if bp.error then .ok (s, [])
  else
    match s.heap bp.buffer with
    | none => .error .usedAfterFree
    | some data =>
      match s.table.file fd with
      | none =>
        .ok ((s.setHeap bp.buffer (some (data.set 0 0))).setStream fd
          (some { bp with used := 0, inputp := 0, error := true }), [])
      | some f =>
        match ((s.file f).text.drop (s.file f).offset).take bp.size with
        | [] =>
          .ok ((s.setHeap bp.buffer (some (data.set 0 0))).setStream fd
            (some { bp with used := 0, inputp := 0 }), [])
        | c :: rest =>
          .ok (((s.setOffset f ((s.file f).offset + (rest.length + 1))).setHeap bp.buffer
            (some (c :: rest ++ data.drop (rest.length + 1)))).setStream fd
              (some { bp with used := rest.length + 1, inputp := 1 }), [⟨s.place, c⟩])

/-- `buffered_getchar`; what it emits is empty at `EOF`. -/
def bufferedGetchar (s : State) : Except HeapFault (State × List Returned) :=
  if s.bashInput < 0 then .ok (s, [])
  else
    match s.buffers s.bashInput with
    | none => .ok (s, [])
    | some bp =>
      if bp.inputp = bp.used ∨ bp.used = 0 then s.bFillBuffer bp
      else
        match s.heap bp.buffer with
        | none => .error .usedAfterFree
        | some data =>
          match data[bp.inputp]? with
          | none => .error .outOfBounds
          | some c =>
            .ok (s.setStream s.bashInput (some { bp with inputp := bp.inputp + 1 }),
              [⟨s.place, c⟩])

/-! ## `redir.c` -/

/-- `F_DUPFD`, with the new descriptor. -/
def dupfd (s : State) (fd base : Int) : Option (State × Int) :=
  (s.table.dupfd fd base).map fun newFd => (s.copyFd fd newFd, newFd)

/-- The entries of `add_undo_redirect` when `fd` has been saved on `newFd`. -/
def addUndoEntries (s : State) (fd newFd : Int) (ri : Instruction) (savefd : Bool) : State :=
  let clexecFlag := s.clexec fd
  let savclexec := decide (clexecFlag = false ∧ 3 ≤ fd ∧ (shellFdBase ≤ newFd ∨ savefd = true))
  let closer : Redirect := ⟨newFd, .closeThis, 0, [], true, false, false⟩
  let newRedirect : Redirect :=
    ⟨fd, if fd = 0 then .duplicatingInput else .duplicatingOutput, newFd, [], true, savefd,
      savclexec⟩
  let restorer : Redirect := ⟨fd, .duplicatingOutput, newFd, [], true, false, false⟩
  let execUndoList := closer :: s.execUndoList
  { s with
    clexec := Function.update s.clexec newFd (clexecFlag || decide (fd < 3) || savclexec)
    undoList := newRedirect :: closer :: s.undoList
    execUndoList :=
      if shellFdBase ≤ fd ∧ ri ≠ .closeThis ∧ clexecFlag = true then restorer :: execUndoList
      else execUndoList }

/-- `add_undo_redirect`. -/
def addUndoRedirect (s : State) (fd : Int) (ri : Instruction) (fdbase : Int) : Option State :=
  match (s.dupfd fd (if fdbase < shellFdBase then shellFdBase else fdbase + 1)).or
      (s.dupfd fd shellFdBase) with
  | some (s, newFd) => some (s.addUndoEntries fd newFd ri false)
  | none =>
    match s.dupfd fd 0 with
    | some (s, newFd) => some (s.addUndoEntries fd newFd ri true)
    | none => none

/-- `add_undo_close_redirect`. -/
def addUndoCloseRedirect (s : State) (fd : Int) : State :=
  { s with undoList := ⟨fd, .closeThis, 0, [], true, false, false⟩ :: s.undoList }

/-- The undo entry for `redirector`; the flag says that there is an error. -/
def addUndo (s : State) (redirector : Int) (ri : Instruction) (fdbase : Int) : State × Bool :=
  if (s.table.file redirector).isSome then
    match s.addUndoRedirect redirector ri fdbase with
    | none => (s, true)
    | some s => (s, false)
  else (s.addUndoCloseRedirect redirector, false)

/-- What `N<&M` and `N<&M-` do before they change `N`. -/
def saveForDuplicate (s : State) (r : Redirect) : State × Bool :=
  let p := s.addUndo r.redirector r.instruction r.dest
  if p.2 = false ∧ r.instruction = .moveInput ∧ (p.1.table.file r.redirector).isSome then
    match p.1.addUndoRedirect r.dest .closeThis (-1) with
    | none => (p.1, true)
    | some s => (s, false)
  else p

/-- The close-on-exec flag of a duplicated descriptor. -/
def duplicateClexec (s : State) (r : Redirect) : State :=
  let s :=
    if (s.clexec r.dest = true ∨ (r.dest < 2 ∧ r.internal = true)) ∧ 2 < r.redirector then
      s.setClexec r.redirector true
    else s
  if r.internal = true ∧ r.savclexec = true ∧ 3 ≤ r.redirector ∧
      (shellFdBase ≤ r.dest ∨ r.savefd = true) then
    s.setClexec r.redirector false
  else s

/-- `N<&M`, `N>&M` or `N<&M-` from `dup2` on. -/
def duplicateOnto (s : State) (r : Redirect) : Except HeapFault (State × Bool) :=
  match s.dup2 r.dest r.redirector with
  | none => .ok (s, true)
  | some s => do
    let s ←
      if r.instruction = .duplicatingOutput then .ok s
      else duplicateBufferedStream maxInputBufferSize s r.dest r.redirector
    let s := s.duplicateClexec r
    return (if r.instruction = .moveInput then s.close r.dest else s, false)

def redirectDuplicate (undoable : Bool) (s : State) (r : Redirect) :
    Except HeapFault (State × Bool) :=
  if r.dest = r.redirector then .ok (s, false)
  else if undoable then
    let p := s.saveForDuplicate r
    if p.2 then .ok p
    else do
      let s ← checkBashInput maxInputBufferSize p.1 r.redirector
      duplicateOnto maxInputBufferSize s r
  else duplicateOnto maxInputBufferSize s r

/-- `N<&-`. -/
def redirectClose (undoable : Bool) (s : State) (r : Redirect) :
    Except HeapFault (State × Bool) :=
  if undoable then
    let p := s.addUndo r.redirector r.instruction (-1)
    if p.2 then .ok (p.1.close r.redirector, true)
    else do
      let s ← checkBashInput maxInputBufferSize p.1 r.redirector
      let s ← s.closeBufferedFd r.redirector
      return (s, false)
  else do
    let s ← s.closeBufferedFd r.redirector
    return (s, false)

/-- The undo entry for `N<FILE`, with the file open on `fd`. -/
def saveForFile (s : State) (r : Redirect) (fd : Int) : State × Bool :=
  if fd ≠ r.redirector then s.addUndo r.redirector r.instruction (-1)
  else (s.addUndoCloseRedirect r.redirector, false)

/-- The file that is open on `fd` is put on the redirector. -/
def moveFileOnto (s : State) (r : Redirect) (fd : Int) : Except HeapFault (State × Bool) :=
  if fd = r.redirector then .ok (s, false)
  else
    match s.dup2 fd r.redirector with
    | none => .ok (s.close fd, true)
    | some s => do
      let s ← duplicateBufferedStream maxInputBufferSize s fd r.redirector
      let s ← s.closeBufferedFd fd
      return (s, false)

/-- `N<FILE`. -/
def redirectFile (undoable : Bool) (s : State) (r : Redirect) : Except HeapFault (State × Bool) :=
  match s.table.free 0 with
  | none => .ok (s, true)
  | some fd =>
    let s := s.openFile fd r.text
    if undoable then
      let p := s.saveForFile r fd
      if p.2 then .ok (p.1.close fd, true)
      else do
        let s ← checkBashInput maxInputBufferSize p.1 r.redirector
        moveFileOnto maxInputBufferSize s r fd
    else moveFileOnto maxInputBufferSize s r fd

/-- `do_redirection_internal`; the flag says that there is an error. -/
def doRedirectionInternal (undoable : Bool) (s : State) (r : Redirect) :
    Except HeapFault (State × Bool) :=
  match r.instruction with
  | .inputDirection => redirectFile maxInputBufferSize undoable s r
  | .duplicatingInput => redirectDuplicate maxInputBufferSize undoable s r
  | .duplicatingOutput => redirectDuplicate maxInputBufferSize undoable s r
  | .moveInput => redirectDuplicate maxInputBufferSize undoable s r
  | .closeThis => redirectClose maxInputBufferSize undoable s r

/-- `do_redirections (list, RX_ACTIVE)`. -/
def doRedirections (s : State) : List Redirect → Except HeapFault (State × Bool)
  | [] => .ok (s, false)
  | r :: list => do
    let p ← doRedirectionInternal maxInputBufferSize false s r
    if p.2 then .ok p else doRedirections p.1 list

/-- `undo_partial_redirects`. -/
def undoPartialRedirects (s : State) : Except HeapFault State := do
  let p ← doRedirections maxInputBufferSize s s.undoList
  return { p.1 with undoList := [] }

/-- `execute_builtin_or_function`, for `exec` with the redirection `r` and no command. -/
def execRedirect (s : State) (r : Redirect) : Except HeapFault State := do
  let p ← doRedirectionInternal maxInputBufferSize true
    { s with undoList := [], execUndoList := [] } r
  let s := if p.2 then p.1 else { p.1 with undoList := p.1.execUndoList }
  undoPartialRedirects maxInputBufferSize { s with execUndoList := [] }

/-! ## Runs -/

/-- `with_input_from_buffered_stream`. -/
def withInputFromBufferedStream (s : State) (bfd : Int) : State :=
  fdToBufferedStream maxInputBufferSize { s with bashInput := bfd } bfd

end State

/-- The redirections `N<FILE`, `N<&M`, `N<&M-` and `N<&-`. -/
inductive Redirection where
  | file (redirector : Int) (text : List UInt8)
  | duplicate (redirector dest : Int)
  | move (redirector dest : Int)
  | close (redirector : Int)

def Redirection.toRedirect : Redirection → Redirect
  | file n text => ⟨n, .inputDirection, 0, text, false, false, false⟩
  | duplicate n m => ⟨n, .duplicatingInput, m, [], false, false, false⟩
  | move n m => ⟨n, .moveInput, m, [], false, false, false⟩
  | close n => ⟨n, .closeThis, 0, [], false, false, false⟩

inductive Op where
  | getchar
  | exec (r : Redirection)

def step (maxInputBufferSize : Nat) (s : State) : Op → Except HeapFault (State × List Returned)
  | .getchar => s.bufferedGetchar
  | .exec r => (s.execRedirect maxInputBufferSize r.toRedirect).map fun s => (s, [])

end Basht.Input
