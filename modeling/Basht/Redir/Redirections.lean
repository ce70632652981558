import Basht.Library.Descriptors

/-!
# Redirections

`do_redirections` and the undo list, from `redir.c` and `execute_cmd.c`: which descriptors are
open on what. A redirection carries what the expansion of its word gives and what opening its
file or making its here-document gives. `RX_ACTIVE` is always set, and there are no `{var}`
prefixes.
-/

namespace Basht.Redir

open Descriptors

/-- `enum r_instruction`. -/
inductive Instruction where
  | outputDirection
  | inputDirection
  | inputaDirection
  | appendingTo
  | readingUntil
  | readingString
  | duplicatingInput
  | duplicatingOutput
  | deblankReadingUntil
  | closeThis
  | errAndOut
  | inputOutput
  | outputForce
  | duplicatingInputWord
  | duplicatingOutputWord
  | moveInput
  | moveOutput
  | moveInputWord
  | moveOutputWord
  | appendErrAndOut
  deriving DecidableEq

/-- `REDIRECT`. Of the redirectee: its `dest`; the word, expanded; and the file that is opened
for it, if that succeeds, with the descriptor from which a free one is taken. -/
structure Redirect (F : Type) where
  redirector : Int
  instruction : Instruction
  dest : Int
  word : Option (List Char)
  opened : Option (Int × F)

/-- The descriptors and `redirection_undo_list`. -/
structure State (F : Type) where
  table : Table F
  undoList : List (Redirect F)

/-- `SHELL_FD_BASE`. -/
def shellFdBase : Int := 10

variable {F : Type}

/-! ## Words -/

/-- `all_digits`. -/
def allDigits (w : List Char) : Bool := w.all Char.isDigit

/-- `valid_number` of digits. -/
def validNumber (w : List Char) : Option Int :=
  let n := w.foldl (fun n c => 10 * n + (c.toNat - '0'.toNat)) 0
  if w = [] ∨ 9223372036854775808 ≤ n then none else some n

/-- `rd.dest` for a word of digits. -/
def wordDest (w : List Char) : Int :=
  match validNumber w with
  | some lfd => if lfd < 2147483648 then lfd else -1
  | none => -1

/-- What an `[N]>&WORD[-]` or `[N]<&WORD[-]` is translated to; none is `AMBIGUOUS_REDIRECT`. -/
def translate (r : Redirect F) (ri : Instruction) : Option (Redirect F) :=
  match r.word with
  | none =>
    if r.instruction = .moveInputWord ∨ r.instruction = .moveOutputWord then
      some { r with instruction := .closeThis, dest := 0 }
    else none
  | some w =>
    if w = ['-'] then some { r with instruction := .closeThis, dest := 0 }
    else if allDigits w then some { r with instruction := ri, dest := wordDest w }
    else if r.instruction = .duplicatingOutputWord ∧ r.redirector = 1 then
      some { r with instruction := .errAndOut }
    else none

/-! ## The undo list -/

def State.setTable (s : State F) (t : Table F) : State F := { s with table := t }

/-- `add_undo_redirect`. -/
def addUndoRedirect (s : State F) (fd fdbase : Int) : Option (State F) :=
  let newFd := (s.table.dupfd fd (if fdbase < shellFdBase then shellFdBase else fdbase + 1)).or
    ((s.table.dupfd fd shellFdBase).or (s.table.dupfd fd 0))
  match newFd with
  | none => none
  | some newFd =>
    let closer : Redirect F := ⟨newFd, .closeThis, 0, none, none⟩
    let newRedirect : Redirect F :=
      ⟨fd, if fd = 0 then .duplicatingInput else .duplicatingOutput, newFd, none, none⟩
    some ⟨s.table.set newFd (s.table.file fd), newRedirect :: closer :: s.undoList⟩

/-- `add_undo_close_redirect`. -/
def addUndoCloseRedirect (s : State F) (fd : Int) : State F :=
  { s with undoList := ⟨fd, .closeThis, 0, none, none⟩ :: s.undoList }

/-- The undo entry for `redirector`, which is about to change. -/
def addUndo (s : State F) (redirector fdbase : Int) : Option (State F) :=
  if (s.table.file redirector).isSome then addUndoRedirect s redirector fdbase
  else some (addUndoCloseRedirect s redirector)

/-! ## Redirections

Each returns the state and whether there is an error. -/

/-- `redir_open` and `here_document_to_fd`. -/
def redirOpen (t : Table F) (opened : Option (Int × F)) : Option (Int × F) :=
  opened.bind fun o => (t.free o.1).map fun fd => (fd, o.2)

/-- A file or here-document is opened and put on `redirector`. -/
def redirectFile (undoable : Bool) (s : State F) (redirector : Int) (opened : Option (Int × F)) :
    State F × Bool :=
  match redirOpen s.table opened with
  | none => (s, true)
  | some (fd, file) =>
    let s := s.setTable (s.table.set fd (some file))
    let saved :=
      if undoable then
        if fd ≠ redirector then addUndo s redirector (-1)
        else some (addUndoCloseRedirect s redirector)
      else some s
    match saved with
    | none => (s.setTable (s.table.close fd), true)
    | some s =>
      if fd = redirector then (s, false)
      else
        match s.table.dup2 fd redirector with
        | none => (s.setTable (s.table.close fd), true)
        | some t => (s.setTable (t.close fd), false)

/-- The second half of `&>`. What `add_undo_redirect` returns is ignored. -/
def redirectErr (undoable : Bool) (s : State F) : State F × Bool :=
  let s := if undoable then (addUndoRedirect s 2 (-1)).getD s else s
  match s.table.dup2 1 2 with
  | none => (s, true)
  | some t => (s.setTable t, false)

/-- `[N]<&M` and `[N]<&M-`; `dest` is M. -/
def duplicate (undoable : Bool) (s : State F) (redirector dest : Int) (move : Bool) :
    State F × Bool :=
  if dest = redirector then (s, false)
  else
    match if undoable then addUndo s redirector dest else some s with
    | none => (s, true)
    | some s =>
      let saved :=
        if undoable && move && (s.table.file redirector).isSome then addUndoRedirect s dest (-1)
        else some s
      match saved with
      | none => (s, true)
      | some s =>
        match s.table.dup2 dest redirector with
        | none => (s, true)
        | some t => (s.setTable (if move then t.close dest else t), false)

/-- `[N]<&-`; the error of `add_undo_redirect` closes `redirector`. -/
def closeThis (undoable : Bool) (s : State F) (redirector : Int) : State F × Bool :=
  match if undoable then addUndo s redirector (-1) else some s with
  | none => (s.setTable (s.table.close redirector), true)
  | some s => (s.setTable (s.table.close redirector), false)

/-- The redirection behind its translation. -/
def perform (undoable : Bool) (s : State F) (r : Redirect F) : State F × Bool :=
  match r.instruction with
  | .outputDirection | .appendingTo | .inputDirection | .inputaDirection | .inputOutput
  | .outputForce => redirectFile undoable s r.redirector r.opened
  | .errAndOut | .appendErrAndOut =>
    match redirectFile undoable s r.redirector r.opened with
    | (s, true) => (s, true)
    | (s, false) => redirectErr undoable s
  | .readingUntil | .deblankReadingUntil | .readingString =>
    redirectFile undoable s r.redirector r.opened
  | .duplicatingInput | .duplicatingOutput => duplicate undoable s r.redirector r.dest false
  | .moveInput | .moveOutput => duplicate undoable s r.redirector r.dest true
  | .closeThis => closeThis undoable s r.redirector
  | .duplicatingInputWord | .duplicatingOutputWord | .moveInputWord | .moveOutputWord =>
    (s, false)

/-- `TRANSLATE_REDIRECT`. -/
def translated (r : Redirect F) : Option (Redirect F) :=
  match r.instruction with
  | .duplicatingInputWord => translate r .duplicatingInput
  | .duplicatingOutputWord => translate r .duplicatingOutput
  | .moveInputWord => translate r .moveInput
  | .moveOutputWord => translate r .moveOutput
  | _ => some r

/-- `do_redirection_internal`. -/
def doRedirectionInternal (undoable : Bool) (s : State F) (r : Redirect F) : State F × Bool :=
  match translated r with
  | none => (s, true)
  | some r => perform undoable s r

/-- The loop of `do_redirections`. -/
def redirectionLoop (undoable : Bool) (s : State F) : List (Redirect F) → State F × Bool
  | [] => (s, false)
  | r :: list =>
    match doRedirectionInternal undoable s r with
    | (s, true) => (s, true)
    | (s, false) => redirectionLoop undoable s list

/-- `do_redirections`; `undoable` is `flags & RX_UNDOABLE`. -/
def doRedirections (undoable : Bool) (s : State F) (list : List (Redirect F)) :
    State F × Bool :=
  redirectionLoop undoable (if undoable then { s with undoList := [] } else s) list

end Basht.Redir
