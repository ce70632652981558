import Mathlib.Data.List.Rotate

/-!
# `pushd`, `popd` and `dirs`

The builtins of `pushd.def`: `pushd_directory_list` and the current directory. Where `cd` leads
to is `dest`; whether it succeeds, whether the name of the current directory can be found and
whether the output can be written are the outcomes of a call.
-/

namespace Basht.Dirs

abbrev Word := List Char

/-- What happens outside of a call. -/
structure Outcome where
  getcwd : Bool
  cd : Bool
  chkwrite : Bool

/-- What a builtin returns. -/
inductive Status where
  | success
  | failure
  | usage
  deriving DecidableEq

/-- `pushd_directory_list` up to `directory_list_offset`, and the current directory. -/
structure State where
  directoryList : List (Option Word)
  current : Word

namespace State

/-- `directory_list_offset`. -/
def offset (s : State) : Nat := s.directoryList.length

/-- `get_working_directory`. -/
def getWorkingDirectory (s : State) (o : Outcome) : Option Word :=
  if o.getcwd then some s.current else none

end State

/-! ## Words -/

/-- `ISOPTION`. -/
def isOption (w : Word) (c : Char) : Bool := w == ['-', c]

/-- `ISHELP`. -/
def isHelp (w : Word) : Bool := w == "--help".toList

/-- `isspace`. -/
def isSpace (c : Char) : Bool := c == ' ' || (9 ≤ c.toNat && c.toNat ≤ 13)

/-- `strtoimax` with base 10: the value of the digits and what follows them. -/
def digits (n : Nat) : Word → Nat × Word
  | [] => (n, [])
  | c :: w => if c.isDigit then digits (10 * n + (c.toNat - '0'.toNat)) w else (n, c :: w)

/-- `valid_number`. -/
def validNumber (w : Word) : Option Int :=
  let w := w.dropWhile isSpace
  let negative := w.head? == some '-'
  let w := if negative || w.head? == some '+' then w.tail else w
  let (n, rest) := digits 0 w
  let value : Int := if negative then -n else n
  if !(w.head?.any Char.isDigit) || !rest.all isSpace then none
  else if value < -9223372036854775808 || 9223372036854775807 < value then none
  else some value

section

variable (dest : Word → List Word → Word)

/-! ## Changing the directory -/

/-- `cd_builtin`. -/
def cdBuiltin (s : State) (args : List Word) (o : Outcome) : State × Status :=
  if o.cd then ({ s with current := dest s.current args }, .success) else (s, .failure)

/-- `cd_to_string`. -/
def cdToString (s : State) (name : Option Word) (o : Outcome) : State × Status :=
  cdBuiltin dest s [['-', '-'], name.getD []] o

/-- `change_to_temp`. -/
def changeToTemp (s : State) (temp : Option Word) (o : Outcome) : State × Status :=
  match temp with
  | none => (s, .failure)
  | some _ => cdToString dest s temp o

/-! ## The list -/

/-- Moves the first `k` entries up, from the last of them on. -/
def moveUp (l : List (Option Word)) : Nat → List (Option Word)
  | 0 => l
  | j + 1 => moveUp (l.set (j + 1) (l.getD j none)) j

/-- One turn of the loop of `pushd_builtin`: the new list and the new `temp`. -/
def rotateOnce (l : List (Option Word)) (temp : Option Word) :
    List (Option Word) × Option Word :=
  ((moveUp l (l.length - 1)).set 0 temp, l.getD (l.length - 1) none)

def rotateTimes (l : List (Option Word)) (temp : Option Word) :
    Nat → List (Option Word) × Option Word
  | 0 => (l, temp)
  | n + 1 => rotateTimes (rotateOnce l temp).1 (rotateOnce l temp).2 n

/-- Moves `k` entries down to `i` and the entries behind it. -/
def moveDown (l : List (Option Word)) (i : Nat) : Nat → List (Option Word)
  | 0 => l
  | k + 1 => moveDown (l.set i (l.getD (i + 1) none)) (i + 1) k

/-- Entry `i` is removed. -/
def removeEntry (l : List (Option Word)) (i : Nat) : List (Option Word) :=
  (moveDown l i (l.length - 1 - i)).take (l.length - 1)

/-! ## `pushd` -/

/-- Behind the options of `pushd_builtin`: `flags & NOCD`, `num` if `flags & ROTATE`, and the
words that are left. -/
structure PushdArgs where
  noCd : Bool
  num : Option Int
  words : List Word

/-- The loop over the words; an error is what the builtin returns. -/
def pushdLoop (offset : Nat) (a : PushdArgs) : List Word → Except Status PushdArgs
  | [] => .ok { a with words := [] }
  | w :: list =>
    if isOption w 'n' then pushdLoop offset { a with noCd := true } list
    else if isOption w '-' then .ok { a with words := list }
    else if w = ['-'] then .ok { a with words := w :: list }
    else if w.head? = some '+' ∨ w.head? = some '-' then
      match validNumber w.tail with
      | none => .error .usage
      | some num =>
        let num := if w.head? = some '-' then offset - num else num
        if offset < num ∨ num < 0 then .error .failure
        else pushdLoop offset { a with num := some num } list
    else .ok { a with words := w :: list }

/-- `pushd` without arguments. -/
def exchange (s : State) (o : Outcome) : State × Status :=
  if s.offset = 0 then (s, .failure)
  else
    match s.getWorkingDirectory o with
    | none => (s, .failure)
    | some currentDirectory =>
      let j := s.offset - 1
      changeToTemp dest { s with directoryList := s.directoryList.set j (some currentDirectory) }
        (s.directoryList.getD j none) o

/-- `pushd +N` and `pushd -N`. -/
def rotate (s : State) (num : Nat) (noCd : Bool) (o : Outcome) : State × Status :=
  let r := rotateTimes s.directoryList (s.getWorkingDirectory o) num
  let s := { s with directoryList := r.1 }
  if noCd then (s, .success) else changeToTemp dest s r.2 o

/-- `pushd DIR`; `args` is the argument list of `cd_builtin`. -/
def push (s : State) (noCd : Bool) (word : Word) (args : List Word) (o : Outcome) :
    State × Status :=
  match s.getWorkingDirectory o with
  | none => (s, .failure)
  | some currentDirectory =>
    let r := if noCd then (s, .success) else cdBuiltin dest s args o
    if r.2 = .success then
      ({ r.1 with directoryList :=
          r.1.directoryList ++ [some (if noCd then word else currentDirectory)] }, .success)
    else (r.1, .failure)

/-- `pushd_builtin`. -/
def pushdBuiltin (s : State) (list : List Word) (o : Outcome) : State × Status :=
  if list.head?.any isHelp then (s, .usage)
  else if list.head?.any fun w => isOption w '-' then
    match list.tail with
    | [] => exchange dest s o
    | word :: _ => push dest s false word list o
  else if list = [] then exchange dest s o
  else
    match pushdLoop s.offset ⟨false, none, []⟩ list with
    | .error status => (s, status)
    | .ok a =>
      match a.num with
      | some num => rotate dest s num.toNat a.noCd o
      | none =>
        match a.words with
        | [] => (s, .success)
        | word :: _ => push dest s a.noCd word a.words o

/-! ## `popd` -/

/-- Behind the options of `popd_builtin`; `direction` is the first character of the last word
that was looked at, `\0` for an empty one. -/
structure PopdArgs where
  noCd : Bool
  which : Int
  direction : Char

def popdLoop (a : PopdArgs) : List Word → Except Status PopdArgs
  | [] => .ok a
  | w :: list =>
    if isOption w 'n' then popdLoop { a with noCd := true } list
    else if isOption w '-' then .ok a
    else
      let a := { a with direction := w.headD (Char.ofNat 0) }
      if a.direction = '+' ∨ a.direction = '-' then
        match validNumber w.tail with
        | none => .error .usage
        | some which => popdLoop { a with which } list
      else if w ≠ [] then .error .usage
      else .ok a

/-- `popd_builtin`. -/
def popdBuiltin (s : State) (list : List Word) (o : Outcome) : State × Status :=
  if list.head?.any isHelp then (s, .usage)
  else
    match popdLoop ⟨false, 0, '+'⟩ list with
    | .error status => (s, status)
    | .ok a =>
      if s.offset < a.which ∨ a.which < -s.offset ∨ s.offset = 0 ∧ a.which = 0 then (s, .failure)
      else if a.direction = '+' ∧ a.which = 0 ∨ a.direction = '-' ∧ a.which = s.offset then
        let r :=
          if a.noCd then (s, .success)
          else cdToString dest s (s.directoryList.getD (s.offset - 1) none) o
        if r.2 ≠ .success then r
        else ({ r.1 with directoryList := r.1.directoryList.take (s.offset - 1) }, .success)
      else
        let i := if a.direction = '+' then s.offset - a.which else a.which
        if i < 0 ∨ s.offset < i then (s, .failure)
        else ({ s with directoryList := removeEntry s.directoryList i.toNat }, .success)

end

/-! ## `dirs` -/

/-- Behind the options of `dirs_builtin`. -/
structure DirsArgs where
  clear : Bool
  desiredIndex : Option Int

/-- `get_dirstack_index`. -/
def getDirstackIndex (offset : Nat) (ind : Int) (sign : Bool) : Int :=
  if ind = 0 ∧ sign then 0
  else if ind = offset then 0
  else if 0 ≤ ind ∧ ind ≤ offset then if sign then offset - ind else ind
  else -1

def dirsLoop (offset : Nat) (a : DirsArgs) : List Word → Except Status DirsArgs
  | [] => .ok a
  | w :: list =>
    if isOption w 'l' then dirsLoop offset a list
    else if isOption w 'c' then dirsLoop offset { a with clear := true } list
    else if isOption w 'v' then dirsLoop offset a list
    else if isOption w 'p' then dirsLoop offset a list
    else if isOption w '-' then .ok a
    else if w.head? = some '+' ∨ w.head? = some '-' then
      match validNumber w.tail with
      | none => .error .usage
      | some i =>
        let desiredIndex := getDirstackIndex offset i (w.head? = some '+')
        dirsLoop offset { a with desiredIndex := some desiredIndex } list
    else .error .usage

/-- `dirs_builtin`, without what it prints. -/
def dirsBuiltin (s : State) (list : List Word) (o : Outcome) : State × Status :=
  if list.head?.any isHelp then (s, .usage)
  else
    match dirsLoop s.offset ⟨false, none⟩ list with
    | .error status => (s, status)
    | .ok a =>
      if a.clear then ({ s with directoryList := [] }, .success)
      else if a.desiredIndex.any fun i => decide (i < 0 ∨ (s.offset : Int) < i) then (s, .failure)
      else (s, if o.chkwrite then .success else .failure)

/-! ## Calls -/

inductive Builtin where
  | pushd
  | popd
  | dirs

/-- A call of a builtin with its arguments. -/
structure Call where
  builtin : Builtin
  args : List Word
  outcome : Outcome

def call (dest : Word → List Word → Word) (s : State) (c : Call) : State × Status :=
  match c.builtin with
  | .pushd => pushdBuiltin dest s c.args c.outcome
  | .popd => popdBuiltin dest s c.args c.outcome
  | .dirs => dirsBuiltin s c.args c.outcome

end Basht.Dirs
