import Basht.Dirs.Pushd
import Mathlib.Data.List.InsertIdx

/-!
# The directory stack

The stack is the current directory followed by the list from last to first (`Represents`).
`Effect` is what a call is for; a call that is not granted leaves the stack alone
(`Does`). The builtins do so in every run of `Careful` calls.
-/

namespace Basht.Dirs

/-! ## Lists -/

/-- The current directory is the first entry. -/
structure Stack where
  current : Word
  rest : List Word

namespace Stack

def entries (st : Stack) : List Word := st.current :: st.rest

/-- How far the entries can be counted. -/
def depth (st : Stack) : Nat := st.rest.length

end Stack

/-- An argument `+N` or `-N`. -/
inductive Index where
  | left (n : Int)
  | right (n : Int)

/-- The position from the left, counted from 0. -/
def Index.position (depth : Nat) : Index → Option Nat
  | .left n => if 0 ≤ n ∧ n ≤ depth then some n.toNat else none
  | .right n => if 0 ≤ n ∧ n ≤ depth then some (depth - n.toNat) else none

def parseIndex : Word → Option Index
  | '+' :: n => (validNumber n).map .left
  | '-' :: n => (validNumber n).map .right
  | _ => none

/-- What a call asks for. -/
inductive Request where
  | exchange
  | rotate (position : Nat) (noCd : Bool)
  | push (args : List Word)
  | insert (word : Word)
  | remove (position : Nat) (noCd : Bool)
  | clear
  | keep

/-- The options and indices of `pushd`: `-n`, the last index as a position, the other words. -/
def readPushd (depth : Nat) (noCd : Bool) (position : Option Nat) :
    List Word → Option (Bool × Option Nat × List Word)
  | [] => some (noCd, position, [])
  | w :: list =>
    if w = ['-', 'n'] then readPushd depth true position list
    else if w = ['-', '-'] then some (noCd, position, list)
    else if w = ['-'] then some (noCd, position, w :: list)
    else if w.head? = some '+' ∨ w.head? = some '-' then
      match (parseIndex w).bind (Index.position depth) with
      | none => none
      | some n => readPushd depth noCd (some n) list
    else some (noCd, position, w :: list)

def pushdRequest (depth : Nat) (list : List Word) : Option Request :=
  if list.head? = some "--help".toList then none
  else if list = [] ∨ list = [['-', '-']] then some .exchange
  else if list.head? = some ['-', '-'] then some (.push list)
  else
    match readPushd depth false none list with
    | none => none
    | some (noCd, some n, _) => some (.rotate n noCd)
    | some (_, none, []) => some .keep
    | some (false, none, w :: ws) => some (.push (w :: ws))
    | some (true, none, w :: _) => some (.insert w)

/-- The options of `popd`: `-n` and the last index; an empty word ends them. -/
def readPopd (noCd : Bool) (index : Index) : List Word → Option (Bool × Index)
  | [] => some (noCd, index)
  | w :: list =>
    if w = ['-', 'n'] then readPopd true index list
    else if w = ['-', '-'] ∨ w = [] then some (noCd, index)
    else
      match parseIndex w with
      | none => none
      | some index => readPopd noCd index list

def popdRequest (depth : Nat) (list : List Word) : Option Request :=
  if list.head? = some "--help".toList ∨ depth = 0 then none
  else
    match readPopd false (.left 0) list with
    | none => none
    | some (noCd, index) => (index.position depth).map fun n => .remove n noCd

def dirsRequest (depth : Nat) (list : List Word) : Option Request :=
  if list.head? = some "--help".toList then none
  else
    match dirsLoop depth ⟨false, none⟩ list with
    | .error _ => none
    | .ok a =>
      if a.clear then some .clear
      else if a.desiredIndex.any fun i => decide (i < 0 ∨ (depth : Int) < i) then none
      else some .keep

def request (depth : Nat) (c : Call) : Option Request :=
  match c.builtin with
  | .pushd => pushdRequest depth c.args
  | .popd => popdRequest depth c.args
  | .dirs => dirsRequest depth c.args

section

variable (dest : Word → List Word → Word)

/-- Where `cd` to an entry of the stack leads. -/
def destEntry (current entry : Word) : Word := dest current [['-', '-'], entry]

/-- What becomes of the stack. -/
inductive Effect : Stack → Request → Stack → Prop
  | exchange (c d : Word) (rest : List Word) :
      Effect ⟨c, d :: rest⟩ .exchange ⟨destEntry dest c d, c :: rest⟩
  | rotate (st : Stack) (n : Nat) (e : Word) (rest : List Word)
      (hrotate : st.entries.rotate n = e :: rest) :
      Effect st (.rotate n false) ⟨destEntry dest st.current e, rest⟩
  | rotateOnly (st st' : Stack) (n : Nat) (hperm : st'.entries.Perm st.entries) :
      Effect st (.rotate n true) st'
  | push (st : Stack) (args : List Word) :
      Effect st (.push args) ⟨dest st.current args, st.entries⟩
  | insert (st : Stack) (w : Word) : Effect st (.insert w) ⟨st.current, w :: st.rest⟩
  | removeFirst (c d : Word) (rest : List Word) :
      Effect ⟨c, d :: rest⟩ (.remove 0 false) ⟨destEntry dest c d, rest⟩
  | removeNext (c d : Word) (rest : List Word) :
      Effect ⟨c, d :: rest⟩ (.remove 0 true) ⟨c, rest⟩
  | remove (st : Stack) (n : Nat) (noCd : Bool) :
      Effect st (.remove (n + 1) noCd) ⟨st.current, st.rest.eraseIdx n⟩
  | clear (st : Stack) : Effect st .clear ⟨st.current, []⟩
  | keep (st : Stack) : Effect st .keep st

/-- Nothing prevents what is asked for. -/
def Granted (depth : Nat) (c : Call) : Request → Prop
  | .exchange => depth ≠ 0 ∧ c.outcome.getcwd ∧ c.outcome.cd
  | .rotate _ noCd => noCd ∨ c.outcome.getcwd ∧ c.outcome.cd
  | .push _ => c.outcome.getcwd ∧ c.outcome.cd
  | .insert _ => c.outcome.getcwd
  | .remove n noCd => n ≠ 0 ∨ noCd ∨ c.outcome.cd
  | .clear => True
  | .keep => match c.builtin with
    | .dirs => c.outcome.chkwrite
    | _ => True

/-- A call does what it asks for, or fails and changes nothing. -/
inductive Does (st : Stack) (c : Call) : Stack → Status → Prop
  | done (r : Request) (st' : Stack) (hrequest : request st.depth c = some r)
      (hgranted : Granted st.depth c r) (heffect : Effect dest st r st') :
      Does st c st' .success
  | failed (status : Status) (hstatus : status ≠ .success)
      (hdenied : ∀ r, request st.depth c = some r → ¬Granted st.depth c r) :
      Does st c st status

/-! ## The builtins -/

/-- The arguments of `popd` go on with an empty word. -/
def reachesEmpty : List Word → Bool
  | [] => false
  | w :: list => if w = ['-', '-'] then false else w = [] || reachesEmpty list

/-- A call that does not change the list before a `cd` that fails, rotates with `-n` or into a
current directory without a name, or has an empty word where `popd` looks for `+N` or `-N`. -/
def Careful (depth : Nat) (c : Call) : Prop :=
  match request depth c with
  | some .exchange => depth = 0 ∨ c.outcome.getcwd = false ∨ c.outcome.cd
  | some (.rotate n noCd) => n = 0 ∨ noCd = false ∧ c.outcome.getcwd ∧ c.outcome.cd
  | some (.remove _ _) => reachesEmpty c.args = false
  | _ => True

/-- There is no null entry. -/
structure Represents (s : State) (st : Stack) : Prop where
  current : s.current = st.current
  directoryList : s.directoryList = st.rest.reverse.map some

variable {dest : Word → List Word → Word} {s : State} {st : Stack} {c : Call}

theorem Represents.offset (h : Represents s st) : s.offset = st.depth := by
  rw [State.offset, h.directoryList, List.length_map, List.length_reverse]
  rfl

/-- What a loop over the arguments of `pushd` finds is what they say. -/
def Reads : Except Status PushdArgs → Option (Bool × Option Nat × List Word) → Prop
  | .error status, none => status ≠ .success
  | .ok a, some (noCd, position, words) => a = ⟨noCd, position.map Int.ofNat, words⟩
  | _, _ => False

/-- `which`. -/
def Index.number : Index → Int
  | .left n => n
  | .right n => n

/-- `direction`. -/
def Index.sign : Index → Char
  | .left _ => '+'
  | .right _ => '-'

/-- The last entry of the list goes away. -/
theorem Represents.take {current d : Word} {rest : List Word}
    (hrep : Represents s ⟨current, d :: rest⟩) :
    s.directoryList.take (s.offset - 1) = rest.reverse.map some := by
  rw [hrep.offset, hrep.directoryList, List.reverse_cons, List.map_append]
  apply List.take_left'
  rw [List.length_map, List.length_reverse]
  rfl

/-- Calls one after the other. -/
def run (dest : Word → List Word → Word) (s : State) : List Call → State × List Status
  | [] => (s, [])
  | c :: calls =>
    let r := call dest s c
    let rs := run dest r.1 calls
    (rs.1, r.2 :: rs.2)

/-- Each call does what it is for. -/
inductive Follows (dest : Word → List Word → Word) : Stack → List Call → List Status → Stack → Prop
  | nil (st : Stack) : Follows dest st [] [] st
  | cons (st st₁ st₂ : Stack) (c : Call) (status : Status) (calls : List Call)
      (statuses : List Status) (hdoes : Does dest st c st₁ status)
      (hfollows : Follows dest st₁ calls statuses st₂) :
      Follows dest st (c :: calls) (status :: statuses) st₂

end

end Basht.Dirs
