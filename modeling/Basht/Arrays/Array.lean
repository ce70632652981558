import Basht.Library.Linked
import Mathlib.Logic.Function.Basic

/-!
# Indexed arrays

`array.c`: a circular list of elements, linked both ways through a dummy head, with a
reference to the element used last. Pointers are addresses, 0 is the null pointer, and
`xmalloc` hands out the address `brk`; memory that is freed is not used again. Loops are
given `fuel`, and a loop that runs out of it has no result. The searches
`for (ae = start; ae != a->head; )` are walks (`Linked.walk`).
-/

namespace Basht.Arrays

/-- The elements (`ARRAY_ELEMENT`) in memory, field by field, and the `ARRAY`. Values are
pointers that may be null. -/
structure Arr (V : Type) where
  next : Nat → Nat
  prev : Nat → Nat
  ind : Nat → Int
  value : Nat → Option V
  brk : Nat
  head : Nat
  lastref : Nat
  maxIndex : Int
  numElements : Int

namespace Arr

variable {V : Type}

def setNext (a : Arr V) (p q : Nat) : Arr V := { a with next := Function.update a.next p q }

def setPrev (a : Arr V) (p q : Nat) : Arr V := { a with prev := Function.update a.prev p q }

def setInd (a : Arr V) (p : Nat) (i : Int) : Arr V :=
  { a with ind := Function.update a.ind p i }

def setValue (a : Arr V) (p : Nat) (v : Option V) : Arr V :=
  { a with value := Function.update a.value p v }

/-- `array_create_element`; the address of the element is `a.brk`. -/
def arrayCreateElement (a : Arr V) (indx : Int) (value : Option V) : Arr V :=
  let r := a.brk
  { (((a.setInd r indx).setValue r value).setNext r 0).setPrev r 0 with brk := r + 1 }

/-- `ADD_BEFORE`. -/
def addBefore (a : Arr V) (ae new : Nat) : Arr V :=
  let a := a.setNext (a.prev ae) new
  let a := a.setPrev new (a.prev ae)
  let a := a.setPrev ae new
  a.setNext new ae

/-- `ADD_AFTER`. -/
def addAfter (a : Arr V) (ae new : Nat) : Arr V :=
  let a := a.setPrev (a.next ae) new
  let a := a.setNext new (a.next ae)
  let a := a.setPrev new ae
  a.setNext ae new

/-- `array_empty`. -/
def isEmpty (a : Arr V) : Bool := a.numElements = 0

/-- `array_first_index`. -/
def firstIndex (a : Arr V) : Int := a.ind (a.next a.head)

/-- `LASTREF`. -/
def lastRef (a : Arr V) : Nat := if a.lastref ≠ 0 then a.lastref else a.next a.head

/-- An empty `ARRAY`, in the memory of `a`. -/
def createIn (a : Arr V) : Arr V :=
  let head := a.brk
  let a := ((a.arrayCreateElement (-1) none).setPrev head head).setNext head head
  { a with head, maxIndex := -1, numElements := 0, lastref := 0 }

/-- `array_create`, as the first thing allocated. -/
def arrayCreate : Arr V :=
  createIn ⟨fun _ => 0, fun _ => 0, fun _ => 0, fun _ => none, 1, 0, 0, 0, 0⟩

/-- `array_flush`. -/
def arrayFlush (a : Arr V) : Arr V :=
  let a := (a.setPrev a.head a.head).setNext a.head a.head
  { a with maxIndex := -1, numElements := 0, lastref := 0 }

/-- The loop of `array_copy` over the elements of `a` from `ae` on; the copies go to `a1`,
which shares the memory of `a`. -/
def copyLoop (head lastref : Nat) : Nat → Arr V → Nat → Option (Arr V)
  | 0, _, _ => none
  | fuel + 1, a1, ae =>
    if ae = head then some a1
    else
      let new := a1.brk
      let a1 := a1.arrayCreateElement (a1.ind ae) (a1.value ae)
      let a1 := a1.addBefore a1.head new
      let a1 := if ae = lastref then { a1 with lastref := new } else a1
      copyLoop head lastref fuel a1 (a1.next ae)

/-- `array_copy`: the copy. -/
def arrayCopy (fuel : Nat) (a : Arr V) : Option (Arr V) :=
  let a1 := { a.createIn with maxIndex := a.maxIndex, numElements := a.numElements }
  copyLoop a.head a.lastRef fuel a1 (a1.next a.head)

/-- `for (i = 0, ...; ae != a->head && i < n; ae = element_forw(ae), i++)`. -/
def skip (a : Arr V) : Nat → Nat → Nat
  | 0, ae => ae
  | n + 1, ae => if ae = a.head then ae else skip a n (a.next ae)

/-- `for ( ; ae != a->head; ae = element_forw(ae)) element_index(ae) += d`. -/
def renumber (d : Int) : Nat → Arr V → Nat → Option (Arr V)
  | 0, _, _ => none
  | fuel + 1, a, ae =>
    if ae = a.head then some a
    else
      let a := a.setInd ae (a.ind ae + d)
      renumber d fuel a (a.next ae)

/-- `for (ae = ret; element_forw(ae) != a->head; ae = element_forw(ae))`. -/
def findLast (a : Arr V) : Nat → Nat → Option Nat
  | 0, _ => none
  | fuel + 1, ae => if a.next ae = a.head then some ae else findLast a fuel (a.next ae)

/-- `array_shift` behind `INVALIDATE_LASTREF`. -/
def shiftOut (fuel : Nat) (a : Arr V) (n : Int) (dispose : Bool) : Option (Arr V × Nat) :=
  let ret := a.next a.head
  let ae := a.skip n.toNat ret
  if ae = a.head then
    if dispose then some (a.arrayFlush, 0)
    else
      match a.findLast fuel ret with
      | none => none
      | some last =>
        let a := ((a.setNext last 0).setPrev a.head a.head).setNext a.head a.head
        some ({ a with maxIndex := -1, numElements := 0 }, ret)
  else
    let a := ((a.setNext (a.prev ae) 0).setNext a.head ae).setPrev ae a.head
    match renumber (-n) fuel a ae with
    | none => none
    | some a =>
      let a := { a with numElements := a.numElements - n }
      let a := { a with maxIndex := a.ind (a.prev a.head) }
      some (a, if dispose then 0 else ret)

/-- `array_shift`: the array, and the chain of elements returned. `dispose` is
`flags & AS_DISPOSE`. -/
def arrayShift (fuel : Nat) (a : Arr V) (n : Int) (dispose : Bool) : Option (Arr V × Nat) :=
  if a.isEmpty ∨ n ≤ 0 then some (a, 0)
  else shiftOut fuel { a with lastref := 0 } n dispose

/-- `array_rshift`: the array, and the number of its elements. -/
def arrayRshift (fuel : Nat) (a : Arr V) (n : Int) (s : Option V) : Option (Arr V × Int) :=
  if a.isEmpty ∧ s = none then some (a, 0)
  else if n ≤ 0 then some (a, a.numElements)
  else
    let ae := a.next a.head
    let new := a.brk
    let a :=
      if s ≠ none then
        let a := (a.arrayCreateElement 0 s).addBefore ae new
        { a with numElements := a.numElements + 1 }
      else a
    if s ≠ none ∧ a.numElements = 1 then some ({ a with maxIndex := 0 }, 1)
    else
      match renumber n fuel a ae with
      | none => none
      | some a =>
        let a := { a with maxIndex := a.ind (a.prev a.head), lastref := 0 }
        some (a, a.numElements)

/-- Where the searches start, and in which direction they go. -/
def start (a : Arr V) (i : Int) : Nat × Int :=
  let start := a.lastRef
  let startind := a.ind start
  if i < startind / 2 then (a.next a.head, 1)
  else if i ≥ startind then (start, 1)
  else (start, -1)

/-- One step of a search. -/
def step (a : Arr V) (direction : Int) (ae : Nat) : Nat :=
  if direction = 1 then a.next ae else a.prev ae

/-- The body of the loop of `array_insert` at `ae`: the array and the result of the
function, if it returns there. -/
def insertBody (a : Arr V) (i : Int) (new : Nat) (direction : Int) (ae : Nat) :
    Option (Arr V × Int) :=
  if ae = a.head then some ({ a with lastref := 0 }, -1)
  else if a.ind ae = i then
    let a := a.setValue ae (a.value new)
    let a := a.setValue new none
    some ({ a with lastref := ae }, 0)
  else if direction = 1 ∧ a.ind ae > i then
    let a := a.addBefore ae new
    some ({ a with numElements := a.numElements + 1, lastref := new }, 0)
  else if direction = -1 ∧ a.ind ae < i then
    let a := a.addAfter ae new
    some ({ a with numElements := a.numElements + 1, lastref := new }, 0)
  else none

/-- `array_insert`. -/
def arrayInsert (fuel : Nat) (a : Arr V) (i : Int) (v : Option V) : Option (Arr V × Int) :=
  let new := a.brk
  let a := a.arrayCreateElement i v
  if i > a.maxIndex then
    let a := a.addBefore a.head new
    some ({ a with maxIndex := i, numElements := a.numElements + 1, lastref := new }, 0)
  else if i < a.firstIndex then
    let a := a.addAfter a.head new
    some ({ a with numElements := a.numElements + 1, lastref := new }, 0)
  else
    let (start, direction) := a.start i
    Linked.walk (a.step direction) (a.insertBody i new direction) fuel start

/-- The element `ae` with the index `i` leaves the array. -/
def unlink (a : Arr V) (i : Int) (ae : Nat) : Arr V :=
  let a := a.setPrev (a.next ae) (a.prev ae)
  let a := a.setNext (a.prev ae) (a.next ae)
  let a := { a with numElements := a.numElements - 1 }
  let a := if i = a.maxIndex then { a with maxIndex := a.ind (a.prev ae) } else a
  if a.next ae ≠ a.head then { a with lastref := a.next ae }
  else if a.prev ae ≠ a.head then { a with lastref := a.prev ae }
  else { a with lastref := 0 }

/-- The loops of `array_remove` and `array_reference` stop behind the index. -/
def passed (a : Arr V) (i direction : Int) (ae : Nat) : Bool :=
  (direction = 1 ∧ a.ind ae > i) ∨ (direction = -1 ∧ a.ind ae < i)

/-- The body of the loop of `array_remove` at `ae`: the array and the element removed. -/
def removeBody (a : Arr V) (i direction : Int) (ae : Nat) : Option (Arr V × Nat) :=
  if ae = a.head then some (a, 0)
  else if a.ind ae = i then some (a.unlink i ae, ae)
  else if a.passed i direction (a.step direction ae) then some (a, 0)
  else none

/-- `array_remove`. -/
def arrayRemove (fuel : Nat) (a : Arr V) (i : Int) : Option (Arr V × Nat) :=
  if a.isEmpty then some (a, 0)
  else if i > a.maxIndex ∨ i < a.firstIndex then some (a, 0)
  else
    let (start, direction) := a.start i
    Linked.walk (a.step direction) (a.removeBody i direction) fuel start

/-- The body of the loop of `array_reference` at `ae`: the array and the value returned.
`start` is where the reference is left if the loop runs off the array. -/
def referenceBody (a : Arr V) (i : Int) (start : Nat) (direction : Int) (ae : Nat) :
    Option (Arr V × Option V) :=
  if ae = a.head then some ({ a with lastref := start }, none)
  else if a.ind ae = i then some ({ a with lastref := ae }, a.value ae)
  else if a.passed i direction (a.step direction ae) then
    some ({ a with lastref := a.step direction ae }, none)
  else none

/-- `array_reference`. -/
def arrayReference (fuel : Nat) (a : Arr V) (i : Int) : Option (Arr V × Option V) :=
  if a.isEmpty then some (a, none)
  else if i > a.maxIndex ∨ i < a.firstIndex then some (a, none)
  else
    let (start, direction) := a.start i
    Linked.walk (a.step direction) (a.referenceBody i start direction) fuel start

end Arr

/-- An operation on an array. -/
inductive Op (V : Type) where
  | insert (i : Int) (v : Option V)
  | remove (i : Int)
  | reference (i : Int)
  | shift (n : Int) (dispose : Bool)
  | rshift (n : Int) (s : Option V)
  | flush
  | copy

/-- What an operation leaves; after `array_copy`, the copy. -/
def Op.run {V : Type} (fuel : Nat) (a : Arr V) : Op V → Option (Arr V)
  | .insert i v => (a.arrayInsert fuel i v).map Prod.fst
  | .remove i => (a.arrayRemove fuel i).map Prod.fst
  | .reference i => (a.arrayReference fuel i).map Prod.fst
  | .shift n dispose => (a.arrayShift fuel n dispose).map Prod.fst
  | .rshift n s => (a.arrayRshift fuel n s).map Prod.fst
  | .flush => some a.arrayFlush
  | .copy => a.arrayCopy fuel

end Basht.Arrays
