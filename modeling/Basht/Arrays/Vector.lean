import Basht.Arrays.Array

/-!
# Indexed arrays as vectors

`array2.c`: the same operations over a block of pointers to elements, one for each index.
As in `array.c`, pointers are addresses and 0 is the null pointer, and memory that is freed is
not used again. What the program must not do has no result: an access outside the
block, a read of a slot that nothing was written to, an overflow of an `int`. A loop that
counts up to a bound is given the number of its rounds.
-/

namespace Basht.Arrays

/-- The elements in memory, field by field, the block `elements` with the number `size` of its
slots, and the other fields of the `ARRAY`. -/
structure Vec (V : Type) where
  ind : Nat → Int
  value : Nat → Option V
  brk : Nat
  elements : Int → Option Nat
  size : Int
  firstIndex : Int
  maxIndex : Int
  numElements : Int
  allocSize : Int

/-- The value of an `int` expression. -/
def toInt (x : Int) : Option Int :=
  if -2147483648 ≤ x ∧ x ≤ 2147483647 then some x else none

namespace Vec

variable {V : Type}

/-- The pointer `elements[i]`. -/
def load (a : Vec V) (i : Int) : Option Nat :=
  if 0 ≤ i ∧ i < a.size then a.elements i else none

def put (a : Vec V) (i : Int) (p : Nat) : Vec V :=
  { a with elements := Function.update a.elements i (some p) }

/-- `elements[i] = p`. -/
def store (a : Vec V) (i : Int) (p : Nat) : Option (Vec V) :=
  if 0 ≤ i ∧ i < a.size then some (a.put i p) else none

def setInd (a : Vec V) (p : Nat) (i : Int) : Vec V :=
  { a with ind := Function.update a.ind p i }

def setValue (a : Vec V) (p : Nat) (v : Option V) : Vec V :=
  { a with value := Function.update a.value p v }

/-- `array_create_element`; the address of the element is `a.brk`. -/
def arrayCreateElement (a : Vec V) (indx : Int) (value : Option V) : Vec V :=
  let r := a.brk
  { (a.setInd r indx).setValue r value with brk := r + 1 }

/-- `array_empty`. -/
def isEmpty (a : Vec V) : Bool := a.numElements = 0

/-- `array_create`, as the first thing allocated. -/
def arrayCreate : Vec V := ⟨fun _ => 0, fun _ => none, 1, fun _ => none, 0, -1, -1, 0, 0⟩

/-- The block gets `size` slots, of which those from `alloc_size` on are cleared. -/
def cleared (a : Vec V) (n size : Int) : Vec V :=
  let elements := fun i =>
    if a.allocSize ≤ i ∧ i < n then some 0 else if i < a.size then a.elements i else none
  { a with elements, size, allocSize := n }

/-- `array_resize`. The number of bytes `n * sizeof (ARRAY_ELEMENT *)` is taken modulo
`2^64`, and the new slots are cleared one by one. -/
def arrayResize (a : Vec V) (n : Int) : Option (Vec V) :=
  if a.allocSize > 0 ∧ n ≥ a.maxIndex ∧ n ≤ a.allocSize then some a
  else
    let size := n % 2305843009213693952
    if a.allocSize < n ∧ size < n then none else some (a.cleared n size)

/-- `while (n >= nsize) nsize <<= 1`; a positive size exceeds every index after 63 rounds. -/
def double (n : Int) : Nat → Int → Int
  | 0, nsize => nsize
  | fuel + 1, nsize => if n ≥ nsize then double n fuel (2 * nsize) else nsize

/-- The size `array_expand` chooses for an index `n` outside the block. -/
def expandSize (a : Vec V) (n : Int) : Int :=
  let nsize := double n 63 (if a.allocSize ≠ 0 then a.allocSize else 1024)
  if nsize > 16777216 then n + 1024 else nsize

/-- `array_expand`. -/
def arrayExpand (a : Vec V) (n : Int) : Option (Vec V) :=
  if n ≥ a.allocSize then a.arrayResize (a.expandSize n) else some a

/-- The loops over all slots from `i` on that take the elements out: the addresses of the
elements. -/
def takeOut : Nat → Vec V → Int → Option (Vec V × List Nat)
  | 0, a, _ => some (a, [])
  | k + 1, a, i => do
    let p ← a.load i
    let a ← if p ≠ 0 then a.store i 0 else some a
    let (a, r) ← takeOut k a (← toInt (i + 1))
    some (a, if p ≠ 0 then p :: r else r)

/-- `for (i = a->first_index; i <= a->max_index; i++)` for an `int i`, and what it takes out
of the array. -/
def takeAll (a : Vec V) : Option (Vec V × List Nat) := do
  let i := Int.bmod a.firstIndex 4294967296
  let (a, r) ← takeOut (a.maxIndex + 1 - i).toNat a i
  some ({ a with firstIndex := -1, maxIndex := -1, numElements := 0 }, r)

/-- `array_flush`. -/
def arrayFlush (a : Vec V) : Option (Vec V) :=
  if a.isEmpty then some { a with maxIndex := -1, firstIndex := -1 }
  else a.takeAll.map Prod.fst

/-- The loop of `array_copy_elements` over the slots of `a` from `i` on; the copies go to the
slots of `a1`, which shares the memory of `a`. -/
def copyElements (a : Vec V) : Nat → Vec V → Int → Option (Vec V)
  | 0, a1, _ => some a1
  | k + 1, a1, i => do
    let p ← a.load i
    let a1 ←
      if p ≠ 0 then (a1.arrayCreateElement (a1.ind p) (a1.value p)).store i a1.brk
      else a1.store i 0
    copyElements a k a1 (i + 1)

/-- `array_copy`: the copy. -/
def arrayCopy (a : Vec V) : Option (Vec V) :=
  let a1 := { a with elements := fun _ => none, size := 0 }
  if a.numElements = 0 then some a1
  else
    copyElements a a.allocSize.toNat { a1 with size := a.allocSize % 2305843009213693952 } 0

/-- `for (ind = i; ...; ind += d) if (a->elements[ind]) break`: where it stops. -/
def scan (a : Vec V) (d : Int) : Nat → Int → Option Int
  | 0, i => some i
  | k + 1, i => do
    let p ← a.load i
    if p ≠ 0 then some i else scan a d k (i + d)

/-- `elements[i] = p`, where the element gets the index `i`. -/
def move (a : Vec V) (i : Int) (p : Nat) : Option (Vec V) := do
  let a ← a.store i p
  some (if p ≠ 0 then a.setInd p i else a)

/-- The loop of `array_shift` that shifts the first `n` elements out, at the slot `i` and with
`j` elements out: the array, the slot behind the last of them, and their addresses. It
leaves the block before it runs out of `fuel`. -/
def shiftFirst (n : Int) : Nat → Vec V → Int → Int → Option (Vec V × Int × List Nat)
  | 0, _, _, _ => none
  | fuel + 1, a, i, j =>
    if j < n then do
      let ae ← a.load i
      if ae = 0 then shiftFirst n fuel a (← toInt (i + 1)) j
      else if i > a.maxIndex then some (a, i, [])
      else
        let p ← a.load (← toInt (i + n))
        let a ← a.move i p
        let (a, i, r) ← shiftFirst n fuel a (← toInt (i + 1)) (j + 1)
        some (a, i, ae :: r)
    else some (a, i, [])

/-- The loop of `array_shift` over the slots behind. -/
def shiftRest (n : Int) : Nat → Vec V → Int → Option (Vec V)
  | 0, a, _ => some a
  | k + 1, a, i => do
    let ni ← toInt (i + n)
    let p ← if ni ≤ a.maxIndex then a.load ni else some 0
    let a ← a.move i p
    shiftRest n k a (← toInt (i + 1))

/-- The bookkeeping of `array_shift` behind its loops. -/
def shifted (a : Vec V) (n : Int) : Option (Vec V) :=
  let a := { a with numElements := a.numElements - n }
  if a.numElements = 0 then some { a with firstIndex := if a.maxIndex = -1 then 1 else 0 }
  else do
    let a := { a with maxIndex := a.maxIndex - n }
    let i ← a.scan 1 (a.maxIndex + 1).toNat 0
    some { a with firstIndex := i }

/-- `array_shift`: the array, and the addresses of the elements returned. `dispose` is
`flags & AS_DISPOSE`. -/
def arrayShift (a : Vec V) (n : Int) (dispose : Bool) : Option (Vec V × List Nat) :=
  if a.isEmpty ∨ n ≤ 0 then some (a, [])
  else do
    let _ ← toInt (n + 1)
    if n ≥ a.numElements then
      let (a, r) ← a.takeAll
      some (a, if dispose then [] else r)
    else
      let i := Int.bmod a.firstIndex 4294967296
      let (a, i, r) ← shiftFirst n ((a.allocSize + 1 - i).toNat) a i 0
      let a ← shiftRest n (a.maxIndex + 1 - i).toNat a i
      let a ← a.shifted n
      some (a, if dispose then [] else r)

/-- The loop of `array_rshift`, down from the slot `ni`. -/
def rshiftAll (n : Int) : Nat → Vec V → Int → Option (Vec V)
  | 0, a, _ => some a
  | k + 1, a, ni => do
    let p ← a.load ni
    let a ← a.move (ni + n) p
    let a ← a.store ni 0
    rshiftAll n k a (ni - 1)

/-- `array_rshift`: the array, and the number of its elements. -/
def arrayRshift (a : Vec V) (n : Int) (s : Option V) : Option (Vec V × Int) :=
  if a.isEmpty ∧ s = none then some (a, 0)
  else if n ≤ 0 then some (a, a.numElements)
  else do
    let a ← if n ≥ a.allocSize then a.arrayExpand n else some a
    let a ← rshiftAll n (a.maxIndex + 1).toNat a a.maxIndex
    let a := { a with maxIndex := a.maxIndex + n, firstIndex := a.firstIndex + n }
    let a ←
      if s ≠ none then do
        let new := a.brk
        let a ← (a.arrayCreateElement 0 s).store 0 new
        let a := { a with numElements := a.numElements + 1, firstIndex := 0 }
        some (if a.numElements = 1 then { a with maxIndex := 0 } else a)
      else some a
    some (a, a.numElements)

/-- `array_insert`. -/
def arrayInsert (a : Vec V) (i : Int) (v : Option V) : Option (Vec V × Int) := do
  let a ← if i ≥ a.allocSize then a.arrayExpand i else some a
  let old ← a.load i
  let maxIndex := if i > a.maxIndex then i else a.maxIndex
  let firstIndex := if a.firstIndex < 0 ∨ i < a.firstIndex then i else a.firstIndex
  let a := { a with maxIndex, firstIndex }
  if old ≠ 0 then some ((a.setValue old v).setInd old i, 0)
  else
    let a ← (a.arrayCreateElement i v).store i a.brk
    some ({ a with numElements := a.numElements + 1 }, -1)

/-- The new bounds when the slot `i` became null. -/
def trimmed (a : Vec V) (i : Int) : Option (Vec V) := do
  let a ←
    if i = a.maxIndex then do
      let ind ← a.scan (-1) (i + 1 - a.firstIndex).toNat i
      some { a with maxIndex := ind }
    else some a
  if i = a.firstIndex then do
    let ind ← a.scan 1 (a.maxIndex + 1 - i).toNat i
    some { a with firstIndex := ind }
  else some a

/-- The bookkeeping of `array_remove` behind the removal of an element from the slot `i`. -/
def removed (a : Vec V) (i : Int) : Option (Vec V) :=
  let a := { a with numElements := a.numElements - 1 }
  if a.numElements = 0 then
    trimmed { a with firstIndex := if a.maxIndex = -1 then 1 else 0 } i
  else a.trimmed i

/-- `array_remove`: the array, and the address of the element removed. -/
def arrayRemove (a : Vec V) (i : Int) : Option (Vec V × Nat) :=
  if a.isEmpty then some (a, 0)
  else if i > a.maxIndex ∨ i < a.firstIndex then some (a, 0)
  else do
    let ae ← a.load i
    let a ← a.store i 0
    let a ← if ae ≠ 0 then a.removed i else some a
    some (a, ae)

/-- `array_reference`. -/
def arrayReference (a : Vec V) (i : Int) : Option (Option V) :=
  if a.isEmpty then some none
  else if i > a.maxIndex ∨ i < a.firstIndex then some none
  else do
    let ae ← a.load i
    some (if ae ≠ 0 then a.value ae else none)

end Vec

end Basht.Arrays
