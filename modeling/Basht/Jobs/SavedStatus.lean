import Basht.Library.Fallible
import Basht.Library.Linked
import Mathlib.Logic.Function.Basic

/-!
# The table of saved statuses

`jobs.c`: the statuses of exited background processes (`bgpids`, `pidstat_table`). The cells
of the arena `storage` are used in turn, and chained by the hash of their pids. `storage` is
null exactly when `nalloc` is 0; memory that is allocated or freed keeps what it held.
The searching loops are given `fuel`.
-/

namespace Basht.Jobs

/-- `NO_PID`. -/
def noPid : Int := -1

/-- `NO_PIDSTAT`. -/
def noPidstat : Int := -1

/-- `PIDSTAT_TABLE_SZ`. -/
def pidstatTableSz : Nat := 4096

/-- `BGPIDS_TABLE_SZ`. -/
def bgpidsTableSz : Int := 512

/-- `MAX_CHILD_MAX`. -/
def maxChildMax : Int := 32768

/-- `TYPE_MAXIMUM (ps_index_t)`. -/
def psIndexMax : Int := 2147483647

/-- The value in an `int`, the type of `npid` and of the indices. -/
def int32 (i : Int) : Int := i.bmod 4294967296

/-- The value in a `bits16_t`. -/
def bits16 (i : Int) : Int := i.bmod 65536

/-- `pshash_getbucket`; the product is an `unsigned long`. -/
def pshashGetbucket (pid : Int) : Nat :=
  (pid * 0x9e370001 % 18446744073709551616).toNat % pidstatTableSz

/-- `struct pidstat`. -/
structure Pidstat where
  bucketNext : Int
  bucketPrev : Int
  pid : Int
  status : Int

/-- `struct bgpids` and `pidstat_table`. -/
structure Bgp where
  storage : Int → Pidstat
  head : Int
  nalloc : Int
  npid : Int
  pidstatTable : Nat → Int

namespace Bgp

/-- The variables as the shell starts, over the memory `storage`. -/
def start (storage : Int → Pidstat) : Bgp := ⟨storage, 0, 0, 0, fun _ => 0⟩

/-- `bgpids.storage[psi].bucket_next`. -/
def next (s : Bgp) (psi : Int) : Int := (s.storage psi).bucketNext

/-- `bgpids.storage[psi].bucket_prev`. -/
def prev (s : Bgp) (psi : Int) : Int := (s.storage psi).bucketPrev

/-- `bgpids.storage[psi].pid`. -/
def pid (s : Bgp) (psi : Int) : Int := (s.storage psi).pid

/-- `bgpids.storage[psi].status`. -/
def status (s : Bgp) (psi : Int) : Int := (s.storage psi).status

def setCell (s : Bgp) (psi : Int) (ps : Pidstat) : Bgp :=
  { s with storage := Function.update s.storage psi ps }

def setNext (s : Bgp) (psi next : Int) : Bgp :=
  s.setCell psi { s.storage psi with bucketNext := next }

def setPrev (s : Bgp) (psi prev : Int) : Bgp :=
  s.setCell psi { s.storage psi with bucketPrev := prev }

def setBucket (s : Bgp) (bucket : Nat) (psi : Int) : Bgp :=
  { s with pidstatTable := Function.update s.pidstatTable bucket psi }

/-- `while (nsize > 0 && nsize < nsize_cur) nsize <<= 1`; an `int` is shifted out of bounds
after at most 31 turns. -/
def double (nsizeCur : Int) : Nat → Int → Int
  | 0, nsize => nsize
  | turns + 1, nsize =>
    if 0 < nsize ∧ nsize < nsizeCur then double nsizeCur turns (int32 (2 * nsize)) else nsize

/-- The values that `nsize` and `nsize_max` get in `bgp_resize`. -/
def fitSize (nsizeCur nsize : Int) : Int × Int :=
  let nsize := double nsizeCur 32 nsize
  let nsize := if nsize > psIndexMax ∨ nsize ≤ 0 then psIndexMax else nsize
  if nsize > maxChildMax then (maxChildMax, maxChildMax) else (nsize, psIndexMax)

/-- `bgp_resize`; `childmax` is `js.c_childmax`. -/
def bgpResize (childmax : Int) (s : Bgp) : Bgp :=
  let nsize := if s.nalloc = 0 then bgpidsTableSz else s.nalloc
  let s := if s.nalloc = 0 then { s with pidstatTable := fun _ => noPidstat, head := 0 } else s
  let nsizeCur := if int32 childmax < 0 then maxChildMax else int32 childmax
  let (nsize, nsizeMax) := fitSize nsizeCur nsize
  if s.nalloc < nsizeCur ∧ s.nalloc < nsizeMax then
    { s with
      storage := fun psi =>
        if s.nalloc ≤ psi ∧ psi < nsize then { s.storage psi with pid := noPid }
        else s.storage psi
      nalloc := nsize }
  else if s.head ≥ s.nalloc then { s with head := 0 }
  else s

/-- The cell behind `psi`, if there is one, gets a new `bucket_prev`. -/
def relinkNext (s : Bgp) (psi : Int) : Bgp :=
  if s.next psi ≠ noPidstat then s.setPrev (s.next psi) (s.prev psi) else s

/-- The cell before `psi`, or the bucket, gets a new `bucket_next`. -/
def relinkPrev (s : Bgp) (psi : Int) : Bgp :=
  if s.prev psi ≠ noPidstat then s.setNext (s.prev psi) (s.next psi)
  else s.setBucket (pshashGetbucket (s.pid psi)) (s.next psi)

/-- `pshash_delindex`. -/
def pshashDelindex (s : Bgp) (psi : Int) : Bgp :=
  if s.pid psi = noPid then s
  else
    let s := (s.relinkNext psi).relinkPrev psi
    s.setCell psi
      { s.storage psi with pid := noPid, bucketNext := noPidstat, bucketPrev := noPidstat }

/-- `bgp_getindex`. -/
def bgpGetindex (childmax : Int) (s : Bgp) : Bgp × Int :=
  let s :=
    if s.nalloc < int32 childmax ∨ s.head ≥ s.nalloc then s.bgpResize childmax else s
  let s := s.pshashDelindex s.head
  ({ s with head := s.head + 1 }, s.head)

/-- `bgp_add`, from where it has got the cell `psi`. -/
def fillCell (s : Bgp) (pid status psi : Int) : Bgp :=
  let bucket := pshashGetbucket pid
  let s := s.setCell psi
    { pid, status := bits16 status, bucketNext := s.pidstatTable bucket, bucketPrev := noPidstat }
  let s := { s with npid := int32 (s.npid + 1) }
  let s := if s.next psi ≠ noPidstat then s.setPrev (s.next psi) psi else s
  s.setBucket bucket psi

/-- `bgp_add`. -/
def bgpAdd (childmax : Int) (s : Bgp) (pid status : Int) : Bgp :=
  let (s, psi) := s.bgpGetindex childmax
  let (s, psi) :=
    if psi = s.pidstatTable (pshashGetbucket pid) then
      (s.setCell psi { s.storage psi with pid := noPid }).bgpGetindex childmax
    else (s, psi)
  s.fillCell pid status psi

/-- The body of the loops of `bgp_delete` and `bgp_search` at `psi`: the cell found or
`NO_PIDSTAT`, if the loop ends there. Both functions find nothing when a cell leads back to
`orig_psi`. -/
def searchBody (s : Bgp) (pid origPsi psi : Int) : Option Int :=
  if psi = noPidstat then some noPidstat
  else if s.pid psi = pid then some psi
  else if origPsi = s.next psi then some noPidstat
  else none

/-- The loops of `bgp_delete` and `bgp_search`. -/
def searchChain (fuel : Nat) (s : Bgp) (pid : Int) : Option Int :=
  let origPsi := s.pidstatTable (pshashGetbucket pid)
  Linked.walk s.next (s.searchBody pid origPsi) fuel origPsi

/-- `bgp_delete`; what it returns is not used. -/
def bgpDelete (fuel : Nat) (s : Bgp) (pid : Int) : Option Bgp :=
  if s.nalloc = 0 ∨ s.npid = 0 then some s
  else
    match s.searchChain fuel pid with
    | none => none
    | some psi =>
      if psi = noPidstat then some s
      else
        let s := s.pshashDelindex psi
        some { s with npid := int32 (s.npid - 1) }

/-- `bgp_clear`. -/
def bgpClear (s : Bgp) : Bgp :=
  if s.nalloc = 0 then s else { s with nalloc := 0, head := 0, npid := 0 }

/-- `bgp_search`. -/
def bgpSearch (fuel : Nat) (s : Bgp) (pid : Int) : Option Int :=
  if s.nalloc = 0 ∨ s.npid = 0 then some (-1)
  else
    match s.searchChain fuel pid with
    | none => none
    | some psi => some (if psi = noPidstat then -1 else s.status psi)

end Bgp

/-- An operation on the table; `childmax` is what `js.c_childmax` is then. -/
inductive Op where
  | add (childmax pid status : Int)
  | delete (pid : Int)
  | clear
  | search (pid : Int)

/-- What an operation leaves; a search emits its result. -/
def Op.run (fuel : Nat) (s : Bgp) : Op → Except Unit (Bgp × List Int)
  | .add childmax pid status => .ok (s.bgpAdd childmax pid status, [])
  | .delete pid =>
    match s.bgpDelete fuel pid with
    | none => .error ()
    | some s => .ok (s, [])
  | .clear => .ok (s.bgpClear, [])
  | .search pid =>
    match s.bgpSearch fuel pid with
    | none => .error ()
    | some status => .ok (s, [status])

end Basht.Jobs
