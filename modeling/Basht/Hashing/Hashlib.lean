import Basht.Library.Chains
import Basht.Library.Transducer

/-!
# Hash tables

`hashlib.c`. A chain of `BUCKET_CONTENTS` is a list, the bucket array a list of chains;
`nbuckets`, `nentries` and `times_found` are C's `int`. What the callers store through the
pointers they are given is `Op.assign`.
-/

namespace Basht.Hashing

/-- A key: a string without its NUL. -/
abbrev Key := List UInt8

/-- `BUCKET_CONTENTS`; `data` is a pointer that may be null. -/
structure Entry (D : Type) where
  key : Key
  data : Option D
  khash : UInt32
  timesFound : Int32

/-- `HASH_TABLE`. -/
structure Table (D : Type) where
  bucketArray : List (List (Entry D))
  nbuckets : Int32
  nentries : Int32

/-- `DEFAULT_HASH_BUCKETS`. -/
def DEFAULT_HASH_BUCKETS : Int32 := 128

/-- `FNV_OFFSET`. -/
def FNV_OFFSET : UInt32 := 2166136261

/-- `hash_string`; a `char` is signed. -/
def hashString (s : Key) : UInt32 :=
  s.foldl (fun i c => (i + ((i <<< 1) + (i <<< 4) + (i <<< 7) + (i <<< 8) + (i <<< 24))) ^^^
    c.toInt8.toInt32.toUInt32) FNV_OFFSET

/-- The slot of a hash in a table of `nbuckets` buckets. -/
def slot (nbuckets : Int32) (khash : UInt32) : Nat := (khash &&& (nbuckets - 1).toUInt32).toNat

namespace Table

variable {D : Type}

/-- All entries, in the order of the buckets. -/
def entries (t : Table D) : List (Entry D) := t.bucketArray.flatten

/-- `hash_items`. -/
def hashItems (i : Nat) (t : Table D) : List (Entry D) :=
  if (i : Int) < t.nbuckets.toInt then Chains.chain t.bucketArray i else []

/-- `HASH_BUCKET`. -/
def hashBucket (string : Key) (t : Table D) : Nat := slot t.nbuckets (hashString string)

/-- The comparison function: `hv == list->khash && STREQ (list->key, string)`. -/
def same (string : Key) (e : Entry D) : Bool := hashString string == e.khash && e.key == string

/-- `hash_create`. -/
def hashCreate (buckets : Int32) : Table D :=
  let buckets := if buckets = 0 then DEFAULT_HASH_BUCKETS else buckets
  ⟨List.replicate buckets.toInt.toNat [], buckets, 0⟩

/-- `hash_rehash`. -/
def hashRehash (t : Table D) (nsize : Int32) : Table D :=
  if nsize = t.nbuckets then t
  else
    { t with
      bucketArray := Chains.redistribute (fun e => slot nsize e.khash) nsize.toInt.toNat t.entries
      nbuckets := nsize }

/-- `hash_grow`. -/
def hashGrow (t : Table D) : Table D :=
  if t.nbuckets * 4 > 0 then t.hashRehash (t.nbuckets * 4) else t

/-- `HASH_SHOULDGROW`. -/
def shouldGrow (t : Table D) : Bool := t.nentries ≥ t.nbuckets * 2

/-- The table in which an entry is created: it has grown, if it should. -/
def grown (t : Table D) : Table D := if t.shouldGrow then t.hashGrow else t

/-- The entry that is created for a string. -/
def newEntry (string : Key) : Entry D := ⟨string, none, hashString string, 0⟩

/-- The entry for `string` is created at the front of its bucket. -/
def create (t : Table D) (string : Key) : Table D :=
  let bucket := t.hashBucket string
  { t with
    bucketArray := t.bucketArray.set bucket (newEntry string :: Chains.chain t.bucketArray bucket)
    nentries := t.nentries + 1 }

/-- `hash_search`: the table, and the entry returned. `create` is `flags & HASH_CREATE`. -/
def hashSearch (string : Key) (t : Table D) (create : Bool) : Table D × Option (Entry D) :=
  if create = false ∧ t.nentries = 0 then (t, none)
  else
    let bucket := t.hashBucket string
    match Chains.locate (same string) (Chains.chain t.bucketArray bucket) with
    | some (before, list, next) =>
      let list := { list with timesFound := list.timesFound + 1 }
      ({ t with bucketArray := t.bucketArray.set bucket (before ++ list :: next) }, some list)
    | none =>
      if create then (t.grown.create string, some (newEntry string))
      else (t, none)

/-- `hash_remove`: the table, and the entry removed. -/
def hashRemove (string : Key) (t : Table D) : Table D × Option (Entry D) :=
  if t.nentries = 0 then (t, none)
  else
    let bucket := t.hashBucket string
    match Chains.locate (same string) (Chains.chain t.bucketArray bucket) with
    | some (before, temp, next) =>
      ({ t with
        bucketArray := t.bucketArray.set bucket (before ++ next)
        nentries := t.nentries - 1 }, some temp)
    | none => (t, none)

/-- `hash_insert`: the table, and the entry returned. -/
def hashInsert (string : Key) (t : Table D) (nosrch : Bool) : Table D × Option (Entry D) :=
  let (t, item) := if nosrch then (t, none) else t.hashSearch string false
  match item with
  | some item => (t, some item)
  | none => (t.grown.create string, some (newEntry string))

/-- `hash_flush`. -/
def hashFlush (t : Table D) : Table D :=
  if t.nentries = 0 then t
  else { t with bucketArray := List.replicate t.nbuckets.toInt.toNat [], nentries := 0 }

/-- `hash_copy`; `cpdata` copies what a data pointer points to. -/
def hashCopy (t : Table D) (cpdata : D → D) : Table D :=
  { hashCreate (D := D) t.nbuckets with
    bucketArray := t.bucketArray.map (List.map fun e => { e with data := e.data.map cpdata })
    nentries := t.nentries }

/-- The walk along one bucket; `func` is left as soon as it returns less than 0. -/
def walkBucket {σ : Type} (func : σ → Entry D → σ × Int32) : List (Entry D) → σ → σ × Bool
  | [], s => (s, false)
  | item :: next, s =>
    let r := func s item
    if r.2 < 0 then (r.1, true) else walkBucket func next r.1

/-- The walk along the buckets from `i` on. -/
def walkFrom {σ : Type} (func : σ → Entry D → σ × Int32) (t : Table D) :
    (n i : Nat) → σ → σ
  | 0, _, s => s
  | n + 1, i, s =>
    let r := walkBucket func (t.hashItems i) s
    if r.2 then r.1 else walkFrom func t n (i + 1) r.1

/-- `hash_walk`; `func` works on a state of its own. -/
def hashWalk {σ : Type} (t : Table D) (func : σ → Entry D → σ × Int32) (s : σ) : σ :=
  if t.nentries = 0 then s else walkFrom func t t.nbuckets.toInt.toNat 0 s

/-- A caller stores `data` in the entry of `string` that it was given. -/
def assign (string : Key) (t : Table D) (data : Option D) : Table D :=
  let bucket := t.hashBucket string
  match Chains.locate (same string) (Chains.chain t.bucketArray bucket) with
  | some (before, list, next) =>
    { t with bucketArray := t.bucketArray.set bucket (before ++ { list with data } :: next) }
  | none => t

end Table

/-- An operation on a table. -/
inductive Op (D : Type) where
  | insert (string : Key) (nosrch : Bool)
  | search (string : Key) (create : Bool)
  | remove (string : Key)
  | flush
  | copy (cpdata : D → D)
  | assign (string : Key) (data : Option D)

/-- What an operation does, and the entry it returns. -/
def Op.run {D : Type} (t : Table D) : Op D → Table D × List (Option (Entry D))
  | .insert string nosrch => let r := t.hashInsert string nosrch; (r.1, [r.2])
  | .search string create => let r := t.hashSearch string create; (r.1, [r.2])
  | .remove string => let r := t.hashRemove string; (r.1, [r.2])
  | .flush => (t.hashFlush, [])
  | .copy cpdata => (t.hashCopy cpdata, [])
  | .assign string data => (t.assign string data, [])

/-- A table that is worked on. -/
def hashlib (D : Type) : Transducer (Table D) (Op D) (Option (Entry D)) := ⟨Op.run⟩

/-! ## The map a table stands for -/

/-- A finite map from keys to data pointers. -/
abbrev Map (D : Type) := Key → Option (Option D)

/-- What an operation does to the map. -/
def Op.update {D : Type} (m : Map D) : Op D → Map D
  | .insert string _ =>
    if (m string).isSome then m else Function.update m string (some none)
  | .search string create =>
    if create = false ∨ (m string).isSome then m else Function.update m string (some none)
  | .remove string => Function.update m string none
  | .flush => fun _ => none
  | .copy cpdata => fun k => (m k).map (Option.map cpdata)
  | .assign string data =>
    if (m string).isSome then Function.update m string (some data) else m

end Basht.Hashing
