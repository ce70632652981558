import Mathlib.Data.Nat.Digits.Lemmas
import Basht.Hashing.Hashlib

/-!
# Hash tables are finite maps

In a sound table (`Table.Sound`) every entry lies in the bucket of its hash. The entries of
a table that refines a map (`Table.Refines`) list that map, in an order that no operation
depends on: each of them is one lemma about what it does to the entries.
-/

namespace Basht.Hashing

open Chains

theorem slot_lt {nbuckets : Int32} (h : 0 < nbuckets) (khash : UInt32) :
    slot nbuckets khash < nbuckets.toInt.toNat := by
  have hpos : 0 < nbuckets.toInt := Int32.lt_iff_toInt_lt.mp h
  have hlt : nbuckets.toNatClampNeg < 2 ^ 31 := nbuckets.toNatClampNeg_lt
  have hclamp : nbuckets.toInt.toNat = nbuckets.toNatClampNeg := Int32.toNat_toInt _
  have hnat : nbuckets = Int32.ofNat nbuckets.toNatClampNeg :=
    (Int32.ofNat_toNatClampNeg _ (Int32.le_of_lt h)).symm
  have hmask : (nbuckets - 1).toUInt32.toNat = nbuckets.toNatClampNeg - 1 := by
    rw [hnat, show (1 : Int32) = Int32.ofNat 1 from rfl, ← Int32.ofNat_sub _ _ (by omega),
      Int32.toUInt32_ofNat', ← hnat, UInt32.toNat_ofNat']
    exact Nat.mod_eq_of_lt (by omega)
  rw [slot, UInt32.toNat_and, hmask]
  have hle := Nat.and_le_right (n := khash.toNat) (m := nbuckets.toNatClampNeg - 1)
  omega

namespace Table

variable {D : Type} {t : Table D}

/-- Every entry lies in the bucket of its hash, which is the hash of its key, and
`nentries` counts the entries. -/
structure Sound (t : Table D) : Prop where
  pos : 0 < t.nbuckets
  length : t.bucketArray.length = t.nbuckets.toInt.toNat
  placed : Placed (fun e => slot t.nbuckets e.khash) t.bucketArray
  khash : ∀ e ∈ t.entries, e.khash = hashString e.key
  count : t.nentries = Int32.ofNat t.entries.length

/-- A sound table whose entries list the map `m`. -/
structure Refines (t : Table D) (m : Map D) : Prop extends t.Sound where
  lists : Tabulates Entry.key Entry.data t.entries m

namespace Sound

theorem bucket_lt (h : t.Sound) (string : Key) : t.hashBucket string < t.bucketArray.length := by
  rw [h.length]
  exact slot_lt h.pos _

theorem nentries_eq_zero (h : t.Sound) (hlt : t.entries.length < 2 ^ 32) :
    t.nentries = 0 ↔ t.entries = [] := by
  rw [h.count, ← List.length_eq_zero_iff]
  constructor
  · intro hzero
    have hnat := congrArg (fun x => x.toUInt32.toNat) hzero
    simp only [Int32.toUInt32_ofNat', UInt32.toNat_ofNat', Nat.mod_eq_of_lt hlt] at hnat
    exact hnat
  · intro hzero
    rw [hzero]
    rfl

/-- A bucket is replaced by other entries of that bucket. -/
theorem setBucket (h : t.Sound) {string : Key} {l rest : List (Entry D)} {nentries : Int32}
    (hl : ∀ e ∈ l, e.khash = hashString e.key ∧ slot t.nbuckets e.khash = t.hashBucket string)
    (hperm : (t.bucketArray.set (t.hashBucket string) l).flatten.Perm (l ++ rest))
    (hrest : ∀ e ∈ rest, e ∈ t.entries) (hcount : nentries = Int32.ofNat (l ++ rest).length) :
    Sound { t with bucketArray := t.bucketArray.set (t.hashBucket string) l, nentries } := by
  refine ⟨h.pos, (List.length_set).trans h.length, h.placed.set (h.bucket_lt string)
    fun e he => (hl e he).2, fun e he => ?_, ?_⟩
  · rcases List.mem_append.mp (hperm.mem_iff.mp he) with he | he
    · exact (hl e he).1
    · exact h.khash e (hrest e he)
  · rw [hcount, entries, hperm.length_eq]

/-- The walk along the bucket of a string finds its entry, if there is one. -/
theorem locate_none (h : t.Sound) {string : Key}
    (hloc : locate (same string) (chain t.bucketArray (t.hashBucket string)) = none) :
    ∀ e ∈ t.entries, e.key ≠ string := by
  rintro e he rfl
  have hmem := h.placed.mem_chain he
  rw [h.khash e he] at hmem
  have hsame := locate_eq_none.mp hloc e hmem
  simp [same, h.khash e he] at hsame

section Located

variable {string : Key} {before next : List (Entry D)} {e : Entry D}

/-- The entry found has the key, and it can be replaced or taken out of the table. -/
theorem located (h : t.Sound)
    (hloc : locate (same string) (chain t.bucketArray (t.hashBucket string)) =
      some (before, e, next)) :
    e.key = string ∧ ∃ rest, t.entries.Perm (e :: rest) ∧
      (∀ e', e'.key = string → e'.khash = e.khash →
        Sound { t with
          bucketArray := t.bucketArray.set (t.hashBucket string) (before ++ e' :: next) } ∧
        (t.bucketArray.set (t.hashBucket string) (before ++ e' :: next)).flatten.Perm
          (e' :: rest)) ∧
      Sound { t with
        bucketArray := t.bucketArray.set (t.hashBucket string) (before ++ next)
        nentries := t.nentries - 1 } ∧
      (t.bucketArray.set (t.hashBucket string) (before ++ next)).flatten.Perm rest := by
  obtain ⟨hchain, hsame⟩ := locate_eq_some hloc
  simp only [same, Bool.and_eq_true, beq_iff_eq] at hsame
  obtain ⟨hkhash, hkey⟩ := hsame
  have hbucket := h.bucket_lt string
  obtain ⟨others, hself, hset⟩ := exists_rest hbucket
  have hmem : ∀ d ∈ before ++ e :: next,
      d.khash = hashString d.key ∧ slot t.nbuckets d.khash = t.hashBucket string := by
    intro d hd
    rw [← hchain] at hd
    have hall : d ∈ t.entries := mem_flatten_iff.mpr ⟨_, hbucket, hd⟩
    exact ⟨h.khash d hall, h.placed _ d hd⟩
  have hothers : ∀ d ∈ others, d ∈ t.entries := fun d hd =>
    hself.mem_iff.mpr (List.mem_append_right _ hd)
  rw [hchain] at hself
  have hmiddle : ∀ e' : Entry D, (before ++ e' :: next ++ others).Perm
      (e' :: (before ++ next ++ others)) := by
    intro e'
    rw [List.append_assoc, List.append_assoc]
    exact List.perm_middle
  refine ⟨hkey, before ++ next ++ others, hself.trans (hmiddle e), fun e' hkey' hkhash' => ?_,
    ?_, hset _⟩
  · refine ⟨h.setBucket (fun d hd => ?_) (hset _) hothers ?_, (hset _).trans (hmiddle e')⟩
    · have hold : d ∈ before ++ e :: next ∨ d = e' := by
        simp only [List.mem_append, List.mem_cons] at hd ⊢
        tauto
      rcases hold with hold | rfl
      · exact hmem d hold
      · rw [hkhash', hkey', ← hkhash]
        exact ⟨rfl, rfl⟩
    · rw [h.count, entries, hself.length_eq, (hmiddle e).length_eq, (hmiddle e').length_eq]
      rfl
  · refine h.setBucket (fun d hd => hmem d ?_) (hset _) hothers ?_
    · simp only [List.mem_append, List.mem_cons] at hd ⊢
      tauto
    · rw [h.count, entries, hself.length_eq, (hmiddle e).length_eq, List.length_cons,
        Int32.ofNat_add]
      exact Int32.add_sub_cancel _ _

end Located

end Sound

/-! ## Creating an entry -/

theorem Sound.hashRehash (h : t.Sound) {nsize : Int32} (hsize : 0 < nsize) :
    (t.hashRehash nsize).Sound ∧ (t.hashRehash nsize).entries.Perm t.entries := by
  unfold Table.hashRehash
  split
  · exact ⟨h, List.Perm.refl _⟩
  · obtain ⟨hlen, hplaced, hperm⟩ :=
      redistribute_spec (fun e : Entry D => slot_lt hsize e.khash) t.entries
    refine ⟨⟨hsize, hlen, hplaced, fun e he => h.khash e (hperm.mem_iff.mp he), ?_⟩, hperm⟩
    rw [h.count]
    exact congrArg Int32.ofNat hperm.length_eq.symm

theorem Sound.grown (h : t.Sound) : t.grown.Sound ∧ t.grown.entries.Perm t.entries := by
  unfold Table.grown Table.hashGrow
  split
  · split
    · rename_i hsize
      exact h.hashRehash hsize
    · exact ⟨h, List.Perm.refl _⟩
  · exact ⟨h, List.Perm.refl _⟩

theorem Sound.create (h : t.Sound) (string : Key) :
    (t.create string).Sound ∧ (t.create string).entries.Perm (newEntry string :: t.entries) := by
  have hbucket := h.bucket_lt string
  obtain ⟨others, hself, hset⟩ := exists_rest hbucket
  have hperm : (t.create string).entries.Perm (newEntry string :: t.entries) :=
    (hset _).trans (List.Perm.cons _ hself.symm)
  refine ⟨h.setBucket (fun e he => ?_) (hset _) (fun e he => ?_) ?_, hperm⟩
  · rcases List.mem_cons.mp he with rfl | he
    · exact ⟨rfl, rfl⟩
    · have hall : e ∈ t.entries := mem_flatten_iff.mpr ⟨_, hbucket, he⟩
      exact ⟨h.khash e hall, h.placed _ e he⟩
  · exact hself.mem_iff.mpr (List.mem_append_right _ he)
  · rw [h.count, entries, hself.length_eq, List.cons_append, List.length_cons, Int32.ofNat_add]
    rfl

/-- An absent key is inserted into the table, which grows if it should. -/
theorem Refines.create {m : Map D} (h : t.Refines m) {string : Key} (hm : m string = none) :
    (t.grown.create string).Refines (Function.update m string (some none)) := by
  obtain ⟨hgrown, hperm⟩ := h.toSound.grown
  obtain ⟨hcreate, hperm'⟩ := hgrown.create string
  have hlists := (h.lists.perm hperm).cons (e := newEntry string) hm
  exact ⟨hcreate, hlists.perm hperm'⟩

/-! ## Looking up an entry -/

namespace Refines

variable {m : Map D} {string : Key}

theorem entries_eq_nil (h : t.Refines m) (hnil : t.entries = []) (string : Key) :
    m string = none := by
  refine h.lists.eq_none_iff.mpr ?_
  rw [hnil]
  simp

/-- The entry found is the one of the map, and replacing its data changes the map. -/
theorem replace (h : t.Refines m) {before next : List (Entry D)} {e d : Entry D}
    (hloc : locate (same string) (chain t.bucketArray (t.hashBucket string)) =
      some (before, e, next)) (hkey : d.key = e.key) (hkhash : d.khash = e.khash) :
    m string = some e.data ∧ d.key = string ∧
      Refines { t with
        bucketArray := t.bucketArray.set (t.hashBucket string) (before ++ d :: next) }
        (Function.update m string (some d.data)) := by
  obtain ⟨hstring, rest, hperm, hset, -⟩ := h.toSound.located hloc
  subst hstring
  obtain ⟨hsound, hperm'⟩ := hset d hkey hkhash
  have hlists := h.lists.perm hperm.symm
  exact ⟨hlists.eq_some (by simp), hkey, hsound, (hlists.replace hkey).perm hperm'⟩

theorem search_of_some (h : t.Refines m) (hlt : t.entries.length < 2 ^ 32) {d : Option D}
    (hm : m string = some d) (create : Bool) :
    ∃ e, (t.hashSearch string create).2 = some e ∧ e.key = string ∧ e.data = d ∧
      (t.hashSearch string create).1.Refines m := by
  unfold Table.hashSearch
  have hne : ¬(create = false ∧ t.nentries = 0) := by
    rintro ⟨-, hzero⟩
    rw [h.entries_eq_nil ((h.toSound.nentries_eq_zero hlt).mp hzero)] at hm
    cases hm
  rw [if_neg hne]
  simp only
  split
  · rename_i before list next hloc
    obtain ⟨hdata, hkey, hrefines⟩ :=
      h.replace (d := { list with timesFound := list.timesFound + 1 }) hloc rfl rfl
    cases hm.symm.trans hdata
    refine ⟨_, rfl, hkey, rfl, ?_⟩
    rwa [← hdata, Function.update_eq_self] at hrefines
  · rename_i hloc
    rw [h.lists.eq_none_iff.mpr (h.toSound.locate_none hloc)] at hm
    cases hm

theorem search_of_none (h : t.Refines m) (hm : m string = none) (create : Bool) :
    t.hashSearch string create =
      if create then (t.grown.create string, some (newEntry string)) else (t, none) := by
  unfold Table.hashSearch
  split
  · rename_i hempty
    rw [hempty.1]
    rfl
  · simp only
    split
    · rename_i before list next hloc
      obtain ⟨hdata, -, -⟩ := h.replace (d := list) hloc rfl rfl
      rw [hm] at hdata
      cases hdata
    · rfl

/-! ## Operations -/

theorem hashSearch (h : t.Refines m) (hlt : t.entries.length < 2 ^ 32) (string : Key)
    (create : Bool) :
    (t.hashSearch string create).1.Refines (Op.update m (.search string create)) := by
  cases hm : m string with
  | some d =>
    obtain ⟨e, -, -, -, hrefines⟩ := h.search_of_some hlt hm create
    simpa only [Op.update, hm, Option.isSome_some, or_true, if_true] using hrefines
  | none =>
    rw [h.search_of_none hm]
    cases create with
    | true => simpa [Op.update, hm] using h.create hm
    | false => simpa [Op.update] using h

theorem hashInsert (h : t.Refines m) (hlt : t.entries.length < 2 ^ 32) {string : Key}
    {nosrch : Bool} (hnosrch : nosrch = true → m string = none) :
    (t.hashInsert string nosrch).1.Refines (Op.update m (.insert string nosrch)) := by
  unfold Table.hashInsert
  cases hm : m string with
  | some d =>
    have hsearch : nosrch = false := by
      cases nosrch with
      | false => rfl
      | true => exact absurd ((hnosrch rfl).symm.trans hm) (by simp)
    subst hsearch
    obtain ⟨e, hfound, -, -, hrefines⟩ := h.search_of_some hlt hm false
    simpa only [Bool.false_eq_true, if_false, hfound, Op.update, hm, Option.isSome_some,
      if_true] using hrefines
  | none =>
    have hitem : (if nosrch = true then (t, none) else t.hashSearch string false) =
        (t, none) := by
      split
      · rfl
      · exact h.search_of_none hm false
    simpa [hitem, Op.update, hm] using h.create hm

theorem hashRemove (h : t.Refines m) (hlt : t.entries.length < 2 ^ 32) (string : Key) :
    (t.hashRemove string).1.Refines (Op.update m (.remove string)) := by
  have habsent : m string = none → Op.update m (.remove string) = m := by
    intro hm
    rw [Op.update, ← hm, Function.update_eq_self]
  unfold Table.hashRemove
  split
  · rename_i hzero
    rw [habsent (h.entries_eq_nil ((h.toSound.nentries_eq_zero hlt).mp hzero) string)]
    exact h
  · simp only
    split
    · rename_i before temp next hloc
      obtain ⟨hkey, rest, hperm, -, hsound, hrest⟩ := h.toSound.located hloc
      subst hkey
      exact ⟨hsound, (h.lists.perm hperm.symm).uncons.perm hrest⟩
    · rename_i hloc
      rw [habsent (h.lists.eq_none_iff.mpr (h.toSound.locate_none hloc))]
      exact h

theorem hashFlush (h : t.Refines m) (hlt : t.entries.length < 2 ^ 32) :
    t.hashFlush.Refines (Op.update m .flush) := by
  unfold Table.hashFlush
  split
  · rename_i hzero
    have hempty := h.entries_eq_nil ((h.toSound.nentries_eq_zero hlt).mp hzero)
    rw [Op.update, ← funext hempty]
    exact h
  · have hnil : (List.replicate t.nbuckets.toInt.toNat ([] : List (Entry D))).flatten = [] := by
      simp
    refine ⟨⟨h.pos, List.length_replicate, placed_replicate _ _, ?_, ?_⟩, ?_⟩
    · rw [entries, hnil]
      simp
    · rw [entries, hnil]
      rfl
    · rw [entries, hnil]
      exact Tabulates.nil

theorem hashCopy (h : t.Refines m) (cpdata : D → D) :
    (t.hashCopy cpdata).Refines (Op.update m (.copy cpdata)) := by
  have hsize : ¬t.nbuckets = 0 := by
    intro hzero
    have hpos := h.pos
    rw [hzero] at hpos
    exact Int32.lt_irrefl hpos
  have hbuckets : (t.hashCopy cpdata).nbuckets = t.nbuckets := if_neg hsize
  have hentries : (t.hashCopy cpdata).entries =
      t.entries.map fun e => { e with data := e.data.map cpdata } := by
    rw [entries, entries, List.map_flatten]
    rfl
  refine ⟨⟨?_, ?_, ?_, ?_, ?_⟩, ?_⟩
  · rw [hbuckets]
    exact h.pos
  · rw [hbuckets, ← h.length]
    exact List.length_map _
  · intro i e he
    rw [hbuckets]
    have hchain : chain (t.hashCopy cpdata).bucketArray i =
        (chain t.bucketArray i).map fun e => { e with data := e.data.map cpdata } := by
      simp only [chain, Table.hashCopy, List.getD_eq_getElem?_getD, List.getElem?_map]
      cases t.bucketArray[i]? <;> rfl
    rw [hchain] at he
    obtain ⟨d, hd, rfl⟩ := List.mem_map.mp he
    exact h.placed i d hd
  · rw [hentries]
    intro e he
    obtain ⟨d, hd, rfl⟩ := List.mem_map.mp he
    exact h.khash d hd
  · rw [hentries, List.length_map]
    exact h.count
  · rw [hentries]
    exact h.lists.map _ (Option.map cpdata) (fun _ => rfl) fun _ => rfl

theorem assign (h : t.Refines m) (string : Key) (data : Option D) :
    (t.assign string data).Refines (Op.update m (.assign string data)) := by
  unfold Table.assign
  simp only
  split
  · rename_i before list next hloc
    obtain ⟨hdata, -, hrefines⟩ := h.replace (d := { list with data }) hloc rfl rfl
    simpa only [Op.update, hdata, Option.isSome_some, if_true] using hrefines
  · rename_i hloc
    have hm := h.lists.eq_none_iff.mpr (h.toSound.locate_none hloc)
    simpa [Op.update, hm] using h

end Refines

/-! ## Walks -/

section Walk

variable {σ : Type} (func : σ → Entry D → σ × Int32)

theorem walkBucket_append (l l' : List (Entry D)) (s : σ) :
    walkBucket func (l ++ l') s =
      if (walkBucket func l s).2 then walkBucket func l s
      else walkBucket func l' (walkBucket func l s).1 := by
  induction l generalizing s with
  | nil => rfl
  | cons item l ih =>
    rw [List.cons_append, walkBucket, walkBucket]
    split
    · rfl
    · exact ih _

theorem walkFrom_eq (h : t.Sound) (n i : Nat) (hle : i + n = t.nbuckets.toInt.toNat) (s : σ) :
    walkFrom func t n i s = (walkBucket func (t.bucketArray.drop i).flatten s).1 := by
  induction n generalizing i s with
  | zero =>
    rw [List.drop_eq_nil_of_le (by rw [h.length]; omega)]
    rfl
  | succ n ih =>
    have hi : i < t.bucketArray.length := by
      rw [h.length]
      omega
    have hitems : t.hashItems i = t.bucketArray[i] := by
      rw [hashItems, if_pos (by omega), chain, List.getD_eq_getElem _ _ hi]
    rw [List.drop_eq_getElem_cons hi, List.flatten_cons, walkBucket_append, walkFrom, hitems]
    split
    · rfl
    · exact ih (i + 1) (by omega) _

/-- `hash_walk` calls `func` on one entry after another, until it returns less than 0. -/
theorem hashWalk_eq (h : t.Sound) (hlt : t.entries.length < 2 ^ 32) (s : σ) :
    t.hashWalk func s = (walkBucket func t.entries s).1 := by
  unfold hashWalk
  split
  · rename_i hzero
    rw [(h.nentries_eq_zero hlt).mp hzero]
    rfl
  · rw [walkFrom_eq func h _ 0 (Nat.zero_add _)]
    rfl

theorem walkBucket_record (l visited : List (Entry D)) :
    walkBucket (fun visited e => (visited ++ [e], 0)) l visited = (visited ++ l, false) := by
  induction l generalizing visited with
  | nil => rw [walkBucket, List.append_nil]
  | cons item l ih =>
    rw [walkBucket, if_neg (show ¬(0 : Int32) < 0 by decide), ih, List.append_assoc, List.singleton_append]

end Walk

end Table

/-! ## Runs -/

variable {D : Type}

/-- `HASH_NOSRCH` is given for absent keys only, and the entries that the operation leaves
can be counted by an `int`. -/
def Fits (t : Table D) (op : Op D) : Prop :=
  (∀ string, op = .insert string true → ∀ e ∈ t.entries, e.key ≠ string) ∧
    (op.run t).1.entries.length < 2 ^ 31

theorem Table.Refines.run {t : Table D} {m : Map D} (h : t.Refines m)
    (hlt : t.entries.length < 2 ^ 32) (op : Op D)
    (hnosrch : ∀ string, op = .insert string true → m string = none) :
    (op.run t).1.Refines (op.update m) := by
  cases op with
  | insert string nosrch =>
    refine h.hashInsert hlt fun htrue => ?_
    subst htrue
    exact hnosrch string rfl
  | search string create => exact h.hashSearch hlt string create
  | remove string => exact h.hashRemove hlt string
  | flush => exact h.hashFlush hlt
  | copy cpdata => exact h.hashCopy cpdata
  | assign string data => exact h.assign string data

theorem refines_hashCreate {buckets : Int32} (hb : 0 < buckets) :
    (Table.hashCreate (D := D) buckets).Refines fun _ => none := by
  have hne : ¬buckets = 0 := by
    rintro rfl
    exact Int32.lt_irrefl hb
  have hnil : (List.replicate buckets.toInt.toNat ([] : List (Entry D))).flatten = [] := by simp
  simp only [Table.hashCreate, if_neg hne]
  refine ⟨⟨hb, List.length_replicate, placed_replicate _ _, ?_, ?_⟩, ?_⟩
  · rw [Table.entries, hnil]
    simp
  · rw [Table.entries, hnil]
    rfl
  · rw [Table.entries, hnil]
    exact Tabulates.nil

theorem Table.Refines.final {t : Table D} {m : Map D} (h : t.Refines m)
    (hlt : t.entries.length < 2 ^ 31) (ops : List (Op D)) (hfits : (hashlib D).Along Fits t ops) :
    ((hashlib D).final t ops).Refines (ops.foldl Op.update m) ∧
      ((hashlib D).final t ops).entries.length < 2 ^ 31 := by
  induction ops generalizing t m with
  | nil => exact ⟨h, hlt⟩
  | cons op ops ih =>
    obtain ⟨⟨hnosrch, hlt'⟩, hrest⟩ := hfits
    have hrun := h.run (by omega) op fun string hop =>
      h.lists.eq_none_iff.mpr (hnosrch string hop)
    exact ih hrun hlt' hrest

/-- **Hash tables are finite maps through growth.** -/
theorem hashlib_finiteMap {buckets : Int32} (hb : 0 < buckets) (ops : List (Op D))
    (hfits : (hashlib D).Along Fits (Table.hashCreate buckets) ops) {t : Table D} {m : Map D}
    (ht : t = (hashlib D).final (Table.hashCreate buckets) ops)
    (hm : m = ops.foldl Op.update fun _ => none) :
    (∀ i, ∀ e ∈ chain t.bucketArray i,
        e.khash = hashString e.key ∧ i = (e.khash &&& (t.nbuckets - 1).toUInt32).toNat) ∧
      (t.entries.map Entry.key).Nodup ∧
      t.nentries.toInt = t.entries.length ∧
      (∀ string d create, m string = some d → ∃ e,
        (t.hashSearch string create).2 = some e ∧ e.key = string ∧ e.data = d) ∧
      (∀ string, m string = none → (t.hashSearch string false).2 = none) ∧
      Tabulates Entry.key Entry.data (t.hashWalk (fun visited e => (visited ++ [e], 0)) []) m := by
  subst ht hm
  obtain ⟨h, hlt⟩ := (refines_hashCreate hb).final (by simp [Table.entries, Table.hashCreate]) ops
    hfits
  have hlt' : ((hashlib D).final (Table.hashCreate buckets) ops).entries.length < 2 ^ 32 := by
    omega
  refine ⟨fun i e he => ?_, h.lists.nodup, ?_, fun string d create hd => ?_, fun string hnone => ?_,
    ?_⟩
  · have hslot := h.placed i e he
    refine ⟨h.khash e (mem_flatten_iff.mpr ⟨i, ?_, he⟩), hslot.symm⟩
    rw [h.length, ← hslot]
    exact slot_lt h.pos _
  · rw [h.count, Int32.toInt_ofNat_of_lt hlt]
  · obtain ⟨e, hfound, hkey, hdata, -⟩ := h.search_of_some hlt' hd create
    exact ⟨e, hfound, hkey, hdata⟩
  · rw [h.search_of_none hnone]
    rfl
  · rw [Table.hashWalk_eq _ h.toSound hlt', Table.walkBucket_record]
    exact h.lists

/-- Seven keys in a table of three buckets, which grows at the last of them. -/
theorem hashlib_finiteMap_seven : ∃ t : Table Nat,
    t = (hashlib Nat).final (Table.hashCreate 3) [.insert [1] true, .assign [1] (some 17),
      .insert [2] false, .search [3] true, .insert [4] false, .insert [5] false, .insert [6] false,
      .insert [7] false, .remove [4]] ∧
    t.nbuckets = 12 ∧ t.nentries.toInt = t.entries.length ∧
    ∃ e, (t.hashSearch [1] false).2 = some e ∧ e.data = some 17 := by
  have hfits : (hashlib Nat).Along Fits (Table.hashCreate 3) [.insert [1] true,
      .assign [1] (some 17), .insert [2] false, .search [3] true, .insert [4] false,
      .insert [5] false, .insert [6] false, .insert [7] false, .remove [4]] := by
    refine ⟨⟨?_, by decide⟩, ⟨?_, by decide⟩, ⟨?_, by decide⟩, ⟨?_, by decide⟩, ⟨?_, by decide⟩,
      ⟨?_, by decide⟩, ⟨?_, by decide⟩, ⟨?_, by decide⟩, ⟨?_, by decide⟩, trivial⟩
    · intro string _ e he
      cases he
    all_goals
      intro string hop
      cases hop
  obtain ⟨-, -, hcount, hfound, -⟩ := hashlib_finiteMap (by decide) _ hfits rfl rfl
  refine ⟨_, rfl, by decide, hcount, ?_⟩
  obtain ⟨e, he, -, hdata⟩ := hfound [1] (some 17) false rfl
  exact ⟨e, he, hdata⟩

/-! ## Tables too large for an `int` -/

theorem Table.Refines.insert_new {t : Table D} {m : Map D} (h : t.Refines m) {string : Key}
    (hm : m string = none) :
    (Op.run t (.insert string false)).1.Refines (Function.update m string (some none)) ∧
      (Op.run t (.insert string false)).1.entries.length = t.entries.length + 1 := by
  have hrun : (Op.run t (.insert string false)).1 = t.grown.create string := by
    have hsearch : t.hashSearch string false = (t, none) := h.search_of_none hm false
    simp only [Op.run, Table.hashInsert, Bool.false_eq_true, if_false, hsearch]
  obtain ⟨hgrown, hperm⟩ := h.toSound.grown
  rw [hrun]
  refine ⟨h.create hm, ?_⟩
  rw [(hgrown.create string).2.length_eq, List.length_cons, hperm.length_eq]

/-- New keys are inserted one after another. -/
theorem Table.Refines.insert_all {t : Table D} {m : Map D} (h : t.Refines m) {keys : List Key}
    (hnodup : keys.Nodup) (habsent : ∀ k ∈ keys, m k = none) :
    ((hashlib D).final t (keys.map fun k => .insert k false)).Sound ∧
      ((hashlib D).final t (keys.map fun k => .insert k false)).entries.length =
        t.entries.length + keys.length := by
  induction keys generalizing t m with
  | nil => exact ⟨h.toSound, rfl⟩
  | cons k keys ih =>
    obtain ⟨hk, hnodup⟩ := List.nodup_cons.mp hnodup
    obtain ⟨hinsert, hlen⟩ := h.insert_new (habsent k (by simp))
    obtain ⟨hsound, hall⟩ := ih hinsert hnodup fun k' hk' => by
      have hne : k' ≠ k := fun heq => hk (heq ▸ hk')
      rw [Function.update_of_ne hne]
      exact habsent k' (List.mem_cons_of_mem _ hk')
    refine ⟨hsound, hall.trans ?_⟩
    rw [hlen, List.length_cons]
    omega

/-- A decimal numeral. -/
def numeral (i : Nat) : Key := (Nat.digits 10 i).map fun d => UInt8.ofNat (d + 48)

theorem numeral_injective : Function.Injective numeral := by
  have hinv : ∀ i, Nat.ofDigits 10 ((numeral i).map fun c => c.toNat - 48) = i := by
    intro i
    have hdigits : (numeral i).map (fun c => c.toNat - 48) = Nat.digits 10 i := by
      rw [numeral, List.map_map]
      refine (List.map_congr_left fun d hd => ?_).trans (List.map_id _)
      have hlt : d < 10 := Nat.digits_lt_base (by decide) hd
      simp only [Function.comp_apply, UInt8.toNat_ofNat', id]
      omega
    rw [hdigits, Nat.ofDigits_digits]
  intro i j hij
  rw [← hinv i, hij, hinv j]

/-- The numerals below `n`; not to be evaluated. -/
@[irreducible] def numerals (n : Nat) : List Key := (List.range n).map numeral

/-- All numerals below `n` have been inserted. -/
theorem nentries_numerals (n : Nat) :
    (hashlib Unit).Along (fun t op => ∀ string, op = .insert string true →
        ∀ e ∈ t.entries, e.key ≠ string) (Table.hashCreate 128)
      ((numerals n).map fun k => .insert k false) ∧
    ((hashlib Unit).final (Table.hashCreate 128)
        ((numerals n).map fun k => .insert k false)).nentries = Int32.ofNat n ∧
      ((hashlib Unit).final (Table.hashCreate 128)
        ((numerals n).map fun k => .insert k false)).entries.length = n := by
  have hnodup : (numerals n).Nodup := by
    rw [numerals]
    exact List.nodup_range.map numeral_injective
  have hstart : (Table.hashCreate (D := Unit) 128).Refines fun _ => none :=
    refines_hashCreate (by decide)
  obtain ⟨hsound, hlen⟩ := hstart.insert_all hnodup fun _ _ => rfl
  have hzero : (Table.hashCreate (D := Unit) 128).entries.length = 0 := by
    rw [Table.entries, Table.hashCreate]
    simp
  have hcard : (numerals n).length = n := by
    rw [numerals, List.length_map, List.length_range]
  rw [hzero, Nat.zero_add, hcard] at hlen
  refine ⟨Transducer.along_of_forall _ (fun t op hop string hins => ?_) _,
    hsound.count.trans (congrArg Int32.ofNat hlen), hlen⟩
  obtain ⟨k, -, rfl⟩ := List.mem_map.mp hop
  cases hins

/-- 2^31 keys are inserted into a table of 128 buckets. -/
theorem nentries_overflows :
    (hashlib Unit).Along (fun t op => ∀ string, op = .insert string true →
        ∀ e ∈ t.entries, e.key ≠ string) (Table.hashCreate 128)
      ((numerals (2 ^ 31)).map fun k => .insert k false) ∧
    ((hashlib Unit).final (Table.hashCreate 128)
        ((numerals (2 ^ 31)).map fun k => .insert k false)).nentries.toInt ≠
      ((hashlib Unit).final (Table.hashCreate 128)
        ((numerals (2 ^ 31)).map fun k => .insert k false)).entries.length := by
  obtain ⟨hsearched, hcount, hlen⟩ := nentries_numerals (2 ^ 31)
  refine ⟨hsearched, ?_⟩
  rw [hcount, hlen]
  decide

end Basht.Hashing
