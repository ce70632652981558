import Basht.Arrays.FiniteMap
import Basht.Arrays.VectorShifts

/-!
# The alternate array implementation

Runs of `array2.c` beside runs of `array.c`. As long as the slots of the vector fit what the
operations do (`Op.Fits`), both hold the same map and return the same values, except that
`array_insert` of `array2.c` says `-1` where it creates an element. Shifts of sparse arrays,
shifts beyond the end of the block and copies of empty arrays do not fit.
-/

namespace Basht.Arrays

variable {V : Type}

/-- What an operation returns to its caller; elements with their index and value. -/
inductive Result (V : Type) where
  | status (n : Int)
  | element (e : Option (Int × Option V))
  | value (v : Option V)
  | elements (es : List (Int × Option V))
  | done
  deriving DecidableEq

/-- The elements of a chain that ends with a null pointer. -/
def Arr.chain (a : Arr V) : Nat → Nat → Option (List (Int × Option V))
  | 0, _ => none
  | fuel + 1, p =>
    if p = 0 then some [] else (chain a fuel (a.next p)).map ((a.ind p, a.value p) :: ·)

/-- A call into `array.c`; after `array_copy` the caller goes on with the copy. -/
def Op.call (fuel : Nat) (a : Arr V) : Op V → Option (Arr V × Result V)
  | .insert i v => (a.arrayInsert fuel i v).map fun (a, n) => (a, .status n)
  | .remove i => (a.arrayRemove fuel i).map fun (a, ae) =>
      (a, .element (if ae = 0 then none else some (a.ind ae, a.value ae)))
  | .reference i => (a.arrayReference fuel i).map fun (a, v) => (a, .value v)
  | .shift n dispose => do
    let (a, ret) ← a.arrayShift fuel n dispose
    let es ← a.chain fuel ret
    some (a, .elements es)
  | .rshift n s => (a.arrayRshift fuel n s).map fun (a, n) => (a, .status n)
  | .flush => some (a.arrayFlush, .done)
  | .copy => (a.arrayCopy fuel).map fun a => (a, .done)

/-- A call into `array2.c`. -/
def Op.callVec (a : Vec V) : Op V → Option (Vec V × Result V)
  | .insert i v => (a.arrayInsert i v).map fun (a, n) => (a, .status n)
  | .remove i => (a.arrayRemove i).map fun (a, ae) =>
      (a, .element (if ae = 0 then none else some (a.ind ae, a.value ae)))
  | .reference i => (a.arrayReference i).map fun v => (a, .value v)
  | .shift n dispose => (a.arrayShift n dispose).map fun (a, r) =>
      (a, .elements (r.map fun ae => (a.ind ae, a.value ae)))
  | .rshift n s => (a.arrayRshift n s).map fun (a, n) => (a, .status n)
  | .flush => a.arrayFlush.map fun a => (a, .done)
  | .copy => a.arrayCopy.map fun a => (a, .done)

/-- A run: the last array, and what the calls returned. -/
def calls {σ : Type} (call : σ → Op V → Option (σ × Result V)) :
    σ → List (Op V) → Option (σ × List (Result V))
  | a, [] => some (a, [])
  | a, o :: ops => do
    let (a, r) ← call a o
    let (a, rs) ← calls call a ops
    some (a, r :: rs)

/-- Each step of a run of vectors meets `P`. -/
def Along (P : Vec V → Op V → Prop) : Vec V → List (Op V) → Prop
  | _, [] => True
  | a, o :: ops => P a o ∧ ∀ b r, o.callVec a = some (b, r) → Along P b ops

/-- The arguments of the callers: indices from 0 on, and counts that are `int`s. -/
def Op.Valid : Op V → Prop
  | .insert i _ => 0 ≤ i
  | .shift n _ => n ≤ 2147483647
  | .rshift n _ => n ≤ 2147483647
  | _ => True

/-- The vector is fit for the operation: the bytes of a larger block can be counted, the loops
stay within the block and the range of `int`, the slots move as the elements do, and an array
that is copied has elements or no block. -/
def Op.Fits (a : Vec V) : Op V → Prop
  | .insert i _ => i ≥ a.allocSize → i + 1024 < 2305843009213693952
  | .shift n _ => 0 < n → a.isEmpty = false → n + 1 ≤ 2147483647 ∧
      (a.numElements ≤ n → a.maxIndex + 1 ≤ 2147483647) ∧
      (n < a.numElements → a.Shifts n.toNat)
  | .rshift n _ => 0 < n → a.maxIndex + n < a.room n
  | .flush => a.isEmpty = true ∨ a.maxIndex + 1 ≤ 2147483647
  | .copy => a.numElements = 0 → a.allocSize = 0
  | _ => True

/-- The operation inserts at an index that has no element. -/
def Op.Creates (a : Vec V) : Op V → Prop
  | .insert i _ => a.slot i = 0
  | _ => False

variable {a : Arr V} {as : List Nat} {b : Vec V} {m : Map V}

/-! ## What `array.c` returns -/

theorem Chained.chain {xs : List Nat} {p fuel : Nat} (h : Chained a xs p) (hfuel : xs.length < fuel) :
    a.chain fuel p = some (xs.map fun q => (a.ind q, a.value q)) := by
  induction xs generalizing p fuel with
  | nil =>
    obtain ⟨fuel, rfl⟩ := Nat.exists_eq_succ_of_ne_zero (Nat.ne_of_gt hfuel)
    obtain rfl : 0 = p := Option.some.inj h.first
    rfl
  | cons x xs ih =>
    obtain ⟨fuel, rfl⟩ := Nat.exists_eq_succ_of_ne_zero (Nat.ne_of_gt (Nat.zero_lt_of_lt hfuel))
    obtain rfl : x = p := Option.some.inj h.first
    have hlinks := h.links
    rw [List.cons_append] at hlinks
    have hnext : (xs ++ [0]).head? = some (a.next x) := by
      cases xs with
      | nil => exact congrArg some (List.isChain_cons_cons.mp hlinks).1.symm
      | cons y xs => exact congrArg some (List.isChain_cons_cons.mp hlinks).1.symm
    have hrest : Chained a xs (a.next x) :=
      ⟨hnext, hlinks.tail, fun q hq => h.nonnull q (List.mem_cons_of_mem _ hq)⟩
    rw [Arr.chain, if_neg (h.nonnull x (by simp)), ih hrest (by simpa using hfuel)]
    rfl

theorem Holds.firsts (h : Holds a as m) (n : Nat) : Firsts a.ind a.value (as.take n) m n := by
  refine ⟨?_, fun k v => ?_⟩
  · have hsorted := List.pairwise_map.mp h.sorted_elements
    exact hsorted.sublist (List.take_sublist n as)
  · constructor
    · rintro ⟨q, hq, rfl, rfl⟩
      refine ⟨h.lists.eq_some (List.mem_of_mem_take hq), ?_⟩
      obtain ⟨s, t, hst⟩ := List.append_of_mem hq
      have hall : Holds a (s ++ q :: (t ++ as.drop n)) m := by
        rw [← List.cons_append, ← List.append_assoc, ← hst, List.take_append_drop]
        exact h
      have hlen := congrArg List.length hst
      rw [List.length_append, List.length_cons, List.length_take] at hlen
      have hrank : m.rank (a.ind q) = s.length := hall.ncard_lt
      omega
    · rintro ⟨hm, hlt⟩
      obtain ⟨q, hq, rfl, rfl⟩ := (h.lists.mem_iff k v).mp hm
      obtain ⟨s, t, rfl⟩ := List.append_of_mem hq
      have hrank : m.rank (a.ind q) = s.length := h.ncard_lt
      refine ⟨q, ?_, rfl, rfl⟩
      rw [List.take_append, List.mem_append]
      obtain ⟨d, hd⟩ : ∃ d, n - s.length = d + 1 := ⟨n - s.length - 1, by omega⟩
      rw [hd, List.take_succ_cons]
      exact Or.inr (List.mem_cons_self ..)

theorem Holds.ncard (h : Holds a as m) : {k | (m k).isSome}.ncard = as.length := by
  have hset : {k | (m k).isSome} = ((as.map a.ind).toFinset : Set Int) := by
    ext k
    simp only [Set.mem_ofPred_eq, List.coe_toFinset, List.mem_map]
    constructor
    · intro hk
      obtain ⟨v, hv⟩ := Option.isSome_iff_exists.mp hk
      obtain ⟨q, hq, hqk, -⟩ := (h.lists.mem_iff k v).mp hv
      exact ⟨q, hq, hqk⟩
    · rintro ⟨q, hq, rfl⟩
      rw [h.lists.eq_some hq]
      rfl
  rw [hset, Set.ncard_coe_finset, List.toFinset_card_of_nodup h.lists.nodup, List.length_map]

/-! ## Both side by side -/

/-- The shift of an array that has nothing to shift out. -/
theorem Vec.arrayShift_idle (b : Vec V) {n : Int} (hn : b.isEmpty = true ∨ n ≤ 0) (dispose : Bool) :
    b.arrayShift n dispose = some (b, []) := if_pos hn

/-- A shift on both arrays. -/
theorem Op.agree_shift (hb : b.Keeps m) (ha : Holds a as m) {n : Int} {dispose : Bool}
    (hfits : (Op.shift n dispose : Op V).Fits b) {fuel : Nat} (hfuel : as.length < fuel) :
    ∃ b' r a' as', (Op.shift n dispose).callVec b = some (b', r) ∧
      (Op.shift n dispose).call fuel a = some (a', r) ∧ b'.Keeps (m.shift n.toNat) ∧
      Holds a' as' (m.shift n.toNat) ∧ as'.length ≤ as.length + 1 := by
  obtain ⟨a', as', ret, hrun, hholds, hlen, hchain, hsame⟩ :=
    ha.arrayShift_returns n dispose hfuel
  have htake : (if dispose then [] else as.take n.toNat).length < fuel := by
    refine lt_of_le_of_lt ?_ hfuel
    cases dispose with
    | true => exact Nat.zero_le _
    | false =>
      rw [if_neg Bool.false_ne_true, List.length_take]
      exact Nat.min_le_right _ _
  have hcall : (Op.shift n dispose).call fuel a = some (a', .elements
      ((if dispose then [] else as.take n.toNat).map fun q => (a'.ind q, a'.value q))) := by
    unfold Op.call
    simp only [hrun, Option.bind_eq_bind, Option.bind_some, hchain.chain htake]
  by_cases hidle : b.isEmpty = true ∨ n ≤ 0
  · have hnil : as.take n.toNat = [] := by
      rcases hidle with hempty | hn
      · have hm := hb.isEmpty_iff.mp hempty
        have hcount := ha.ncard
        rw [hm] at hcount
        have has : as = [] := by
          rw [← List.length_eq_zero_iff, ← hcount]
          simp
        rw [has, List.take_nil]
      · rw [Int.toNat_of_nonpos hn, List.take_zero]
    have hshift : m.shift n.toNat = m := by
      rcases hidle with hempty | hn
      · rw [hb.isEmpty_iff.mp hempty]
        funext j
        rw [Map.shift_eq, ite_self]
      · rw [Int.toNat_of_nonpos hn]
        funext j
        simp [Map.shift]
    refine ⟨b, .elements [], a', as', ?_, ?_, by rw [hshift]; exact hb, hholds,
      Nat.le_succ_of_le hlen⟩
    · exact congrArg (Option.map _) (b.arrayShift_idle hidle dispose)
    · rw [hcall, hnil, ite_self]
      rfl
  · obtain ⟨hne, hn⟩ := not_or.mp hidle
    have hpos : 0 < n := Int.not_le.mp hn
    obtain ⟨hint, hfew, hmany⟩ := hfits hpos (Bool.not_eq_true _ ▸ hne)
    lift n to Nat using hpos.le
    obtain ⟨b', r, hvec, hkeeps, hfirsts⟩ := hb.arrayShift (by omega) hne dispose hint hfew hmany
    have hequal := hfirsts.unique ((ha.firsts n).congr hsame)
    refine ⟨b', _, a', as', ?_, hcall, hkeeps, hholds, Nat.le_succ_of_le hlen⟩
    refine (congrArg (Option.map _) hvec).trans (congrArg (fun es => some (b', Result.elements es)) ?_)
    cases dispose with
    | true => rfl
    | false => exact hequal

/-- One operation on both arrays: they hold the same map afterwards, and they return the same
unless the operation creates an element. -/
theorem Op.agree (hb : b.Keeps m) (ha : Holds a as m) {o : Op V} (hvalid : o.Valid)
    (hfits : o.Fits b) {fuel : Nat} (hfuel : as.length < fuel) :
    ∃ b' r a' as' r', o.callVec b = some (b', r) ∧ o.call fuel a = some (a', r') ∧
      b'.Keeps (o.update m) ∧ Holds a' as' (o.update m) ∧ as'.length ≤ as.length + 1 ∧
      (r = r' ↔ ¬o.Creates b) := by
  cases o with
  | insert i v =>
    obtain ⟨b', hvec, hkeeps⟩ := hb.arrayInsert hvalid hfits v
    obtain ⟨a', as', hrun, hholds, hlen⟩ := ha.arrayInsert hvalid v hfuel
    refine ⟨b', _, a', as', _, congrArg (Option.map _) hvec, congrArg (Option.map _) hrun, hkeeps,
      hholds, hlen, ?_⟩
    have hslot : (Op.insert i v).Creates b ↔ ¬(m i).isSome := by
      rw [hb.isSome_iff, not_not]
      exact Iff.rfl
    rw [hslot, not_not]
    by_cases hsome : (m i).isSome = true
    · simp [hsome]
    · simp [hsome]
  | remove i =>
    obtain ⟨b', ae, hvec, hkeeps, hnull, helement⟩ := hb.arrayRemove i
    obtain ⟨a', as', ae', hrun, hholds, hlen, hnull', helement'⟩ := ha.arrayRemove_returns i hfuel
    refine ⟨b', _, a', as', _, congrArg (Option.map _) hvec, congrArg (Option.map _) hrun, hkeeps,
      hholds, Nat.le_succ_of_le hlen, iff_of_true ?_ (fun h => h)⟩
    refine congrArg Result.element ?_
    cases hm : m i with
    | none =>
      have hae : ae = 0 := by
        by_contra hne
        rw [(helement hne).2] at hm
        cases hm
      have hae' : ae' = 0 := by
        by_contra hne
        rw [(helement' hne).2] at hm
        cases hm
      rw [if_pos hae, if_pos hae']
    | some v =>
      have hae : ae ≠ 0 := by
        intro hzero
        rw [hnull hzero] at hm
        cases hm
      have hae' : ae' ≠ 0 := by
        intro hzero
        rw [hnull' hzero] at hm
        cases hm
      obtain ⟨hind, hv⟩ := helement hae
      obtain ⟨hind', hv'⟩ := helement' hae'
      rw [if_neg hae, if_neg hae', hind, hind', Option.some.inj (hv.symm.trans hv')]
  | reference i =>
    obtain ⟨a', hrun, hholds⟩ := ha.arrayReference i hfuel
    exact ⟨b, _, a', as, _, congrArg (Option.map _) (hb.arrayReference i),
      congrArg (Option.map _) hrun, hb, hholds, Nat.le_succ _, iff_of_true rfl (fun h => h)⟩
  | shift n dispose =>
    obtain ⟨b', r, a', as', hvec, hrun, hkeeps, hholds, hlen⟩ := Op.agree_shift hb ha hfits hfuel
    exact ⟨b', r, a', as', r, hvec, hrun, hkeeps, hholds, hlen, iff_of_true rfl (fun h => h)⟩
  | rshift n s =>
    obtain ⟨b', hvec, hkeeps⟩ := hb.arrayRshift n s hvalid hfits
    obtain ⟨a', as', hrun, hholds, hlen⟩ := ha.arrayRshift_returns n s hfuel
    refine ⟨b', _, a', as', _, congrArg (Option.map _) hvec, congrArg (Option.map _) hrun, hkeeps,
      hholds, hlen, iff_of_true (congrArg Result.status ?_) (fun h => h)⟩
    have hcount : b'.numElements = a'.numElements := by
      rw [hkeeps.count, hholds.count, hholds.ncard]
    exact hcount
  | flush =>
    obtain ⟨b', hvec, hkeeps⟩ := hb.arrayFlush hfits
    exact ⟨b', _, _, [], _, congrArg (Option.map _) hvec, rfl, hkeeps, ha.arrayFlush,
      Nat.zero_le _, iff_of_true rfl (fun h => h)⟩
  | copy =>
    obtain ⟨b', hvec, hkeeps⟩ := hb.arrayCopy hfits
    obtain ⟨a', as', hrun, hholds, hlen⟩ := ha.arrayCopy hfuel
    exact ⟨b', _, a', as', _, congrArg (Option.map _) hvec, congrArg (Option.map _) hrun, hkeeps,
      hholds, Nat.le_succ_of_le (Nat.le_of_eq hlen), iff_of_true rfl (fun h => h)⟩

/-- Runs of both. -/
theorem calls_agree (hb : b.Keeps m) (ha : Holds a as m) {ops : List (Op V)}
    (hvalid : ∀ o ∈ ops, o.Valid) (hfits : Along (fun b o => o.Fits b) b ops) {fuel : Nat}
    (hfuel : as.length + ops.length < fuel) :
    ∃ b' rs a' as' rs', calls Op.callVec b ops = some (b', rs) ∧
      calls (Op.call fuel) a ops = some (a', rs') ∧ b'.Keeps (ops.foldl Op.update m) ∧
      Holds a' as' (ops.foldl Op.update m) ∧
      (rs = rs' ↔ Along (fun b o => ¬o.Creates b) b ops) := by
  induction ops generalizing b a as m with
  | nil => exact ⟨b, [], a, as, [], rfl, rfl, hb, ha, iff_of_true rfl trivial⟩
  | cons o ops ih =>
    obtain ⟨ho, hops⟩ := List.forall_mem_cons.mp hvalid
    rw [List.length_cons] at hfuel
    have hshort : as.length < fuel := by omega
    obtain ⟨b₁, r, a₁, as₁, r', hvec, hrun, hkeeps, hholds, hlen, hsame⟩ :=
      Op.agree hb ha ho hfits.1 hshort
    obtain ⟨b₂, rs, a₂, as₂, rs', hvecs, hruns, hkeeps', hholds', hsames⟩ :=
      ih hkeeps hholds hops (hfits.2 b₁ r hvec) (by omega)
    refine ⟨b₂, r :: rs, a₂, as₂, r' :: rs', ?_, ?_, hkeeps', hholds', ?_⟩
    · simp only [calls, hvec, hvecs, Option.bind_eq_bind, Option.bind_some]
    · simp only [calls, hrun, hruns, Option.bind_eq_bind, Option.bind_some]
    · rw [List.cons_eq_cons, hsame, hsames]
      constructor
      · rintro ⟨hnew, hrest⟩
        refine ⟨hnew, fun b' r'' heq => ?_⟩
        obtain rfl := congrArg Prod.fst (Option.some.inj (hvec.symm.trans heq))
        exact hrest
      · intro h
        exact ⟨h.1, h.2 b₁ r hvec⟩

/-- From two new arrays, as long as the vector is fit for each operation, both
implementations end with the same map, the vector in a block that holds nothing else,
and they return the same if and only if no operation creates an element. -/
theorem vector_agrees (ops : List (Op V)) (hvalid : ∀ o ∈ ops, o.Valid)
    (hfits : Along (fun b o => o.Fits b) Vec.arrayCreate ops) (fuel : Nat)
    (hfuel : ops.length < fuel) :
    ∃ b rs a as rs', calls Op.callVec Vec.arrayCreate ops = some (b, rs) ∧
      calls (Op.call fuel) Arr.arrayCreate ops = some (a, rs') ∧
      b.Keeps (ops.foldl Op.update fun _ => none) ∧
      Holds a as (ops.foldl Op.update fun _ => none) ∧
      (rs = rs' ↔ Along (fun b o => ¬o.Creates b) Vec.arrayCreate ops) :=
  calls_agree Vec.keeps_arrayCreate holds_arrayCreate hvalid hfits (by simpa using hfuel)

/-- A shift within the block, and what is left of it. -/
theorem vector_agrees_two : ∃ b rs a as rs',
    calls Op.callVec Vec.arrayCreate [.rshift 3 (some 'a'), .reference 0] = some (b, rs) ∧
    calls (Op.call 3) Arr.arrayCreate [.rshift 3 (some 'a'), .reference 0] = some (a, rs') ∧
    b.Keeps ([.rshift 3 (some 'a'), .reference 0].foldl Op.update fun _ => none) ∧
    Holds a as ([.rshift 3 (some 'a'), .reference 0].foldl Op.update fun _ => none) ∧
    (rs = rs' ↔ Along (fun b o => ¬o.Creates b) Vec.arrayCreate
      [.rshift 3 (some 'a'), .reference 0]) := by
  have hfits : Along (fun b o => o.Fits b) Vec.arrayCreate
      [.rshift 3 (some 'a'), .reference 0] := by
    refine ⟨fun _ => ?_, fun _ _ _ => ⟨trivial, fun _ _ _ => trivial⟩⟩
    have hroom : (Vec.arrayCreate : Vec Char).maxIndex + 3 <
        (Vec.arrayCreate : Vec Char).room 3 := by
      decide +kernel
    exact hroom
  exact vector_agrees _ (by simp [Op.Valid]) hfits 3 (by decide)

/-- The first insertion returns `-1`; a shift of the elements 0, 2 and 3 by two leaves one at 0
instead of 1; and a shift behind the last slot of the block, or an insertion into the copy of an
array that has become empty, is not carried out at all. -/
theorem vector_disagrees :
    (calls Op.callVec Vec.arrayCreate [.insert 0 (some 'a')]).map Prod.snd =
        some [.status (-1)] ∧
      (calls (Op.call 9) Arr.arrayCreate [.insert 0 (some 'a')]).map Prod.snd =
        some [.status 0] ∧
      (calls Op.callVec Vec.arrayCreate [.insert 0 (some 'a'), .insert 2 (some 'b'),
          .insert 3 (some 'c'), .shift 2 true, .reference 0, .reference 1]).map Prod.snd =
        some [.status (-1), .status (-1), .status (-1), .elements [], .value (some 'b'),
          .value none] ∧
      (calls (Op.call 9) Arr.arrayCreate [.insert 0 (some 'a'), .insert 2 (some 'b'),
          .insert 3 (some 'c'), .shift 2 true, .reference 0, .reference 1]).map Prod.snd =
        some [.status 0, .status 0, .status 0, .elements [], .value none, .value (some 'c')] ∧
      (calls Op.callVec Vec.arrayCreate
          [.insert 1023 (some 'a'), .rshift 1 none]).map Prod.snd = none ∧
      (calls (Op.call 9) Arr.arrayCreate
          [.insert 1023 (some 'a'), .rshift 1 none]).map Prod.snd =
        some [.status 0, .status 1] ∧
      (calls Op.callVec Vec.arrayCreate
          [.insert 0 (some 'a'), .flush, .copy, .insert 0 (some 'b')]).map Prod.snd = none ∧
      (calls (Op.call 9) Arr.arrayCreate
          [.insert 0 (some 'a'), .flush, .copy, .insert 0 (some 'b')]).map Prod.snd =
        some [.status 0, .done, .done, .status 0] := by
  decide +kernel

end Basht.Arrays
