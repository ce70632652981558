import Mathlib.Data.List.Basic
import Mathlib.Data.List.GetD
import Mathlib.Data.List.Nodup
import Mathlib.Data.List.Perm.Basic
import Mathlib.Logic.Function.Basic

/-!
# Chained tables

Values kept in chains, one chain for each slot, and the finite map they hold.

* `locate`: the walk along a chain to the first value that meets a test.
* `exists_rest`: the values of all chains, split at one chain; every operation replaces
  one chain.
* `Placed`: every value is in the chain of its slot; `redistribute` puts the values of a
  table into new chains.
* `Tabulates`: a list of values with distinct keys lists a map; it does not depend on
  the order (`Tabulates.perm`).
-/

namespace Basht.Chains

variable {β κ δ : Type}

/-- The values before the first one that meets `p`, that value, and those behind it. -/
def locate (p : β → Bool) : List β → Option (List β × β × List β)
  | [] => none
  | e :: l =>
    if p e then some ([], e, l)
    else (locate p l).map fun r => (e :: r.1, r.2)

theorem locate_eq_none {p : β → Bool} {l : List β} :
    locate p l = none ↔ ∀ e ∈ l, p e = false := by
  induction l with
  | nil => simp [locate]
  | cons e l ih =>
    cases he : p e <;> simp [locate, he, ih]

theorem locate_eq_some {p : β → Bool} {l a b : List β} {e : β} (h : locate p l = some (a, e, b)) :
    l = a ++ e :: b ∧ p e = true := by
  induction l generalizing a with
  | nil => cases h
  | cons x l ih =>
    cases hx : p x with
    | true =>
      simp only [locate, hx, if_true, Option.some.injEq, Prod.mk.injEq] at h
      obtain ⟨rfl, rfl, rfl⟩ := h
      exact ⟨rfl, hx⟩
    | false =>
      simp only [locate, hx, Bool.false_eq_true, if_false, Option.map_eq_some_iff] at h
      obtain ⟨⟨a', e', b'⟩, hloc, heq⟩ := h
      cases heq
      obtain ⟨rfl, he⟩ := ih hloc
      exact ⟨rfl, he⟩

/-- The chain of a slot. -/
def chain (cs : List (List β)) (i : Nat) : List β := cs.getD i []

theorem mem_flatten_iff {cs : List (List β)} {e : β} :
    e ∈ cs.flatten ↔ ∃ i, i < cs.length ∧ e ∈ chain cs i := by
  rw [List.mem_flatten]
  constructor
  · rintro ⟨l, hl, he⟩
    obtain ⟨i, hi, rfl⟩ := List.mem_iff_getElem.mp hl
    exact ⟨i, hi, by rwa [chain, List.getD_eq_getElem _ _ hi]⟩
  · rintro ⟨i, hi, he⟩
    rw [chain, List.getD_eq_getElem _ _ hi] at he
    exact ⟨cs[i], List.getElem_mem hi, he⟩

theorem chain_set {cs : List (List β)} {i : Nat} (hi : i < cs.length) (l : List β) (j : Nat) :
    chain (cs.set i l) j = if i = j then l else chain cs j := by
  simp only [chain, List.getD_eq_getElem?_getD, List.getElem?_set, hi, if_true]
  split <;> rfl

/-- All values are those of one chain and the rest, whatever that chain is replaced by. -/
theorem exists_rest {cs : List (List β)} {i : Nat} (hi : i < cs.length) :
    ∃ rest, cs.flatten.Perm (chain cs i ++ rest) ∧
      ∀ l, (cs.set i l).flatten.Perm (l ++ rest) := by
  have hsplit : ∀ l, (cs.set i l).flatten.Perm (l ++ ((cs.take i).flatten ++
      (cs.drop (i + 1)).flatten)) := by
    intro l
    rw [List.set_eq_take_append_cons_drop, if_pos hi, List.flatten_append, List.flatten_cons,
      ← List.append_assoc, ← List.append_assoc]
    exact List.Perm.append_right _ List.perm_append_comm
  refine ⟨_, ?_, hsplit⟩
  have hself := hsplit (chain cs i)
  rw [chain, List.getD_eq_getElem _ _ hi] at hself ⊢
  rwa [List.set_getElem_self] at hself

/-! ## Slots -/

/-- Every value is in the chain of its slot. -/
def Placed (slot : β → Nat) (cs : List (List β)) : Prop := ∀ i, ∀ e ∈ chain cs i, slot e = i

section Placed

variable {slot : β → Nat} {cs : List (List β)}

theorem Placed.mem_chain (h : Placed slot cs) {e : β} (he : e ∈ cs.flatten) :
    e ∈ chain cs (slot e) := by
  obtain ⟨i, -, hmem⟩ := mem_flatten_iff.mp he
  rwa [h i e hmem]

theorem Placed.set (h : Placed slot cs) {i : Nat} (hi : i < cs.length) {l : List β}
    (hl : ∀ e ∈ l, slot e = i) : Placed slot (cs.set i l) := by
  intro j e he
  rw [chain_set hi] at he
  split at he
  · rename_i hij
    rw [← hij]
    exact hl e he
  · exact h j e he

theorem placed_replicate (slot : β → Nat) (n : Nat) : Placed slot (List.replicate n []) := by
  intro i e he
  simp only [chain, List.getD_eq_getElem?_getD, List.getElem?_replicate] at he
  split at he <;> simp at he

/-- A value at the front of the chain of its slot. -/
def push (slot : β → Nat) (cs : List (List β)) (e : β) : List (List β) :=
  cs.set (slot e) (e :: chain cs (slot e))

theorem length_push (cs : List (List β)) (e : β) : (push slot cs e).length = cs.length :=
  List.length_set

theorem Placed.push (h : Placed slot cs) {e : β} (he : slot e < cs.length) :
    Placed slot (push slot cs e) := by
  refine h.set he fun d hd => ?_
  rcases List.mem_cons.mp hd with rfl | hd
  · rfl
  · exact h _ d hd

theorem push_perm {e : β} (he : slot e < cs.length) :
    (push slot cs e).flatten.Perm (e :: cs.flatten) := by
  obtain ⟨rest, hself, hset⟩ := exists_rest he
  exact (hset _).trans (List.Perm.cons e hself.symm)

/-- The values `l` in `n` new chains. -/
def redistribute (slot : β → Nat) (n : Nat) (l : List β) : List (List β) :=
  l.foldl (push slot) (List.replicate n [])

/-- Values that are pushed onto placed chains. -/
theorem foldl_push {n : Nat} (hslot : ∀ e, slot e < n) (l : List β) (h : Placed slot cs)
    (hlen : cs.length = n) :
    (l.foldl (Chains.push slot) cs).length = n ∧ Placed slot (l.foldl (Chains.push slot) cs) ∧
      (l.foldl (Chains.push slot) cs).flatten.Perm (l ++ cs.flatten) := by
  induction l generalizing cs with
  | nil => exact ⟨hlen, h, List.Perm.refl _⟩
  | cons e l ih =>
    have he : slot e < cs.length := by
      rw [hlen]
      exact hslot e
    obtain ⟨hlen', hplaced, hperm⟩ := ih (h.push he) ((length_push cs e).trans hlen)
    refine ⟨hlen', hplaced, hperm.trans ?_⟩
    exact ((push_perm he).append_left l).trans List.perm_middle

theorem redistribute_spec {n : Nat} (hslot : ∀ e, slot e < n) (l : List β) :
    (redistribute slot n l).length = n ∧ Placed slot (redistribute slot n l) ∧
      (redistribute slot n l).flatten.Perm l := by
  obtain ⟨hlen, hplaced, hperm⟩ :=
    foldl_push hslot l (placed_replicate slot n) List.length_replicate
  refine ⟨hlen, hplaced, ?_⟩
  simpa [redistribute] using hperm

end Placed

/-! ## Maps -/

/-- The values `l` have distinct keys and list the map `m`. -/
structure Tabulates (key : β → κ) (val : β → δ) (l : List β) (m : κ → Option δ) : Prop where
  nodup : (l.map key).Nodup
  mem_iff : ∀ k d, m k = some d ↔ ∃ e ∈ l, key e = k ∧ val e = d

namespace Tabulates

variable {key : β → κ} {val : β → δ} {l l' : List β} {m : κ → Option δ} {e : β}

theorem nil : Tabulates key val [] fun _ => none := ⟨List.nodup_nil, by simp⟩

theorem perm (h : Tabulates key val l m) (hl : l'.Perm l) : Tabulates key val l' m := by
  refine ⟨(hl.map key).nodup_iff.mpr h.nodup, fun k d => ?_⟩
  rw [h.mem_iff]
  exact exists_congr fun e => and_congr_left' hl.mem_iff.symm

theorem congr (h : Tabulates key val l m) {key' : β → κ} {val' : β → δ}
    (heq : ∀ e ∈ l, key' e = key e ∧ val' e = val e) : Tabulates key' val' l m := by
  have hkeys : l.map key' = l.map key := List.map_congr_left fun e he => (heq e he).1
  refine ⟨by rw [hkeys]; exact h.nodup, fun k d => ?_⟩
  rw [h.mem_iff]
  refine exists_congr fun e => and_congr_right fun he => ?_
  rw [(heq e he).1, (heq e he).2]

/-- Other values with the same keys list the same map. -/
theorem of_map_eq {key' : β → κ} {val' : β → δ} (h : Tabulates key val l m)
    (hkeys : l'.map key' = l.map key) (hvals : l'.map val' = l.map val) :
    Tabulates key' val' l' m := by
  refine ⟨by rw [hkeys]; exact h.nodup, fun k d => ?_⟩
  have hzip : (l'.map key').zip (l'.map val') = (l.map key).zip (l.map val) := by
    rw [hkeys, hvals]
  rw [List.zip_map', List.zip_map'] at hzip
  have hmem : (k, d) ∈ l'.map (fun e => (key' e, val' e)) ↔
      (k, d) ∈ l.map fun e => (key e, val e) := by
    rw [hzip]
  rw [h.mem_iff]
  simpa only [List.mem_map, Prod.mk.injEq] using hmem.symm

theorem eq_some (h : Tabulates key val l m) (he : e ∈ l) : m (key e) = some (val e) :=
  (h.mem_iff _ _).mpr ⟨e, he, rfl, rfl⟩

theorem eq_none_iff (h : Tabulates key val l m) {k : κ} :
    m k = none ↔ ∀ e ∈ l, key e ≠ k := by
  constructor
  · rintro hk e he rfl
    rw [h.eq_some he] at hk
    cases hk
  · intro hk
    cases hm : m k with
    | none => rfl
    | some d =>
      obtain ⟨e, he, hek, -⟩ := (h.mem_iff k d).mp hm
      exact absurd hek (hk e he)

variable [DecidableEq κ]

/-- One more value, with a key of its own. -/
theorem cons (h : Tabulates key val l m) (he : m (key e) = none) :
    Tabulates key val (e :: l) (Function.update m (key e) (some (val e))) := by
  constructor
  · rw [List.map_cons, List.nodup_cons, List.mem_map]
    refine ⟨?_, h.nodup⟩
    rintro ⟨d, hd, hkey⟩
    exact h.eq_none_iff.mp he d hd hkey
  · intro k d
    by_cases hk : k = key e
    · subst hk
      rw [Function.update_self]
      constructor
      · rintro hd
        exact ⟨e, by simp, rfl, Option.some.inj hd⟩
      · rintro ⟨x, hx, hkey, rfl⟩
        rcases List.mem_cons.mp hx with rfl | hx
        · rfl
        · exact absurd hkey (h.eq_none_iff.mp he x hx)
    · rw [Function.update_of_ne hk, h.mem_iff]
      constructor
      · rintro ⟨x, hx, hkey⟩
        exact ⟨x, List.mem_cons_of_mem _ hx, hkey⟩
      · rintro ⟨x, hx, hkey, hval⟩
        rcases List.mem_cons.mp hx with rfl | hx
        · exact absurd hkey.symm hk
        · exact ⟨x, hx, hkey, hval⟩

/-- One value less. -/
theorem uncons (h : Tabulates key val (e :: l) m) :
    Tabulates key val l (Function.update m (key e) none) := by
  have hnodup := h.nodup
  rw [List.map_cons, List.nodup_cons, List.mem_map] at hnodup
  refine ⟨hnodup.2, fun k d => ?_⟩
  by_cases hk : k = key e
  · subst hk
    rw [Function.update_self]
    constructor
    · rintro hd
      cases hd
    · rintro ⟨x, hx, hkey, -⟩
      exact absurd ⟨x, hx, hkey⟩ hnodup.1
  · rw [Function.update_of_ne hk, h.mem_iff]
    constructor
    · rintro ⟨x, hx, hkey, hval⟩
      rcases List.mem_cons.mp hx with rfl | hx
      · exact absurd hkey.symm hk
      · exact ⟨x, hx, hkey, hval⟩
    · rintro ⟨x, hx, hkey⟩
      exact ⟨x, List.mem_cons_of_mem _ hx, hkey⟩

/-- A value is replaced by one with its key. -/
theorem replace (h : Tabulates key val (e :: l) m) {e' : β} (hkey : key e' = key e) :
    Tabulates key val (e' :: l) (Function.update m (key e) (some (val e'))) := by
  have hnew : Function.update m (key e) none (key e') = none := by
    rw [hkey, Function.update_self]
  have hcons := h.uncons.cons hnew
  rwa [hkey, Function.update_idem] at hcons

omit [DecidableEq κ] in
/-- All values are changed, and keep their keys. -/
theorem map (h : Tabulates key val l m) (f : β → β) (g : δ → δ) (hkey : ∀ e, key (f e) = key e)
    (hval : ∀ e, val (f e) = g (val e)) :
    Tabulates key val (l.map f) fun k => (m k).map g := by
  constructor
  · rw [List.map_map, show key ∘ f = key from funext hkey]
    exact h.nodup
  · intro k d
    rw [Option.map_eq_some_iff]
    constructor
    · rintro ⟨d', hd', rfl⟩
      obtain ⟨e, he, hek, rfl⟩ := (h.mem_iff k d').mp hd'
      exact ⟨f e, List.mem_map_of_mem he, (hkey e).trans hek, hval e⟩
    · rintro ⟨e', he', hek, rfl⟩
      obtain ⟨e, he, rfl⟩ := List.mem_map.mp he'
      exact ⟨val e, (h.mem_iff _ _).mpr ⟨e, he, (hkey e).symm.trans hek, rfl⟩, (hval e).symm⟩

end Tabulates

end Basht.Chains
