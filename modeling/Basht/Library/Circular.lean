import Mathlib.Data.List.Chain

/-!
# Circular lists

Nodes with one link each, and the loops that go around them.

* `Circular`: the links lead from a node along a list and back.
* `Circular.doWhile`: `do … while (p != first)`.
* `Circular.doWhile_around`, `Circular.doWhile_leaves`, `Circular.doWhile_stuck`: a loop that goes
  around once, one that is left at a node, and one that stays at a node.
-/

namespace Basht

variable {α σ ρ : Type}

/-- From `first` the links lead along `rest` and back. -/
structure Circular (next : α → α) (first : α) (rest : List α) : Prop where
  notMem : first ∉ rest
  chain : (first :: (rest ++ [first])).IsChain fun x y => next x = y

namespace Circular

variable {round : α → σ → ρ ⊕ α × σ} {next : α → α} {f : σ → α → σ} {first p q : α}
  {us vs rest : List α} {fuel : Nat} {s t : σ} {r : ρ}

theorem head_next {u : α} (hchain : (u :: (us ++ [q])).IsChain fun x y => next x = y) :
    (us ++ [q]).head? = some (next u) := by
  cases us with
  | nil => exact congrArg some (List.isChain_cons_cons.mp hchain).1.symm
  | cons w us => exact congrArg some (List.isChain_cons_cons.mp hchain).1.symm

/-- The way from the first node to another one. -/
theorem path (hring : Circular next first rest) (hsplit : first :: rest = us ++ q :: vs) :
    (us ++ [q]).IsChain (fun x y => next x = y) ∧ first ∉ (us ++ [q]).tail ∧
      (us ++ [q]).head? = some first := by
  cases us with
  | nil =>
    cases hsplit
    exact ⟨List.isChain_singleton _, List.not_mem_nil, rfl⟩
  | cons u us =>
    rw [List.cons_append] at hsplit
    obtain ⟨rfl, rfl⟩ := List.cons.inj hsplit
    have hchain := hring.chain
    rw [List.append_assoc, ← List.cons_append] at hchain
    refine ⟨(List.isChain_split.mp hchain).1, fun hmem => hring.notMem ?_, rfl⟩
    rcases List.mem_append.mp hmem with h | h
    · exact List.mem_append_left _ h
    · rw [List.mem_singleton.mp h]
      exact List.mem_append_right _ List.mem_cons_self

/-- The link of the last node. -/
theorem next_last (hring : Circular next first rest) (hsplit : first :: rest = us ++ [q]) :
    next q = first := by
  have hchain := hring.chain
  rw [← List.cons_append, hsplit, List.append_assoc] at hchain
  exact (List.isChain_append_cons_cons.mp hchain).2.1

variable [DecidableEq α]

/-- `do … while (p != first)`. A round leaves the loop with a result, or goes on at a node. -/
def doWhile (round : α → σ → ρ ⊕ α × σ) (first : α) : Nat → α → σ → Option (ρ ⊕ σ)
  | 0, _, _ => none
  | fuel + 1, p, s =>
    match round p s with
    | .inl r => some (.inl r)
    | .inr (q, t) => if q = first then some (.inr t) else doWhile round first fuel q t

theorem doWhile_leave (h : round p s = .inl r) (fuel : Nat) :
    doWhile round first (fuel + 1) p s = some (.inl r) := by
  rw [doWhile, h]

theorem doWhile_go (h : round p s = .inr (q, t)) (fuel : Nat) :
    doWhile round first (fuel + 1) p s =
      if q = first then some (.inr t) else doWhile round first fuel q t := by
  rw [doWhile, h]

/-- The loop goes along nodes that are not the first one. -/
theorem doWhile_along (hchain : (us ++ [q]).IsChain fun x y => next x = y)
    (hround : ∀ u ∈ us, ∀ s, round u s = .inr (next u, f s u)) (hfirst : first ∉ (us ++ [q]).tail)
    (hp : (us ++ [q]).head? = some p) (fuel : Nat) (s : σ) :
    doWhile round first (us.length + fuel) p s = doWhile round first fuel q (us.foldl f s) := by
  induction us generalizing p s with
  | nil =>
    cases hp
    rw [List.length_nil, Nat.zero_add]
    rfl
  | cons u us ih =>
    cases hp
    have hhead := head_next hchain
    have hne : next u ≠ first := by
      intro heq
      apply hfirst
      rw [← heq]
      exact List.mem_of_mem_head? hhead
    rw [List.length_cons, Nat.add_right_comm, doWhile_go (hround u (by simp) s), if_neg hne]
    exact ih hchain.tail (fun w hw => hround w (by simp [hw]))
      (fun h => hfirst (List.mem_of_mem_tail h)) hhead (f s u)

theorem doWhile_mono {o : ρ ⊕ σ} {m : Nat} (hle : fuel ≤ m)
    (h : doWhile round first fuel p s = some o) : doWhile round first m p s = some o := by
  induction fuel generalizing m p s with
  | zero => cases h
  | succ fuel ih =>
    obtain ⟨m, rfl⟩ := Nat.exists_eq_succ_of_ne_zero (Nat.ne_of_gt (Nat.lt_of_lt_of_le
      (Nat.succ_pos _) hle))
    rw [doWhile] at h ⊢
    cases hround : round p s with
    | inl r =>
      rw [hround] at h
      exact h
    | inr next =>
      obtain ⟨q, t⟩ := next
      rw [hround] at h
      dsimp only at h ⊢
      split at h
      · rename_i hq
        rw [if_pos hq]
        exact h
      · rename_i hq
        rw [if_neg hq]
        exact ih (Nat.le_of_succ_le_succ hle) h

section

variable (hring : Circular next first rest)

include hring

/-- All rounds go on. -/
theorem doWhile_around (hround : ∀ u ∈ first :: rest, ∀ s, round u s = .inr (next u, f s u))
    (hfuel : rest.length < fuel) (s : σ) :
    doWhile round first fuel first s = some (.inr ((first :: rest).foldl f s)) := by
  obtain ⟨us, q, hsplit⟩ : ∃ us q, first :: rest = us ++ [q] :=
    ⟨_, _, (List.dropLast_append_getLast (List.cons_ne_nil first rest)).symm⟩
  obtain ⟨hchain, hfirst, hhead⟩ := hring.path hsplit
  have hlen : us.length = rest.length := by
    have h := congrArg List.length hsplit
    rw [List.length_cons, List.length_append, List.length_singleton] at h
    exact (Nat.succ.inj h).symm
  rw [hsplit] at hround ⊢
  have hgo := hround q (by simp) (us.foldl f s)
  rw [hring.next_last hsplit] at hgo
  obtain ⟨extra, rfl⟩ : ∃ extra, fuel = us.length + (extra + 1) :=
    ⟨fuel - us.length - 1, by omega⟩
  rw [doWhile_along hchain (fun u hu => hround u (by simp [hu])) hfirst hhead, doWhile_go hgo,
    if_pos rfl, List.foldl_append]
  rfl

/-- The rounds go on up to a node that leaves the loop. -/
theorem doWhile_leaves (hsplit : first :: rest = us ++ q :: vs)
    (hround : ∀ u ∈ us, ∀ s, round u s = .inr (next u, f s u))
    (hleave : ∀ s, round q s = .inl r) (hfuel : us.length < fuel) (s : σ) :
    doWhile round first fuel first s = some (.inl r) := by
  obtain ⟨hchain, hfirst, hhead⟩ := hring.path hsplit
  obtain ⟨extra, rfl⟩ : ∃ extra, fuel = us.length + (extra + 1) :=
    ⟨fuel - us.length - 1, by omega⟩
  rw [doWhile_along hchain hround hfirst hhead, doWhile_leave (hleave _)]

/-- The rounds go on up to a node, not the first one, and stay there. -/
theorem doWhile_stuck (hsplit : first :: rest = us ++ q :: vs) (hq : q ≠ first)
    (hround : ∀ u ∈ us, ∀ s, round u s = .inr (next u, f s u))
    (hstuck : ∀ s, round q s = .inr (q, s)) (fuel : Nat) (s : σ) :
    doWhile round first fuel first s = none := by
  obtain ⟨hchain, hfirst, hhead⟩ := hring.path hsplit
  have hstay : ∀ fuel s, doWhile round first fuel q s = none := by
    intro fuel
    induction fuel with
    | zero => exact fun s => rfl
    | succ fuel ih =>
      intro s
      rw [doWhile_go (hstuck s), if_neg hq]
      exact ih s
  cases hrun : doWhile round first fuel first s with
  | none => rfl
  | some o =>
    have hmore := doWhile_mono (Nat.le_add_left fuel us.length) hrun
    rw [doWhile_along hchain hround hfirst hhead, hstay] at hmore
    cases hmore

end

end Circular

end Basht
