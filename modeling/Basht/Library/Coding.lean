import Mathlib.Data.List.Flatten
import Mathlib.Data.List.TakeDrop
import Mathlib.Tactic.Common

/-!
# Character encodings

An encoding says how many bytes the character at the head of a string has. It contains ASCII,
whether a character is there depends on its own bytes only, and the bytes behind the first of a
character begin no character themselves. A program that walks along a string takes a byte where
there is no character; what it takes are the units of the string (`Coding.units`).

* `Coding.units_cons`, `Coding.units_append_ascii`: where units end.
* `Coding.mem_units_of_len`: a byte that is a character is a unit wherever it occurs.
* `Coding.bytes`, `Coding.utf8`: single bytes, and UTF-8.
-/

namespace Basht

/-- `len s` is the number of bytes of the character at the head of `s`, 0 if there is none. -/
structure Coding where
  len : List Nat → Nat
  len_le : ∀ s, len s ≤ s.length
  len_append : ∀ s r : List Nat, 0 < len s → len (s.take (len s) ++ r) = len s
  ascii : ∀ c s, c < 128 → len (c :: s) = 1
  trail : ∀ s : List Nat, ∀ b ∈ (s.take (len s)).tail, 128 ≤ b ∧ ∀ r, len (b :: r) = 0

namespace Coding

variable (K : Coding) {s t u r : List Nat} {b c : Nat}

/-- The number of bytes taken at once. -/
def step (s : List Nat) : Nat := if K.len s = 0 then 1 else K.len s

theorem step_pos (s : List Nat) : 0 < K.step s := by
  unfold step
  split
  · exact Nat.one_pos
  · rename_i h
    exact Nat.pos_of_ne_zero h

theorem step_le (hs : s ≠ []) : K.step s ≤ s.length := by
  unfold step
  split
  · exact List.length_pos_iff.mpr hs
  · exact K.len_le s

def unitsAux : Nat → List Nat → List (List Nat)
  | 0, _ => []
  | _ + 1, [] => []
  | fuel + 1, b :: s => (b :: s).take (K.step (b :: s)) ::
    unitsAux fuel ((b :: s).drop (K.step (b :: s)))

/-- The pieces of a string. -/
def units (s : List Nat) : List (List Nat) := K.unitsAux s.length s

@[simp] theorem units_nil : K.units [] = [] := rfl

theorem unitsAux_eq {fuel : Nat} (h : s.length ≤ fuel) : K.unitsAux fuel s = K.units s := by
  induction fuel using Nat.strongRecOn generalizing s with
  | ind fuel ih =>
    cases s with
    | nil => cases fuel <;> rfl
    | cons b s =>
      obtain ⟨fuel, rfl⟩ := Nat.exists_eq_succ_of_ne_zero (Nat.ne_of_gt (Nat.lt_of_lt_of_le
        (Nat.succ_pos _) h))
      have hpos := K.step_pos (b :: s)
      have hdrop : ((b :: s).drop (K.step (b :: s))).length ≤ s.length := by
        rw [List.length_drop, List.length_cons]
        omega
      rw [List.length_cons] at h
      rw [units, List.length_cons, unitsAux, unitsAux, ih fuel (Nat.lt_succ_self _) (by omega)]
      by_cases heq : s.length = fuel
      · rw [heq, ih fuel (Nat.lt_succ_self _) (by omega)]
      · rw [ih s.length (by omega) hdrop]

theorem units_of_ne_nil (hs : s ≠ []) :
    K.units s = s.take (K.step s) :: K.units (s.drop (K.step s)) := by
  obtain ⟨b, s, rfl⟩ := List.exists_cons_of_ne_nil hs
  have hpos := K.step_pos (b :: s)
  rw [units, List.length_cons, unitsAux, K.unitsAux_eq]
  rw [List.length_drop, List.length_cons]
  omega

/-- A piece of its own at the head. -/
theorem units_append (hu : u ≠ []) (h : K.step (u ++ r) = u.length) :
    K.units (u ++ r) = u :: K.units r := by
  rw [K.units_of_ne_nil (List.append_ne_nil_of_left_ne_nil hu r), h, List.take_left, List.drop_left]

theorem flatten_units (s : List Nat) : (K.units s).flatten = s := by
  induction h : s.length using Nat.strongRecOn generalizing s with
  | ind n ih =>
    by_cases hs : s = []
    · subst hs
      rfl
    · have hpos := K.step_pos s
      have hlen := List.length_pos_iff.mpr hs
      rw [K.units_of_ne_nil hs, List.flatten_cons, ih _ _ _ rfl, List.take_append_drop]
      rw [List.length_drop]
      omega

theorem units_ne_nil (hs : s ≠ []) : K.units s ≠ [] := by
  rw [K.units_of_ne_nil hs]
  exact List.cons_ne_nil _ _

theorem ne_nil_of_mem_units (hu : u ∈ K.units s) : u ≠ [] := by
  induction h : s.length using Nat.strongRecOn generalizing s with
  | ind n ih =>
    by_cases hs : s = []
    · subst hs
      cases hu
    · have hpos := K.step_pos s
      have hlen := List.length_pos_iff.mpr hs
      rw [K.units_of_ne_nil hs] at hu
      rcases List.mem_cons.mp hu with rfl | hu
      · intro hnil
        have htake := congrArg List.length hnil
        rw [List.length_take, List.length_nil] at htake
        omega
      · refine ih _ ?_ hu rfl
        rw [List.length_drop]
        omega

/-- The end of a string, cut between two units, has the units that are left. -/
theorem units_flatten_of_append {us vs : List (List Nat)} (h : us ++ vs = K.units s) :
    K.units vs.flatten = vs := by
  induction us generalizing s with
  | nil =>
    rw [List.nil_append] at h
    rw [h, K.flatten_units]
  | cons u us ih =>
    have hs : s ≠ [] := by
      rintro rfl
      cases h
    rw [K.units_of_ne_nil hs, List.cons_append, List.cons.injEq] at h
    exact ih h.2

/-! ## Units in other surroundings -/

theorem len_append_of_pos (h : 0 < K.len s) (r : List Nat) : K.len (s ++ r) = K.len s := by
  have happend := K.len_append s (s.drop (K.len s) ++ r) h
  rwa [← List.append_assoc, List.take_append_drop] at happend

/-- A character ends before an ASCII character. -/
theorem step_append_ascii (hs : s ≠ []) (hc : c < 128) (r : List Nat) :
    K.step (s ++ c :: r) = K.step s := by
  have hlen : K.len (s ++ c :: r) = K.len s := by
    by_cases hpos : 0 < K.len s
    · exact K.len_append_of_pos hpos _
    · have hzero : K.len s = 0 := Nat.eq_zero_of_not_pos hpos
      rw [hzero]
      by_contra hne
      have hpos' := Nat.pos_of_ne_zero hne
      by_cases hle : K.len (s ++ c :: r) ≤ s.length
      · -- the character would be one of `s` alone
        have happend := K.len_append _ (s.drop (K.len (s ++ c :: r))) hpos'
        rw [List.take_append_of_le_length hle, List.take_append_drop, hzero] at happend
        exact hne happend.symm
      · -- the character would have an ASCII byte behind its first
        obtain ⟨b, s, rfl⟩ := List.exists_cons_of_ne_nil hs
        have hmem : c ∈ ((b :: s ++ c :: r).take (K.len (b :: s ++ c :: r))).tail := by
          obtain ⟨k, hk⟩ : ∃ k, K.len (b :: s ++ c :: r) = (b :: s).length + 1 + k :=
            ⟨K.len (b :: s ++ c :: r) - ((b :: s).length + 1), by omega⟩
          rw [hk, Nat.add_assoc, List.take_length_add_append, Nat.add_comm 1 k, List.take_succ_cons,
            List.cons_append, List.tail_cons]
          exact List.mem_append_right _ (List.mem_cons_self ..)
        exact absurd (K.trail _ c hmem).1 (Nat.not_le.mpr hc)
  unfold step
  rw [hlen]

/-- The units of a string end before an ASCII character. -/
theorem units_append_ascii (hc : c < 128) (s r : List Nat) :
    K.units (s ++ c :: r) = K.units s ++ K.units (c :: r) := by
  induction h : s.length using Nat.strongRecOn generalizing s with
  | ind n ih =>
    by_cases hs : s = []
    · subst hs
      rfl
    · have hpos := K.step_pos s
      have hle := K.step_le hs
      rw [K.units_of_ne_nil hs, K.units_of_ne_nil (List.append_ne_nil_of_left_ne_nil hs _),
        K.step_append_ascii hs hc, List.take_append_of_le_length hle,
        List.drop_append_of_le_length hle, List.cons_append, ih _ _ _ rfl]
      rw [List.length_drop]
      omega

theorem units_ascii (hc : c < 128) (r : List Nat) : K.units (c :: r) = [c] :: K.units r := by
  have hstep : K.step ([c] ++ r) = [c].length := by
    rw [step, List.singleton_append, K.ascii c r hc]
    rfl
  exact K.units_append (List.cons_ne_nil _ _) hstep

/-- A byte that begins no character. -/
theorem units_of_len_zero (hb : K.len (b :: r) = 0) : K.units (b :: r) = [b] :: K.units r := by
  have hstep : K.step ([b] ++ r) = [b].length := by
    rw [step, List.singleton_append, if_pos hb]
    rfl
  exact K.units_append (List.cons_ne_nil _ _) hstep

/-- Bytes that begin no character are units. -/
theorem units_append_zero (ht : ∀ b ∈ t, ∀ r, K.len (b :: r) = 0) (r : List Nat) :
    K.units (t ++ r) = t.map (fun b => [b]) ++ K.units r := by
  induction t with
  | nil => rfl
  | cons b t ih =>
    obtain ⟨hb, ht⟩ := List.forall_mem_cons.mp ht
    rw [List.cons_append, K.units_of_len_zero (hb _), ih ht]
    rfl

/-- The first unit is as long as it is alone, or longer. -/
theorem step_of_mem_units (hu : u ∈ K.units s) : K.step u = u.length := by
  induction h : s.length using Nat.strongRecOn generalizing s with
  | ind n ih =>
    by_cases hs : s = []
    · subst hs
      cases hu
    · have hpos := K.step_pos s
      have hlen := List.length_pos_iff.mpr hs
      rw [K.units_of_ne_nil hs] at hu
      rcases List.mem_cons.mp hu with rfl | hu
      · rw [List.length_take, Nat.min_eq_left (K.step_le hs)]
        by_cases hzero : K.len s = 0
        · have hone : K.step s = 1 := if_pos hzero
          obtain ⟨b, s, rfl⟩ := List.exists_cons_of_ne_nil hs
          rw [hone, List.take_succ_cons, List.take_zero]
          refine Nat.le_antisymm ?_ (K.step_pos _)
          exact K.step_le (List.cons_ne_nil _ _)
        · have hstep : K.step s = K.len s := if_neg hzero
          have happend := K.len_append s [] (Nat.pos_of_ne_zero hzero)
          rw [List.append_nil] at happend
          rw [hstep, step, happend, if_neg hzero]
      · refine ih _ ?_ hu rfl
        rw [List.length_drop]
        omega

/-- The bytes behind the first of a unit. -/
theorem trail_of_mem_units (hu : u ∈ K.units s) :
    ∀ b ∈ u.tail, 128 ≤ b ∧ ∀ r, K.len (b :: r) = 0 := by
  intro b hb
  have hstep := K.step_of_mem_units hu
  refine K.trail u b ?_
  by_cases hzero : K.len u = 0
  · rw [step, if_pos hzero] at hstep
    have htail : u.tail = [] := by
      rw [← List.length_eq_zero_iff, List.length_tail, ← hstep]
    rw [htail] at hb
    cases hb
  · rw [step, if_neg hzero] at hstep
    rw [hstep, List.take_length]
    exact hb

/-- A unit with more than one byte is a character wherever it stands. -/
theorem step_append_of_two (hu : u ∈ K.units s) (htwo : 2 ≤ u.length) (r : List Nat) :
    K.step (u ++ r) = u.length := by
  have hstep := K.step_of_mem_units hu
  have hpos : 0 < K.len u := by
    rw [step] at hstep
    split at hstep
    · omega
    · omega
  rw [step, K.len_append_of_pos hpos, ← hstep]
  rfl

/-- A byte that is a character is a unit wherever it occurs. -/
theorem mem_units_of_len (hb : K.len [b] = 1) : b ∈ s ↔ [b] ∈ K.units s := by
  constructor
  · intro hmem
    rw [← K.flatten_units s, List.mem_flatten] at hmem
    obtain ⟨u, hu, hbu⟩ := hmem
    obtain ⟨c, u, rfl⟩ := List.exists_cons_of_ne_nil (K.ne_nil_of_mem_units hu)
    rcases List.mem_cons.mp hbu with rfl | hbu
    · have hlen := K.len_append_of_pos (s := [b]) (by omega) u
      rw [List.singleton_append, hb] at hlen
      have hstep := K.step_of_mem_units hu
      rw [step, hlen, if_neg Nat.one_ne_zero, List.length_cons] at hstep
      have hnil : u = [] := List.length_eq_zero_iff.mp (by omega)
      rwa [hnil] at hu
    · have htrail := (K.trail_of_mem_units hu b hbu).2 []
      omega
  · intro hu
    rw [← K.flatten_units s]
    exact List.mem_flatten.mpr ⟨[b], hu, List.mem_singleton_self b⟩

/-! ## Single bytes and UTF-8 -/

/-- Each byte is a character. -/
def bytes : Coding where
  len s := min s.length 1
  len_le s := Nat.min_le_left _ _
  len_append s r h := by
    cases s with
    | nil => cases h
    | cons b s => simp
  ascii c s _ := by simp
  trail s b hb := by
    cases s with
    | nil => cases hb
    | cons c s => simp at hb

theorem units_bytes (s : List Nat) : bytes.units s = s.map ([·]) := by
  induction s with
  | nil => rfl
  | cons b s ih =>
    have hlen : bytes.len (b :: s) = 1 := Nat.min_eq_right (Nat.succ_pos _)
    have hstep : bytes.step (b :: s) = 1 := by
      rw [step, hlen]
      rfl
    rw [List.map_cons, ← ih, bytes.units_of_ne_nil (List.cons_ne_nil b s), hstep]
    rfl

/-- A byte behind the first of a character. -/
def tailByte (b : Nat) : Bool := 0x80 ≤ b ∧ b < 0xc0

/-- The number of bytes of the UTF-8 character at the head. -/
def utf8Len : List Nat → Nat
  | [] => 0
  | c :: s =>
    if c < 0x80 then 1
    else if 0xc2 ≤ c ∧ c < 0xe0 then
      match s with
      | c1 :: _ => if tailByte c1 then 2 else 0
      | [] => 0
    else if 0xe0 ≤ c ∧ c < 0xf0 then
      match s with
      | c1 :: c2 :: _ =>
        if tailByte c1 ∧ (c ≥ 0xe1 ∨ c1 ≥ 0xa0) ∧ (c ≠ 0xed ∨ c1 < 0xa0) ∧ tailByte c2 then 3
        else 0
      | _ => 0
    else if 0xf0 ≤ c ∧ c ≤ 0xf4 then
      match s with
      | c1 :: c2 :: c3 :: _ =>
        if tailByte c1 ∧ (c ≥ 0xf1 ∨ c1 ≥ 0x90) ∧ (c < 0xf4 ∨ c1 < 0x90) ∧ tailByte c2 ∧ tailByte c3
        then 4 else 0
      | _ => 0
    else 0

theorem utf8Len_tailByte (hb : tailByte b = true) (r : List Nat) : utf8Len (b :: r) = 0 := by
  have hb' : 0x80 ≤ b ∧ b < 0xc0 := of_decide_eq_true hb
  have h1 : ¬b < 0x80 := by omega
  have h2 : ¬0xc2 ≤ b := by omega
  have h3 : ¬0xe0 ≤ b := by omega
  have h4 : ¬0xf0 ≤ b := by omega
  simp [utf8Len, h1, h2, h3, h4]

/-- The ways a character can be encoded. -/
theorem utf8Len_cases (s : List Nat) : utf8Len s = 0 ∨
    ∃ c t r, s = c :: t ++ r ∧ utf8Len s = t.length + 1 ∧ (∀ b ∈ t, tailByte b = true) ∧
      ∀ r', utf8Len (c :: t ++ r') = t.length + 1 := by
  cases s with
  | nil => exact Or.inl rfl
  | cons c s =>
    by_cases h1 : c < 0x80
    · refine Or.inr ⟨c, [], s, rfl, ?_, by simp, fun r' => ?_⟩
      · simp [utf8Len, h1]
      · simp [utf8Len, h1]
    · by_cases h2 : 0xc2 ≤ c ∧ c < 0xe0
      · cases s with
        | nil => exact Or.inl (by simp [utf8Len, h1, h2])
        | cons c1 s =>
          by_cases ht : tailByte c1 = true
          · refine Or.inr ⟨c, [c1], s, rfl, ?_, by simp [ht], fun r' => ?_⟩
            · simp [utf8Len, h1, h2, ht]
            · simp [utf8Len, h1, h2, ht]
          · exact Or.inl (by simp [utf8Len, h1, h2, ht])
      · by_cases h3 : 0xe0 ≤ c ∧ c < 0xf0
        · match s with
          | [] => exact Or.inl (by simp [utf8Len, h1, h2, h3])
          | [_] => exact Or.inl (by simp [utf8Len, h1, h2, h3])
          | c1 :: c2 :: s =>
            by_cases ht : tailByte c1 ∧ (c ≥ 0xe1 ∨ c1 ≥ 0xa0) ∧ (c ≠ 0xed ∨ c1 < 0xa0) ∧
                tailByte c2
            · refine Or.inr ⟨c, [c1, c2], s, rfl, ?_, by simp [ht], fun r' => ?_⟩
              · simp only [utf8Len, h1, h2, h3, ht, if_true, if_false, and_self]
                rfl
              · simp only [utf8Len, h1, h2, h3, ht, if_true, if_false, and_self, List.cons_append]
                rfl
            · exact Or.inl (by simp only [utf8Len, h1, h2, h3, ht, if_true, if_false, and_self])
        · by_cases h4 : 0xf0 ≤ c ∧ c ≤ 0xf4
          · match s with
            | [] => exact Or.inl (by simp [utf8Len, h1, h2, h3, h4])
            | [_] => exact Or.inl (by simp [utf8Len, h1, h2, h3, h4])
            | [_, _] => exact Or.inl (by simp [utf8Len, h1, h2, h3, h4])
            | c1 :: c2 :: c3 :: s =>
              by_cases ht : tailByte c1 ∧ (c ≥ 0xf1 ∨ c1 ≥ 0x90) ∧ (c < 0xf4 ∨ c1 < 0x90) ∧
                  tailByte c2 ∧ tailByte c3
              · refine Or.inr ⟨c, [c1, c2, c3], s, rfl, ?_, by simp [ht], fun r' => ?_⟩
                · simp only [utf8Len, h1, h2, h3, h4, ht, if_true, if_false, and_self]
                  rfl
                · simp only [utf8Len, h1, h2, h3, h4, ht, if_true, if_false, and_self,
                    List.cons_append]
                  rfl
              · refine Or.inl ?_
                simp only [utf8Len, h1, h2, h3, h4, ht, if_true, if_false, and_self]
          · exact Or.inl (by simp [utf8Len, h1, h2, h3, h4])

/-- UTF-8. -/
def utf8 : Coding where
  len := utf8Len
  len_le s := by
    rcases utf8Len_cases s with h | ⟨c, t, r, rfl, h, -⟩
    · rw [h]
      exact Nat.zero_le _
    · rw [h]
      simp
  len_append s r hpos := by
    rcases utf8Len_cases s with h | ⟨c, t, r', rfl, h, -, happend⟩
    · rw [h] at hpos
      cases hpos
    · have htake : (c :: t ++ r').take (c :: t).length = c :: t := List.take_left
      rw [List.length_cons] at htake
      rw [h, htake]
      exact happend r
  ascii c s hc := by simp [utf8Len, hc]
  trail s b hb := by
    rcases utf8Len_cases s with h | ⟨c, t, r', rfl, h, htail, -⟩
    · rw [h] at hb
      cases hb
    · have htake : (c :: t ++ r').take (c :: t).length = c :: t := List.take_left
      rw [List.length_cons] at htake
      rw [h, htake, List.tail_cons] at hb
      have hbyte := htail b hb
      have hb' : 0x80 ≤ b ∧ b < 0xc0 := of_decide_eq_true hbyte
      exact ⟨hb'.1, utf8Len_tailByte hbyte⟩

end Coding

end Basht
