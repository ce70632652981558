import Mathlib.Data.List.Infix
import Mathlib.Logic.Function.Basic

/-!
# Patterns with wildcards

A pattern is a list of tokens: a token accepts one symbol, or it is a star. The strings that
match are defined by splitting them in every way at every star (`Matches`). A matcher may take
the first place where the tokens between two stars fit, and never return to the earlier star
(`Reaches.leftmost`).
-/

namespace Basht.Wildcards

inductive Token (α : Type) where
  /-- One symbol that `accept` holds for. -/
  | one (accept : α → Bool)
  /-- Any string. -/
  | star

variable {α : Type}

/-- The pattern matches the whole string. -/
inductive Matches : List (Token α) → List α → Prop where
  | nil : Matches [] []
  | one {accept : α → Bool} {a : α} {p : List (Token α)} {s : List α} (ha : accept a)
      (h : Matches p s) : Matches (.one accept :: p) (a :: s)
  | star {p : List (Token α)} {s : List α} (t : List α) (h : Matches p s) :
      Matches (.star :: p) (t ++ s)

/-- Tokens that are not stars, accepted one by one, lead from the one pattern and string to the
other. -/
inductive Reaches : List (Token α) → List α → List (Token α) → List α → Prop where
  | refl (p : List (Token α)) (s : List α) : Reaches p s p s
  | one {accept : α → Bool} {a : α} {p q : List (Token α)} {s t : List α} (ha : accept a)
      (h : Reaches p s q t) : Reaches (.one accept :: p) (a :: s) q t

variable {accept : α → Bool} {a : α} {p q : List (Token α)} {s t : List α}

@[simp] theorem matches_nil_iff : Matches [] s ↔ s = [] := by
  constructor
  · intro h
    cases h
    rfl
  · intro h
    rw [h]
    exact .nil

@[simp] theorem not_matches_one_nil : ¬ Matches (.one accept :: p) [] := by
  intro h
  cases h

@[simp] theorem matches_one_cons_iff :
    Matches (.one accept :: p) (a :: s) ↔ accept a ∧ Matches p s := by
  constructor
  · intro h
    cases h with
    | one ha h => exact ⟨ha, h⟩
  · intro h
    exact .one h.1 h.2

theorem matches_star_iff : Matches (.star :: p) s ↔ ∃ t, t <:+ s ∧ Matches p t := by
  constructor
  · intro h
    cases h with
    | star t h => exact ⟨_, List.suffix_append t _, h⟩
  · intro ⟨t, ⟨u, hu⟩, h⟩
    rw [← hu]
    exact .star u h

/-- A star absorbs what is in front of a string. -/
theorem Matches.absorb (h : Matches (.star :: p) s) (hs : s <:+ t) : Matches (.star :: p) t := by
  obtain ⟨u, hu, hp⟩ := matches_star_iff.mp h
  exact matches_star_iff.mpr ⟨u, hu.trans hs, hp⟩

theorem Matches.of_rest (h : Matches p s) : Matches (.star :: p) s :=
  .star [] h

@[simp] theorem matches_star_nil (s : List α) : Matches [.star] s :=
  matches_star_iff.mpr ⟨[], List.nil_suffix, .nil⟩

theorem matches_star_star_iff : Matches (.star :: .star :: p) s ↔ Matches (.star :: p) s := by
  constructor
  · intro h
    obtain ⟨t, ht, hp⟩ := matches_star_iff.mp h
    exact hp.absorb ht
  · exact Matches.of_rest

theorem suffix_of_cons_suffix_cons {b : α} (h : b :: t <:+ a :: s) : t <:+ s := by
  obtain heq | hsuffix := List.suffix_cons_iff.mp h
  · cases heq
    exact List.suffix_rfl
  · exact (List.suffix_cons b t).trans hsuffix

theorem exists_cons_suffix_cons (a : α) (h : t <:+ s) : ∃ b, b :: t <:+ a :: s := by
  induction s generalizing a with
  | nil =>
    rw [List.suffix_nil.mp h]
    exact ⟨a, List.suffix_rfl⟩
  | cons c s ih =>
    obtain heq | hsuffix := List.suffix_cons_iff.mp h
    · rw [heq]
      exact ⟨a, List.suffix_rfl⟩
    · obtain ⟨b, hb⟩ := ih c hsuffix
      exact ⟨b, hb.trans (List.suffix_cons a _)⟩

/-- A star and a token for any symbol can be exchanged. -/
theorem matches_star_any_iff (h : ∀ a, accept a) :
    Matches (.star :: .one accept :: p) s ↔ Matches (.one accept :: .star :: p) s := by
  constructor
  · intro hs
    obtain ⟨t, ht, hp⟩ := matches_star_iff.mp hs
    cases hp with
    | @one _ a _ t ha hp =>
      cases s with
      | nil => simp at ht
      | cons b s =>
        exact .one (h b) (matches_star_iff.mpr ⟨t, suffix_of_cons_suffix_cons ht, hp⟩)
  · intro hs
    cases hs with
    | @one _ a _ s ha hs =>
      obtain ⟨t, ht, hp⟩ := matches_star_iff.mp hs
      obtain ⟨b, hb⟩ := exists_cons_suffix_cons a ht
      exact matches_star_iff.mpr ⟨b :: t, hb, .one (h b) hp⟩

theorem matches_star_cons_iff :
    Matches (.star :: p) (a :: s) ↔ Matches p (a :: s) ∨ Matches (.star :: p) s := by
  constructor
  · intro h
    obtain ⟨t, ht, hp⟩ := matches_star_iff.mp h
    obtain heq | hsuffix := List.suffix_cons_iff.mp ht
    · exact .inl (heq ▸ hp)
    · exact .inr (matches_star_iff.mpr ⟨t, hsuffix, hp⟩)
  · intro h
    obtain h | h := h
    · exact h.of_rest
    · exact h.absorb (List.suffix_cons a s)

namespace Reaches

theorem matches_iff (h : Reaches p s q t) : Matches p s ↔ Matches q t := by
  induction h with
  | refl p s => exact Iff.rfl
  | one ha h ih => rw [matches_one_cons_iff, ih, and_iff_right ha]

/-- If the tokens up to a star fit in front of `s`, then they need not be tried further right:
what the star and the tokens behind it match there, they match here. -/
theorem leftmost {u : List α} (h : Reaches p s (.star :: q) t) (hu : u <:+ s)
    (hp : Matches p u) : Matches (.star :: q) t := by
  generalize hr : Token.star :: q = r at h
  induction h generalizing u with
  | refl p s =>
    subst hr
    exact hp.absorb hu
  | @one accept a p q' s t ha h ih =>
    cases hp with
    | @one _ b _ v hb hv =>
      exact ih (suffix_of_cons_suffix_cons hu) hv hr

end Reaches

end Basht.Wildcards
