import Basht.Glob.Gmatch
import Mathlib.Data.List.TakeWhile

/-!
# Stars

Without flags, `gmatch` computes the matches of the tokens of its pattern (`gmatch_iff`), where
the brackets are sound and no star stands in front of a lone backslash with only wildcards
between them. So the shortcut through `ends` loses no match (`gmatch_naive`), and a leading star
absorbs a prefix unless the pattern is a run of question marks and a lone backslash
(`absorbs_iff`).
-/

namespace Basht.Glob

open Wildcards

/-- The matcher that tries every split of the string at every star. -/
def naive : List Char → List Char → Bool
  | [], s => s.isEmpty
  | '*' :: p, s => s.tails.any (naive p)
  | '?' :: p, s =>
    match s with
    | [] => false
    | _ :: s => naive p s
  | '\\' :: c :: p, s =>
    match s with
    | [] => false
    | x :: s => x = c && naive p s
  | c :: p, s =>
    match s with
    | [] => false
    | x :: s => x = c && naive p s

/-- A pattern of literal characters, quoted characters and wildcards, without a lone backslash at
its end. -/
def isPlain : List Char → Bool
  | [] => true
  | '\\' :: [] => false
  | '\\' :: _ :: p => isPlain p
  | c :: p => c ≠ '[' && isPlain p

variable (M : Macros)

/-- The first token of the pattern `c`, `p`, without flags, and the pattern behind it. -/
def token (c : Char) (p : List Char) : Token Char × List Char :=
  if c = '*' then (.star, p)
  else if c = '?' then (.one fun _ => true, p)
  else if c = '\\' then (.one (· = p.headD '\\'), p.tail)
  else if c = '[' then (.one fun x => (brackmatch M {} p x).isSome, (behindBracket M {} p).getD p)
  else (.one (· = c), p)

variable {M}

theorem token_length (c : Char) (p : List Char) : (token M c p).2.length ≤ p.length := by
  unfold token
  split
  · exact le_rfl
  · split
    · exact le_rfl
    · split
      · simp
      · split
        · cases hrest : behindBracket M {} p with
          | none => exact le_rfl
          | some q => exact behindBracket_length hrest
        · exact le_rfl

variable (M)

def tokens : List Char → List (Token Char)
  | [] => []
  | c :: p => (token M c p).1 :: tokens (token M c p).2
termination_by p => p.length
decreasing_by exact Nat.lt_succ_of_le (token_length c p)

/-- All bracket expressions of the pattern are sound. -/
def isSound : List Char → Bool
  | [] => true
  | c :: p => (c ≠ '[' || soundBracket M {} p) && isSound (token M c p).2
termination_by p => p.length
decreasing_by exact Nat.lt_succ_of_le (token_length c p)

def isWild (c : Char) : Bool := c = '?' || c = '*'

/-- The pattern is a run of wildcards and a lone backslash. -/
def hidesBackslash (p : List Char) : Bool := p.dropWhile isWild = ['\\']

/-- No star stands in front of a lone backslash with only wildcards between them. -/
def isFindable : List Char → Bool
  | [] => true
  | c :: p => !(c = '*' && hidesBackslash p) && isFindable (token M c p).2
termination_by p => p.length
decreasing_by exact Nat.lt_succ_of_le (token_length c p)

section Steps

variable {M} {fuel : Nat} {ends : Bool} {prev : Option Char} {c : Char} {p q n : List Char}

theorem tokens_cons (c : Char) (p : List Char) :
    tokens M (c :: p) = (token M c p).1 :: tokens M (token M c p).2 := by
  rw [tokens]

theorem token_star (p : List Char) : token M '*' p = (.star, p) :=
  rfl

theorem token_one (hc : c ≠ '*') : ∃ accept, (token M c p).1 = .one accept := by
  unfold token
  split
  · contradiction
  · split
    · exact ⟨_, rfl⟩
    · split
      · exact ⟨_, rfl⟩
      · split
        · exact ⟨_, rfl⟩
        · exact ⟨_, rfl⟩

theorem gmatch_nil (hfuel : 0 < fuel) :
    gmatch M fuel {} ends prev [] n = some (if n = [] then .matched else .noMatch) := by
  cases fuel with
  | zero => cases hfuel
  | succ fuel => simp [gmatch, atEnd]

theorem gmatch_escape (hfuel : 0 < fuel) :
    gmatch M (fuel + 1) {} ends prev ('\\' :: p) n =
      match n with
      | [] => some .noMatch
      | x :: n =>
        if x = p.headD '\\' then gmatch M fuel {} ends (some x) p.tail n else some .noMatch := by
  have hfold : ∀ x, fold M {} x = x := fun _ => rfl
  conv_lhs => unfold gmatch
  cases p with
  | cons d p =>
    cases n with
    | nil => simp [hfold]
    | cons x n => simp [hfold]
  | nil =>
    cases n with
    | nil => simp [hfold]
    | cons x n =>
      by_cases hx : x = '\\'
      · cases n with
        | nil => simp [hfold, hx]
        | cons y n => simp [hfold, hx, gmatch_nil hfuel]
      · simp [hfold, hx]

theorem gmatch_bracket (hsound : soundBracket M {} p) :
    gmatch M (fuel + 1) {} ends prev ('[' :: p) n =
      match n with
      | [] => some .noMatch
      | x :: n =>
        if (brackmatch M {} p x).isSome then
          gmatch M fuel {} ends (some x) ((behindBracket M {} p).getD p) n
        else some .noMatch := by
  have hfold : ∀ x, fold M {} x = x := fun _ => rfl
  conv_lhs => unfold gmatch
  cases n with
  | nil => simp [hfold]
  | cons x n =>
    cases hx : brackmatch M {} p x with
    | none => simp [hfold, hx]
    | some q => simp [hfold, hx, slashPathname, dotHidden, brackmatch_rest rfl hsound hx]

/-- `gmatch` consumes one character for each token that is not a star. -/
theorem gmatch_one {accept : Char → Bool} (hsound : c ≠ '[' ∨ soundBracket M {} p)
    (htoken : token M c p = (.one accept, q)) (hfuel : 0 < fuel) :
    gmatch M (fuel + 1) {} ends prev (c :: p) n =
      match n with
      | [] => some .noMatch
      | x :: n => if accept x then gmatch M fuel {} ends (some x) q n else some .noMatch := by
  have hfold : ∀ x, fold M {} x = x := fun _ => rfl
  unfold token at htoken
  split at htoken
  · cases htoken
  · rename_i hstar
    split at htoken
    · rename_i hany
      cases htoken
      subst hany
      conv_lhs => unfold gmatch
      cases n with
      | nil => simp [hfold]
      | cons x n => simp [hfold, slashPathname, dotHidden]
    · rename_i hany
      split at htoken
      · rename_i hescape
        cases htoken
        subst hescape
        rw [gmatch_escape hfuel]
        simp only [decide_eq_true_eq]
      · rename_i hescape
        split at htoken
        · rename_i hbracket
          cases htoken
          subst hbracket
          exact gmatch_bracket (hsound.resolve_left fun h => h rfl)
        · rename_i hbracket
          cases htoken
          conv_lhs => unfold gmatch
          cases n with
          | nil => simp [hfold, hstar, hany, hescape, hbracket]
          | cons x n => simp [hfold, hstar, hany, hescape, hbracket]

end Steps

section Wildcards

variable {M} {fuel : Nat} {prev : Option Char} {c : Char} {p q n : List Char}

/-- What a call with `ends` finds. -/
inductive Finds (M : Macros) (p n : List Char) : Verdict → Prop where
  | noMatch (h : ¬ Matches (tokens M p) n) : Finds M p n .noMatch
  | matched (h : Matches (tokens M p) n) (hfindable : isFindable M p) : Finds M p n .matched
  | ends {q n' : List Char} (prev : Option Char)
      (h : Reaches (tokens M p) n (tokens M ('*' :: q)) n') (hlength : q.length < p.length)
      (hsound : isSound M ('*' :: q)) (hfindable : isFindable M ('*' :: q) = isFindable M p) :
      Finds M p n (.ends ('*' :: q) n' prev)

theorem isFindable_one (hc : c ≠ '*') : isFindable M (c :: p) = isFindable M (token M c p).2 := by
  rw [isFindable]
  simp [hc]

theorem isSound_cons :
    isSound M (c :: p) ↔ (c ≠ '[' ∨ soundBracket M {} p) ∧ isSound M (token M c p).2 := by
  rw [isSound]
  simp

theorem finds_one {accept : Char → Bool} {x : Char} {v : Verdict} (hc : c ≠ '*')
    (htoken : token M c p = (.one accept, q)) (hx : accept x) (h : Finds M q n v) :
    Finds M (c :: p) (x :: n) v := by
  have htokens : tokens M (c :: p) = .one accept :: tokens M q := by rw [tokens_cons, htoken]
  have hfind : isFindable M (c :: p) = isFindable M q := by rw [isFindable_one hc, htoken]
  cases h with
  | noMatch h =>
    refine .noMatch ?_
    rw [htokens, matches_one_cons_iff]
    exact fun hm => h hm.2
  | matched h hfindable =>
    refine .matched ?_ (hfind ▸ hfindable)
    rw [htokens]
    exact .one hx h
  | ends prev h hlength hsound hfindable =>
    have hq : q.length ≤ p.length := by
      have := token_length (M := M) c p
      rwa [htoken] at this
    refine .ends prev ?_ (hlength.trans_le (hq.trans (by simp))) hsound (hfindable.trans hfind.symm)
    rw [htokens]
    exact .one hx h

/-- A call with `ends` stops at the first star. -/
theorem gmatch_ends (hsound : isSound M p) (hfuel : p.length < fuel) (prev : Option Char)
    (n : List Char) :
    ∃ v, gmatch M fuel {} true prev p n = some v ∧ Finds M p n v := by
  induction fuel generalizing prev p n with
  | zero => simp at hfuel
  | succ fuel ih =>
    cases p with
    | nil =>
      refine ⟨_, gmatch_nil (by simp), ?_⟩
      split
      · rename_i h
        refine .matched ?_ (by simp [isFindable])
        rw [h, tokens]
        exact .nil
      · rename_i h
        refine .noMatch ?_
        rw [tokens, matches_nil_iff]
        exact h
    | cons c p =>
      have hp : p.length < fuel := by simpa using hfuel
      by_cases hc : c = '*'
      · subst hc
        exact ⟨_, by simp [gmatch, fold], .ends prev (.refl _ _) (by simp) hsound rfl⟩
      · obtain ⟨accept, haccept⟩ := token_one (M := M) (p := p) hc
        have htoken : token M c p = (.one accept, (token M c p).2) := by rw [← haccept]
        obtain ⟨hbracket, hrest⟩ := isSound_cons.mp hsound
        rw [gmatch_one hbracket htoken (by omega)]
        cases n with
        | nil =>
          refine ⟨_, rfl, .noMatch ?_⟩
          rw [tokens_cons, haccept]
          exact not_matches_one_nil
        | cons x n =>
          dsimp only
          split
          · rename_i hx
            obtain ⟨v, hv, hfinds⟩ := ih hrest ((token_length c p).trans_lt hp) (some x) n
            exact ⟨v, hv, finds_one hc htoken hx hfinds⟩
          · rename_i hx
            refine ⟨_, rfl, .noMatch ?_⟩
            rw [tokens_cons, haccept, matches_one_cons_iff]
            exact fun h => hx h.1

theorem tokens_star (p : List Char) : tokens M ('*' :: p) = .star :: tokens M p := by
  rw [tokens_cons, token_star]

theorem tokens_any (p : List Char) :
    tokens M ('?' :: p) = .one (fun _ => true) :: tokens M p := by
  rw [tokens_cons]
  rfl

theorem tokens_wild (hc : isWild c) : (token M c p).2 = p := by
  simp only [isWild, Bool.or_eq_true, decide_eq_true_eq] at hc
  obtain rfl | rfl := hc
  · rfl
  · rfl

theorem isSound_dropWhile (h : isSound M p) : isSound M (p.dropWhile isWild) := by
  induction p with
  | nil => exact h
  | cons c p ih =>
    rw [List.dropWhile_cons]
    split
    · rename_i hc
      have := (isSound_cons.mp h).2
      rw [tokens_wild hc] at this
      exact ih this
    · exact h

theorem isFindable_dropWhile (h : p.dropWhile isWild ≠ ['\\']) :
    isFindable M (p.dropWhile isWild) = isFindable M p := by
  induction p with
  | nil => rfl
  | cons c p ih =>
    rw [List.dropWhile_cons] at h ⊢
    split at h
    · rename_i hc
      rw [if_pos hc, ih h, isFindable.eq_def M (c :: p)]
      have hhides : hidesBackslash p = false := by
        simpa [hidesBackslash] using h
      simp [hhides, tokens_wild hc]
    · rename_i hc
      rw [if_neg hc]

theorem isFindable_star :
    isFindable M ('*' :: p) ↔
      p.dropWhile isWild ≠ ['\\'] ∧ isFindable M (p.dropWhile isWild) := by
  rw [isFindable]
  by_cases h : p.dropWhile isWild = ['\\']
  · have hhides : hidesBackslash p = true := by simpa [hidesBackslash] using h
    simp [hhides, h]
  · have hhides : hidesBackslash p = false := by simpa [hidesBackslash] using h
    simp [hhides, h, isFindable_dropWhile, token_star]

theorem collapse_cons :
    collapse {} (c :: p) n =
      if c = '?' then
        match n with
        | [] => .noMatch
        | _ :: n => collapse {} p n
      else if c = '*' then collapse {} p n
      else .rest c p n := by
  have hslash : n.head?.any (slashPathname {}) = false := by
    cases n with
    | nil => rfl
    | cons x n => simp [slashPathname]
  conv_lhs => unfold collapse
  rw [hslash]
  by_cases hany : c = '?'
  · cases n with
    | nil => simp [hany]
    | cons x n => simp [hany]
  · by_cases hstar : c = '*'
    · simp [hstar]
    · simp [hany, hstar]

/-- What `collapse` finds behind a star. -/
inductive Collapses (M : Macros) (p n : List Char) : Collapsed → Prop where
  | noMatch (h : ¬ Matches (.star :: tokens M p) n) : Collapses M p n .noMatch
  | all (hp : p.dropWhile isWild = []) (h : Matches (.star :: tokens M p) n) :
      Collapses M p n .all
  | rest {c : Char} {q n' : List Char} (hp : p.dropWhile isWild = c :: q)
      (h : Matches (.star :: tokens M p) n ↔ Matches (.star :: tokens M (c :: q)) n') :
      Collapses M p n (.rest c q n')

theorem Collapses.cons {n' : List Char} {found : Collapsed} (h : Collapses M p n' found)
    (hc : isWild c)
    (hiff : Matches (.star :: tokens M (c :: p)) n ↔ Matches (.star :: tokens M p) n') :
    Collapses M (c :: p) n found := by
  have hdrop : (c :: p).dropWhile isWild = p.dropWhile isWild := by
    rw [List.dropWhile_cons, if_pos hc]
  cases h with
  | noMatch h => exact .noMatch fun hm => h (hiff.mp hm)
  | all hp h => exact .all (hdrop.trans hp) (hiff.mpr h)
  | rest hp h => exact .rest (hdrop.trans hp) (hiff.trans h)

theorem collapses (p n : List Char) : Collapses M p n (collapse {} p n) := by
  induction p generalizing n with
  | nil =>
    refine .all rfl ?_
    rw [tokens]
    exact matches_star_nil n
  | cons c p ih =>
    rw [collapse_cons]
    by_cases hany : c = '?'
    · subst hany
      cases n with
      | nil =>
        refine .noMatch ?_
        rw [tokens_any, matches_star_any_iff fun _ => rfl]
        exact not_matches_one_nil
      | cons x n =>
        refine (ih n).cons rfl ?_
        rw [tokens_any, matches_star_any_iff fun _ => rfl, matches_one_cons_iff]
        exact and_iff_right rfl
    · by_cases hstar : c = '*'
      · subst hstar
        refine (ih n).cons rfl ?_
        rw [tokens_star, matches_star_star_iff]
      · rw [if_neg hany, if_neg hstar]
        exact .rest (by simp [isWild, hany, hstar]) Iff.rfl

theorem passes_of_matches {x : Char} (hc : isWild c = false) (hlone : c :: p ≠ ['\\'])
    (h : Matches (tokens M (c :: p)) (x :: n)) : passes M {} c p x := by
  have hfold : ∀ x, fold M {} x = x := fun _ => rfl
  simp only [isWild, Bool.or_eq_false_iff, decide_eq_false_iff_not] at hc
  rw [tokens_cons, token, if_neg hc.2, if_neg hc.1] at h
  unfold passes
  by_cases hescape : c = '\\'
  · subst hescape
    cases p with
    | nil => exact absurd rfl hlone
    | cons d p => simpa [hfold, eq_comm] using (matches_one_cons_iff.mp h).1
  · by_cases hbracket : c = '['
    · simp [hbracket]
    · rw [if_neg hescape, if_neg hbracket] at h
      simpa [hfold, hescape, hbracket, eq_comm] using (matches_one_cons_iff.mp h).1

theorem search_lone (gmatch : List Char → Option Verdict) (n : List Char) :
    search {} gmatch (passes M {} '\\' []) n = some .noMatch := by
  induction n with
  | nil => rfl
  | cons x n ih =>
    rw [search, ih]
    simp [slashPathname, passes]

/-- What the general case of a star finds, where the rest of the pattern is `p`. -/
inductive Seeks (M : Macros) (p n : List Char) : Verdict → Prop where
  | noMatch (h : ¬ Matches (.star :: tokens M p) n) : Seeks M p n .noMatch
  | matched (h : Matches (.star :: tokens M p) n) (hfindable : isFindable M p) :
      Seeks M p n .matched
  | ends {q n' : List Char} (prev : Option Char)
      (h : Matches (.star :: tokens M p) n ↔ Matches (tokens M ('*' :: q)) n')
      (hlength : q.length < p.length)
      (hsound : isSound M ('*' :: q)) (hfindable : isFindable M ('*' :: q) = isFindable M p) :
      Seeks M p n (.ends ('*' :: q) n' prev)

theorem Seeks.skip {x : Char} {v : Verdict} (h : Seeks M p n v)
    (hx : ¬ Matches (tokens M p) (x :: n)) : Seeks M p (x :: n) v := by
  have hiff : Matches (.star :: tokens M p) (x :: n) ↔ Matches (.star :: tokens M p) n := by
    rw [matches_star_cons_iff, or_iff_right hx]
  cases h with
  | noMatch h => exact .noMatch fun hm => h (hiff.mp hm)
  | matched h hfindable => exact .matched (hiff.mpr h) hfindable
  | ends prev h hlength hsound hfindable =>
    exact .ends prev (hiff.trans h) hlength hsound hfindable

/-- Where the tokens up to a later star fit first, no match is lost by going on from there. -/
theorem Seeks.first {v : Verdict} (h : Finds M p n v) (hv : v ≠ .noMatch) : Seeks M p n v := by
  cases h with
  | noMatch h => exact absurd rfl hv
  | matched h hfindable => exact .matched h.of_rest hfindable
  | @ends q n' prev h hlength hsound hfindable =>
    refine .ends prev ?_ hlength hsound hfindable
    rw [tokens_star] at h ⊢
    constructor
    · intro hm
      obtain ⟨t, ht, hp⟩ := matches_star_iff.mp hm
      exact h.leftmost ht hp
    · intro hm
      exact (h.matches_iff.mpr hm).of_rest

theorem search_seeks (hc : isWild c = false) (hlone : c :: p ≠ ['\\']) (hsound : isSound M (c :: p))
    (hfuel : (c :: p).length < fuel) (n : List Char) :
    ∃ v, search {} (gmatch M fuel {} true none (c :: p)) (passes M {} c p) n = some v ∧
      Seeks M (c :: p) n v := by
  induction n with
  | nil =>
    refine ⟨_, rfl, .noMatch fun h => ?_⟩
    obtain ⟨t, ht, hp⟩ := matches_star_iff.mp h
    have hstar : c ≠ '*' := by simp_all [isWild]
    obtain ⟨accept, haccept⟩ := token_one (M := M) (p := p) hstar
    rw [List.suffix_nil.mp ht, tokens_cons, haccept] at hp
    exact not_matches_one_nil hp
  | cons x n ih =>
    obtain ⟨v, hv, hseeks⟩ := ih
    have hslash : slashPathname {} x = false := by simp [slashPathname]
    rw [search, hslash, if_neg (by simp)]
    by_cases hpasses : passes M {} c p x
    · rw [if_pos hpasses]
      obtain ⟨w, hw, hfinds⟩ := gmatch_ends hsound hfuel none (x :: n)
      rw [hw]
      cases hfinds with
      | noMatch h => exact ⟨v, hv, hseeks.skip h⟩
      | matched h hfindable => exact ⟨_, rfl, .first (.matched h hfindable) (by simp)⟩
      | ends prev h hlength hsound hfindable =>
        exact ⟨_, rfl, .first (.ends prev h hlength hsound hfindable) (by simp)⟩
    · rw [if_neg hpasses]
      exact ⟨v, hv, hseeks.skip fun h => hpasses (passes_of_matches hc hlone h)⟩

/-- The call returns, and it returns a match if and only if `P` holds. -/
def Decides (P : Prop) (result : Option Verdict) : Prop :=
  result = some .matched ∧ P ∨ result = some .noMatch ∧ ¬ P

theorem Decides.congr {P Q : Prop} {result : Option Verdict} (h : Decides P result) (hiff : P ↔ Q) :
    Decides Q result := by
  unfold Decides
  rw [← hiff]
  exact h

theorem gmatch_star :
    gmatch M (fuel + 1) {} false prev ('*' :: p) n =
      match collapse {} p n with
      | .noMatch => some .noMatch
      | .all => some .matched
      | .rest c p n =>
        match search {} (gmatch M fuel {} true none (c :: p)) (passes M {} c p) n with
        | some (.ends p n prev) => gmatch M fuel {} false prev p n
        | verdict => verdict := by
  have hfold : ∀ x, fold M {} x = x := fun _ => rfl
  have hslash : ∀ x, slashPathname {} x = false := by simp [slashPathname]
  have hdot : dotHidden {} prev n = false := by simp [dotHidden]
  conv_lhs => unfold gmatch
  simp only [hfold, hslash, hdot, Bool.false_eq_true, if_false]
  refine (if_neg (by decide)).trans ((if_neg (by decide)).trans ((if_pos trivial).trans ?_))
  cases collapse {} p n with
  | noMatch => rfl
  | all => rfl
  | rest c q m => rfl

/-- A star, where shorter patterns are decided: whether the rest of the pattern is tried at each
place, or at one, from which a later star goes on. -/
theorem gmatch_star_decides (hsound : isSound M p) (hfuel : p.length < fuel)
    (ih : ∀ {q : List Char}, isSound M q → q.length < fuel → ∀ prev n,
      Decides (isFindable M q ∧ Matches (tokens M q) n) (gmatch M fuel {} false prev q n))
    (prev : Option Char) (n : List Char) :
    Decides (isFindable M ('*' :: p) ∧ Matches (tokens M ('*' :: p)) n)
      (gmatch M (fuel + 1) {} false prev ('*' :: p) n) := by
  rw [gmatch_star, tokens_star, isFindable_star]
  have hdrop := isSound_dropWhile hsound
  have hle := List.length_dropWhile_le isWild p
  have hcollapses := collapses (M := M) p n
  generalize collapse {} p n = found at hcollapses ⊢
  cases hcollapses with
  | noMatch h => exact .inr ⟨rfl, fun hm => h hm.2⟩
  | all hp h =>
    refine .inl ⟨rfl, ?_, h⟩
    rw [hp, isFindable]
    simp
  | @rest c q m hp h =>
    rw [hp] at hdrop hle ⊢
    have hc : isWild c = false := by
      have := List.head?_dropWhile_not isWild p
      rwa [hp] at this
    by_cases hlone : c :: q = ['\\']
    · cases hlone
      dsimp only
      rw [search_lone]
      exact .inr ⟨rfl, fun hm => hm.1.1 rfl⟩
    · obtain ⟨v, hv, hseeks⟩ := search_seeks hc hlone hdrop (hle.trans_lt hfuel) m
      dsimp only
      rw [hv]
      cases hseeks with
      | noMatch hm => exact .inr ⟨rfl, fun hm' => hm (h.mp hm'.2)⟩
      | matched hm hfindable => exact .inl ⟨rfl, ⟨hlone, hfindable⟩, h.mpr hm⟩
      | @ends q' n' prev hm hlength hsound hfindable =>
        refine (ih hsound ?_ prev n').congr ?_
        · exact (Nat.lt_of_le_of_lt hlength (hle.trans_lt hfuel))
        · rw [hfindable, h, hm, and_iff_right hlone]

/-- Without flags `gmatch` tells whether the tokens match, unless a star hides a lone backslash. -/
theorem gmatch_decides (hsound : isSound M p) (hfuel : p.length < fuel) (prev : Option Char)
    (n : List Char) :
    Decides (isFindable M p ∧ Matches (tokens M p) n) (gmatch M fuel {} false prev p n) := by
  induction fuel generalizing prev p n with
  | zero => simp at hfuel
  | succ fuel ih =>
    cases p with
    | nil =>
      rw [gmatch_nil (by simp)]
      simp only [Decides, isFindable, tokens, matches_nil_iff]
      by_cases h : n = []
      · simp [h]
      · simp [h]
    | cons c p =>
      have hp : p.length < fuel := by simpa using hfuel
      obtain ⟨hbracket, hrest⟩ := isSound_cons.mp hsound
      by_cases hc : c = '*'
      · subst hc
        exact gmatch_star_decides hrest hp ih prev n
      · obtain ⟨accept, haccept⟩ := token_one (M := M) (p := p) hc
        have htoken : token M c p = (.one accept, (token M c p).2) := by rw [← haccept]
        rw [gmatch_one hbracket htoken (by omega), isFindable_one hc, tokens_cons, haccept]
        cases n with
        | nil => exact .inr ⟨rfl, fun h => not_matches_one_nil h.2⟩
        | cons x n =>
          dsimp only
          rw [matches_one_cons_iff]
          split
          · rename_i hx
            rw [and_iff_right hx]
            exact ih hrest ((token_length c p).trans_lt hp) (some x) n
          · rename_i hx
            exact .inr ⟨rfl, fun h => hx h.2.1⟩

end Wildcards

section Plain

variable {M} {c d : Char} {p : List Char}

theorem isPlain_cons (hescape : c ≠ '\\') : isPlain (c :: p) ↔ c ≠ '[' ∧ isPlain p := by
  rw [isPlain]
  · simp
  · intro h
    cases h
    exact absurd rfl hescape
  · intro d q h
    exact absurd h hescape

/-- Induction along the tokens of a plain pattern. -/
theorem isPlain_induction {motive : List Char → Prop} (nil : motive [])
    (escape : ∀ d p, isPlain p → motive p → motive ('\\' :: d :: p))
    (cons : ∀ c p, c ≠ '\\' → c ≠ '[' → isPlain p → motive p → motive (c :: p))
    (h : isPlain p) : motive p := by
  fun_induction isPlain p with
  | case1 => exact nil
  | case2 => cases h
  | case3 d p ih => exact escape d p h (ih h)
  | case4 c p hlone hescape ih =>
    simp only [Bool.and_eq_true, decide_eq_true_eq] at h
    refine cons c p ?_ h.1 h.2 (ih h.2)
    intro hc
    cases p with
    | nil => exact hlone hc rfl
    | cons d p => exact hescape d p hc rfl

theorem isPlain_dropWhile (h : isPlain p) : isPlain (p.dropWhile isWild) := by
  induction p with
  | nil => exact h
  | cons c p ih =>
    rw [List.dropWhile_cons]
    split
    · rename_i hc
      have hescape : c ≠ '\\' := by
        rintro rfl
        simp [isWild] at hc
      exact ih ((isPlain_cons hescape).mp h).2
    · exact h

theorem token_plain (hescape : c ≠ '\\') (hbracket : c ≠ '[') : (token M c p).2 = p := by
  simp only [token, if_neg hescape, if_neg hbracket]
  split
  · rfl
  · split
    · rfl
    · rfl

theorem isSound_plain (h : isPlain p) : isSound M p := by
  apply isPlain_induction (p := p) _ _ _ h
  · simp [isSound]
  · intro d p _ ih
    exact isSound_cons.mpr ⟨.inl (by decide), ih⟩
  · intro c p hescape hbracket _ ih
    rw [isSound_cons, token_plain hescape hbracket]
    exact ⟨.inl hbracket, ih⟩

theorem isFindable_plain (h : isPlain p) : isFindable M p := by
  apply isPlain_induction (p := p) _ _ _ h
  · simp [isFindable]
  · intro d p _ ih
    rw [isFindable_one (by decide)]
    exact ih
  · intro c p hescape hbracket hp ih
    by_cases hc : c = '*'
    · subst hc
      have hlone : p.dropWhile isWild ≠ ['\\'] := by
        intro hdrop
        have := isPlain_dropWhile hp
        rw [hdrop] at this
        cases this
      rw [isFindable_star, isFindable_dropWhile hlone]
      exact ⟨hlone, ih⟩
    · rw [isFindable_one hc, token_plain hescape hbracket]
      exact ih

theorem naive_iff (h : isPlain p) (n : List Char) : naive p n ↔ Matches (tokens M p) n := by
  revert n
  apply isPlain_induction (p := p) _ _ _ h
  · intro n
    simp [naive, tokens]
  · intro d p _ ih n
    cases n with
    | nil => simp [naive, tokens_cons, token]
    | cons x n => simp [naive, tokens_cons, token, ih]
  · intro c p hescape hbracket _ ih n
    rw [tokens_cons, token_plain hescape hbracket, token, if_neg hescape, if_neg hbracket]
    by_cases hstar : c = '*'
    · subst hstar
      simp only [naive, if_true, List.any_eq_true, List.mem_tails, ih]
      exact matches_star_iff.symm
    · by_cases hany : c = '?'
      · subst hany
        cases n with
        | nil => simp [naive]
        | cons x n => simp [naive, ih]
      · cases n with
        | nil => simp [naive, hstar, hany, hescape]
        | cons x n => simp [naive, ih, hstar, hany, hescape]

end Plain

/-- The shortcut is exact: on plain patterns, `gmatch` without flags returns what the matcher that
tries every split returns. -/
theorem gmatch_naive (p : List Char) (hp : isPlain p) (n : List Char) (fuel : Nat)
    (hfuel : p.length < fuel) :
    gmatch M fuel {} false none p n = some (if naive p n then .matched else .noMatch) := by
  have hdecides := gmatch_decides (isSound_plain (M := M) hp) hfuel none n
  rw [and_iff_right (isFindable_plain hp), ← naive_iff hp] at hdecides
  obtain ⟨hresult, hn⟩ | ⟨hresult, hn⟩ := hdecides
  · rw [hresult, if_pos hn]
  · rw [hresult, if_neg hn]

theorem gmatch_naive_two_stars :
    gmatch (Macros.posix []) 6 {} false none ['a', '*', 'b', '*', 'c'] ['a', 'b', 'b', 'c'] =
      some .matched :=
  gmatch_naive (Macros.posix []) ['a', '*', 'b', '*', 'c'] (by decide) ['a', 'b', 'b', 'c'] 6
    (by decide)

/-- `gmatch` returns 0 without flags. -/
def accepts (p n : List Char) : Prop :=
  ∀ fuel, p.length < fuel → gmatch M fuel {} false none p n = some .matched

variable {M} in
theorem accepts_iff {p : List Char} (hsound : isSound M p) (n : List Char) :
    accepts M p n ↔ isFindable M p ∧ Matches (tokens M p) n := by
  constructor
  · intro h
    obtain ⟨-, hp⟩ | ⟨hresult, -⟩ := gmatch_decides hsound (Nat.lt_succ_self p.length) none n
    · exact hp
    · cases hresult.symm.trans (h _ (Nat.lt_succ_self p.length))
  · intro h fuel hfuel
    obtain ⟨hresult, -⟩ | ⟨-, hn⟩ := gmatch_decides hsound hfuel none n
    · exact hresult
    · exact absurd h hn

variable {M} in
theorem hidden_of_findable {p : List Char} (hfindable : isFindable M p)
    (h : p.dropWhile isWild = ['\\']) : ∃ k, p = List.replicate k '?' ++ ['\\'] := by
  induction p with
  | nil => cases h
  | cons c p ih =>
    by_cases hc : isWild c
    · rw [List.dropWhile_cons, if_pos hc] at h
      have hstar : c ≠ '*' := by
        rintro rfl
        exact (isFindable_star.mp hfindable).1 h
      have hany : c = '?' := by simpa [isWild, hstar] using hc
      rw [isFindable_one hstar, tokens_wild hc] at hfindable
      obtain ⟨k, hk⟩ := ih hfindable h
      exact ⟨k + 1, by rw [hany, hk, List.replicate_succ, List.cons_append]⟩
    · rw [List.dropWhile_cons, if_neg hc] at h
      exact ⟨0, h⟩

variable {M} in
theorem questions_match (k : Nat) :
    isFindable M (List.replicate k '?' ++ ['\\']) ∧
      Matches (tokens M (List.replicate k '?' ++ ['\\'])) (List.replicate k 'a' ++ ['\\']) := by
  induction k with
  | zero =>
    simp only [List.replicate_zero, List.nil_append]
    refine ⟨by simp [isFindable, token], ?_⟩
    simp [tokens, token]
  | succ k ih =>
    simp only [List.replicate_succ, List.cons_append, tokens_any]
    rw [isFindable_one (by decide), tokens_wild (by decide)]
    exact ⟨ih.1, .one rfl ih.2⟩

/-- A leading star absorbs any prefix, where the bracket expressions are sound, unless the pattern
is a run of question marks and a lone backslash. -/
theorem absorbs_iff (p : List Char) (hsound : isSound M p) :
    (∀ s t, accepts M p s → accepts M ('*' :: p) (t ++ s)) ↔
      ¬ ∃ k, p = List.replicate k '?' ++ ['\\'] := by
  have hstar : isSound M ('*' :: p) := isSound_cons.mpr ⟨.inl (by decide), hsound⟩
  constructor
  · intro h ⟨k, hk⟩
    subst hk
    have haccepts := (accepts_iff hsound _).mpr (questions_match k)
    have hfindable := ((accepts_iff hstar _).mp (h _ [] haccepts)).1
    apply (isFindable_star.mp hfindable).1
    rw [List.dropWhile_append_of_pos]
    · rfl
    · intro c hc
      rw [List.eq_of_mem_replicate hc]
      rfl
  · intro hnot s t h
    obtain ⟨hfindable, hmatches⟩ := (accepts_iff hsound s).mp h
    have hlone : p.dropWhile isWild ≠ ['\\'] := fun h => hnot (hidden_of_findable hfindable h)
    rw [accepts_iff hstar, isFindable_star, isFindable_dropWhile hlone, tokens_star]
    exact ⟨⟨hlone, hfindable⟩, .star t hmatches⟩

theorem absorbs_iff_letter :
    (∀ s t, accepts (Macros.posix []) ['x'] s → accepts (Macros.posix []) ['*', 'x'] (t ++ s)) ↔
      ¬ ∃ k, ['x'] = List.replicate k '?' ++ ['\\'] :=
  absorbs_iff (Macros.posix []) ['x'] (isSound_plain (by decide))

/-- A lone backslash matches a final backslash, but not behind a star. -/
theorem backslash_not_absorbed :
    ¬ ∀ (M : Macros) (p s t : List Char), accepts M p s → accepts M ('*' :: p) (t ++ s) := by
  intro h
  have hsound : isSound (Macros.posix []) ['\\'] := by simp [isSound, token]
  have haccepts : accepts (Macros.posix []) ['\\'] ['\\'] :=
    (accepts_iff hsound _).mpr (questions_match 0)
  have := h _ _ _ ['a'] haccepts 3 (by decide)
  cases this

end Basht.Glob
