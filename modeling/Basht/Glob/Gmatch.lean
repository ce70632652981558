import Basht.Glob.Brackets
import Basht.Library.Wildcards

/-!
# Matching a glob pattern

`gmatch` without the extended patterns. On meeting a later star a recursive call hands this star
and the string behind it back to its caller, which gives up the earlier star. It does not start at
a character that differs from the first one of the rest of the pattern; where the rest is a lone
backslash it does not start at all, though a lone backslash matches a final backslash.
-/

namespace Basht.Glob

open Wildcards

variable (M : Macros) (flags : Flags)

/-- `SDOT_OR_DOTDOT` -/
def sdotOrDotdot (n : List Char) : Bool := n = ['.'] || n = ['.', '.']

/-- `PATHSEP`, with the terminating NUL as `none`. -/
def pathsep (c : Option Char) : Bool := c = none || c = some '/'

/-- `PDOT_OR_DOTDOT` -/
def pdotOrDotdot : List Char → Bool
  | '.' :: '.' :: n => pathsep n.head?
  | '.' :: n => pathsep n.head?
  | _ => false

/-- The tests of `FNM_PERIOD` and `FNM_DOTDOT` at `n`, with the character in front of it in the
string: a wildcard does not match a dot here. -/
def dotHidden (prev : Option Char) (n : List Char) : Bool :=
  flags.period && n.head? = some '.' && (prev = none || flags.pathname && prev = some '/') ||
    flags.dotdot && (prev = none && sdotOrDotdot n ||
      flags.pathname && prev = some '/' && pdotOrDotdot n)

/-- What the loop behind a star finds, that collapses stars and question marks. -/
inductive Collapsed where
  | noMatch
  /-- The wildcards are the last element of the pattern. -/
  | all
  | rest (c : Char) (p n : List Char)
deriving DecidableEq, Repr

/-- The loop that consumes one character of the string for each question mark. -/
def collapse : List Char → List Char → Collapsed
  | [], _ => .all
  | c :: p, n =>
    if c = '?' ∨ c = '*' then
      if n.head?.any (slashPathname flags) then .noMatch
      else if c = '?' then
        match n with
        | [] => .noMatch
        | _ :: n => collapse p n
      else collapse p n
    else .rest c p n

/-- What a call returns. -/
inductive Verdict where
  /-- `FNM_NOMATCH` -/
  | noMatch
  | matched
  /-- 0, with a later star in `ends`: the pattern from the star on, the string there and the
  character in front of it. -/
  | ends (pattern string : List Char) (prev : Option Char)
deriving DecidableEq, Repr

/-- The string may start with `x` where the rest of the pattern is `c`, `p`. -/
def passes (c : Char) (p : List Char) (x : Char) : Bool :=
  c = '[' ||
    (if !flags.noescape ∧ c = '\\' then p.head?.map (fold M flags) else some (fold M flags c)) =
      some (fold M flags x)

/-- The loop of the general case of a star, over the places where the rest of the pattern is
tried; `none` where the fuel of `gmatch` is used up. -/
def search (gmatch : List Char → Option Verdict) (starts : Char → Bool) :
    List Char → Option Verdict
  | [] => some .noMatch
  | x :: n =>
    if slashPathname flags x then some .noMatch
    else if starts x then
      match gmatch (x :: n) with
      | some .noMatch => search gmatch starts n
      | verdict => verdict
    else search gmatch starts n

/-- The pattern is at its end. -/
def atEnd (n : List Char) : Verdict :=
  if n = [] ∨ flags.leadingDir ∧ n.head? = some '/' then .matched else .noMatch

/-- `GMATCH`, with `ends` for an argument that is not null, and the character in front of `n` in
the string of this call. The fuel counts the turns of its loop and of the calls in it. -/
def gmatch : Nat → Flags → Bool → Option Char → List Char → List Char → Option Verdict
  | 0, _, _, _, _, _ => none
  | _ + 1, flags, _, _, [], n => some (atEnd flags n)
  | fuel + 1, flags, ends, prev, c :: p, n =>
    let c := fold M flags c
    if c = '?' then
      match n with
      | [] => some .noMatch
      | sc :: n =>
        if slashPathname flags sc || dotHidden flags prev (sc :: n) then some .noMatch
        else gmatch fuel flags ends (some sc) p n
    else if c = '\\' then
      if p = [] ∧ n = ['\\'] then gmatch fuel flags ends (some '\\') [] []
      else
        match p with
        | [] => some .noMatch
        | d :: q =>
          let (c, p) := if !flags.noescape then (fold M flags d, q) else (c, p)
          match n with
          | [] => some .noMatch
          | sc :: n =>
            if fold M flags sc = c then gmatch fuel flags ends (some sc) p n else some .noMatch
    else if c = '*' then
      if ends then some (.ends ('*' :: p) n prev)
      else if dotHidden flags prev n then some .noMatch
      else
        match collapse flags p n with
        | .noMatch => some .noMatch
        | .all => some .matched
        | .rest c p n =>
          if slashPathname flags c then
            match n.dropWhile (· ≠ '/') with
            | [] => some .noMatch
            | _ :: n =>
              match gmatch fuel flags false none p n with
              | none => none
              | some verdict => some (if verdict = .matched then .matched else .noMatch)
          else
            let flags' := { flags with period := false, dotdot := false }
            match search flags (gmatch fuel flags' true none (c :: p)) (passes M flags c p) n with
            | some (.ends p n prev) => gmatch fuel flags false prev p n
            | verdict => verdict
    else if c = '[' then
      match n with
      | [] => some .noMatch
      | sc :: n =>
        if slashPathname flags sc || dotHidden flags prev (sc :: n) then some .noMatch
        else
          match brackmatch M flags p sc with
          | none => some .noMatch
          | some p => gmatch fuel flags ends (some sc) p n
    else
      match n with
      | [] => some .noMatch
      | sc :: n =>
        if fold M flags sc = c then gmatch fuel flags ends (some sc) p n else some .noMatch

end Basht.Glob
