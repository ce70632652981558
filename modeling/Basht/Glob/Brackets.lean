import Mathlib.Data.List.Lemmas
import Mathlib.Order.Basic

/-!
# Bracket expressions of a glob pattern

`brackmatch` has two loops over the text of a bracket expression: the main loop, which tests one
item after the other, and the loop behind the label `matched`, which looks for the end once an
item has matched. The two disagree on a range whose end is a left bracket with the text of
another item behind it. On texts without such ranges the end does not depend on the character
that is tested (`end_independent`).
-/

namespace Basht.Glob

/-- The flags of a match; `FNM_EXTMATCH` is not among them. -/
structure Flags where
  /-- `FNM_PATHNAME` -/
  pathname : Bool := false
  /-- `FNM_NOESCAPE` -/
  noescape : Bool := false
  /-- `FNM_PERIOD` -/
  period : Bool := false
  /-- `FNM_LEADING_DIR` -/
  leadingDir : Bool := false
  /-- `FNM_CASEFOLD` -/
  casefold : Bool := false
  /-- `FNM_DOTDOT` -/
  dotdot : Bool := false
deriving DecidableEq, Repr

/-- The characters that the matcher treats specially. -/
def specials : List Char := ['*', '?', '[', ']', '\\', '-', '/', '.', ':', '=', '!', '^']

/-- The macros that `smatch.c` defines before it includes `sm_loop.c`, once for bytes and once
for wide characters. -/
structure Macros where
  /-- `FOLD` under `FNM_CASEFOLD` -/
  lower : Char → Char
  /-- `COLLSYM` -/
  collsym : List Char → Char
  /-- `COLLEQUIV` -/
  collequiv : Char → Char → Bool
  /-- `IS_CCLASS`, where an invalid class has no characters -/
  isCclass : Char → List Char → Bool
  /-- `RANGECMP` -/
  rangecmp : Char → Char → Bool → Int
  /-- Folding concerns letters. -/
  lower_special : ∀ s ∈ specials, ∀ c, lower c = s ↔ c = s

/-- `collsym`, with the names of `posix_collsyms` as a table; `none` is `INVALID`. -/
def collsym (table : List (List Char × Char)) (s : List Char) : Option Char :=
  match table.find? fun entry => entry.1 = s with
  | some entry => some entry.2
  | none => if s.length = 1 then s.head? else none

/-- `cclass_test` in the C locale, by the names of `cclass_name`. -/
def cclassTest (c : Char) (name : String) : Bool :=
  let graph := 33 ≤ c.toNat && c.toNat ≤ 126
  match name with
  | "ascii" => c.toNat ≤ 127
  | "alnum" => c.isAlphanum
  | "alpha" => c.isAlpha
  | "blank" => c = ' ' || c = '\t'
  | "cntrl" => c.toNat ≤ 31 || c.toNat = 127
  | "digit" => c.isDigit
  | "graph" => graph
  | "lower" => c.isLower
  | "print" => c = ' ' || graph
  | "punct" => graph && !c.isAlphanum
  | "space" => c = ' ' || 9 ≤ c.toNat && c.toNat ≤ 13
  | "upper" => c.isUpper
  | "word" => c.isAlphanum || c = '_'
  | "xdigit" => c.isDigit || 'a' ≤ c.toLower && c.toLower ≤ 'f'
  | _ => false

theorem specials_bound : ∀ s ∈ specials, ¬ (65 ≤ s.toNat ∧ s.toNat ≤ 90) ∧
    ¬ (97 ≤ s.toNat ∧ s.toNat ≤ 122) := by
  simp [specials]

theorem toLower_special (s : Char) (hs : s ∈ specials) (c : Char) : c.toLower = s ↔ c = s := by
  obtain ⟨hupper, hlower⟩ := specials_bound s hs
  unfold Char.toLower
  split
  · rename_i h
    have hc : 65 ≤ c.toNat ∧ c.toNat ≤ 90 := by
      simpa [UInt32.le_iff_toNat_le] using h
    constructor
    · intro heq
      have hval := congrArg (Char.toNat) heq
      rw [← Char.toNat_val] at hval
      simp only [UInt32.toNat_add, Char.toNat_val] at hval
      have : ('a'.val - 'A'.val).toNat = 32 := by decide
      omega
    · rintro rfl
      exact absurd hc hupper
  · exact Iff.rfl

/-- The macros for bytes, in the C locale. -/
def Macros.posix (table : List (List Char × Char)) : Macros where
  lower := Char.toLower
  collsym s := (Glob.collsym table s).getD (Char.ofNat 255)
  collequiv c equiv := c = equiv
  isCclass c name := cclassTest c (String.ofList name)
  rangecmp c1 c2 _ := c1.toNat - c2.toNat
  lower_special := toLower_special

variable (M : Macros) (flags : Flags)

/-- `FOLD` -/
def fold (c : Char) : Char := if flags.casefold then M.lower c else c

/-- `SLASH_PATHNAME` -/
def slashPathname (c : Char) : Bool := c = '/' && flags.pathname

/-- The loop of `parse_subbracket`. -/
def closing (type : Char) : List Char → Option (List Char)
  | [] => none
  | c :: p =>
    if slashPathname flags c || (type ≠ '.' && c = ']') then none
    else if c = type ∧ p.head? = some ']' then some (c :: p)
    else closing type p

/-- `p` starts at the type of the symbol, the result at its terminating character. -/
def parseSubbracket : List Char → Option (List Char)
  | [] => none
  | type :: p => closing flags type p

/-- The text of a symbol between its type and the terminating character. -/
def symbolText (p close : List Char) : List Char := (p.take (p.length - close.length)).tail

/-- The test for a symbol of the type `type`, with `c` in front of `p`. -/
def symbol (type c : Char) (p : List Char) : Option (List Char) :=
  if c = '[' ∧ p.head? = some type then parseSubbracket flags p else none

/-- `udequote_pathname` and `wcdequote_pathname` -/
def dequotePathname : List Char → List Char
  | [] => []
  | '\\' :: [] => []
  | '\\' :: c :: p => c :: dequotePathname p
  | c :: p => c :: dequotePathname p

/-- What one turn of the main loop of `brackmatch` reads. -/
inductive Item where
  /-- `[=c=]` -/
  | equiv (pc : Char)
  /-- `[:class:]` -/
  | cclass (name : List Char)
  | char (cstart : Char)
  | range (cstart cend : Char) (forcecoll : Bool)
deriving DecidableEq, Repr

/-- The first character of a range or of an item of one character, with `forcecoll` and the text
behind it; nothing where the bracket is not terminated. -/
def readStart (c : Char) (p : List Char) : Option (Char × Bool × List Char) :=
  match symbol flags '.' c p with
  | some close => some (M.collsym (symbolText p close), true, close.drop 2)
  | none =>
    if !flags.noescape ∧ c = '\\' then
      match p with
      | [] => none
      | d :: p => if slashPathname flags d then none else some (d, false, p)
    else if slashPathname flags c then none
    else some (c, false, p)

/-- The last character of a range, behind its `-`. -/
def readEnd (forcecoll : Bool) : List Char → Option (Char × Bool × List Char)
  | [] => none
  | c :: p =>
    match (if !flags.noescape ∧ c = '\\' then p else c :: p) with
    | [] => none
    | cend :: p =>
      if slashPathname flags cend then none
      else
        match symbol flags '.' cend p with
        | some close => some (M.collsym (symbolText p close), true, close.drop 2)
        | none => some (cend, forcecoll, p)

/-- What the turn reads behind the first character `cstart`: a range, or the character alone. -/
def readRange (cstart : Char) (forcecoll : Bool) : List Char → Option (Item × List Char)
  | [] => none
  | c :: p =>
    if slashPathname flags (fold M flags c) then none
    else if fold M flags c = '-' ∧ p.head? ≠ some ']' then
      match readEnd M flags forcecoll p with
      | none => none
      | some (cend, forcecoll, p) =>
        some (.range (fold M flags cstart) (fold M flags cend) forcecoll, p)
    else some (.char (fold M flags cstart), c :: p)

/-- One turn of the main loop up to its tests, with the text behind the item. -/
def readItem (c : Char) (p : List Char) : Option (Item × List Char) :=
  match symbol flags '=' c p with
  | some close => some (.equiv (fold M flags (M.collsym (symbolText p close))), close.drop 2)
  | none =>
    match symbol flags ':' c p with
    | some close => some (.cclass (dequotePathname (symbolText p close)), close.drop 2)
    | none =>
      match readStart M flags c p with
      | none => none
      | some (cstart, forcecoll, p) => readRange M flags cstart forcecoll p

/-- The tests of the main loop on the character `origTest`. -/
def Item.matches (origTest : Char) : Item → Bool
  | equiv pc => M.collequiv (fold M flags origTest) pc
  | cclass name => M.isCclass origTest name
  | char cstart => fold M flags origTest = cstart
  | range cstart cend forcecoll =>
    M.rangecmp cstart cend forcecoll ≤ 0 ∧
      0 ≤ M.rangecmp (fold M flags origTest) cstart forcecoll ∧
      M.rangecmp (fold M flags origTest) cend forcecoll ≤ 0

/-- The character `d` behind an item that did not match, as the next turn has it: it is folded,
except behind a range in order. -/
def Item.next (d : Char) : Item → Char
  | range cstart cend forcecoll =>
    if 0 < M.rangecmp cstart cend forcecoll then fold M flags d else d
  | _ => fold M flags d

/-- What the loops of `brackmatch` find. -/
inductive Outcome where
  /-- There is no end: the left bracket is an ordinary character. -/
  | unterminated
  /-- The end, with the text behind it, and whether an item has matched. -/
  | ended (matched : Bool) (p : List Char)
deriving DecidableEq, Repr

def Outcome.rest : Outcome → Option (List Char)
  | unterminated => none
  | ended _ p => some p

variable {M flags}

theorem closing_length {type : Char} {p close : List Char} (h : closing flags type p = some close) :
    close.length ≤ p.length := by
  induction p with
  | nil => simp [closing] at h
  | cons c p ih =>
    simp only [closing] at h
    split at h
    · cases h
    · split at h
      · cases h
        exact le_rfl
      · exact (ih h).trans (by simp)

theorem parseSubbracket_length {p close : List Char} (h : parseSubbracket flags p = some close) :
    close.length ≤ p.length := by
  cases p with
  | nil => simp [parseSubbracket] at h
  | cons d p => exact (closing_length h).trans (by simp)

theorem symbol_length {type c : Char} {p close : List Char}
    (h : symbol flags type c p = some close) : close.length ≤ p.length := by
  unfold symbol at h
  split at h
  · exact parseSubbracket_length h
  · cases h

theorem readStart_length {c d : Char} {p p' : List Char} {forcecoll : Bool}
    (h : readStart M flags c p = some (d, forcecoll, p')) : p'.length ≤ p.length := by
  unfold readStart at h
  split at h
  · rename_i close hclose
    have := symbol_length hclose
    cases h
    simp only [List.length_drop]
    omega
  · split at h
    · split at h
      · cases h
      · split at h
        · cases h
        · cases h
          simp
    · split at h
      · cases h
      · cases h
        exact le_rfl

theorem readEnd_length {force forcecoll : Bool} {c : Char} {p p' : List Char}
    (h : readEnd M flags force p = some (c, forcecoll, p')) : p'.length ≤ p.length := by
  cases p with
  | nil => cases h
  | cons d p =>
    simp only [readEnd] at h
    split at h
    · cases h
    · rename_i cend rest hrest
      have hle : rest.length ≤ p.length := by
        split at hrest
        · simp [hrest]
        · cases hrest
          exact le_rfl
      split at h
      · cases h
      · split at h
        · rename_i close hclose
          have := symbol_length hclose
          cases h
          simp only [List.length_drop, List.length_cons]
          omega
        · cases h
          exact hle.trans (by simp)

theorem readRange_length {cstart : Char} {forcecoll : Bool} {p p' : List Char} {item : Item}
    (h : readRange M flags cstart forcecoll p = some (item, p')) : p'.length ≤ p.length := by
  cases p with
  | nil => cases h
  | cons c p =>
    simp only [readRange] at h
    split at h
    · cases h
    · split at h
      · split at h
        · cases h
        · rename_i hend
          cases h
          exact (readEnd_length hend).trans (by simp)
      · cases h
        exact le_rfl

theorem readItem_length {c : Char} {p p' : List Char} {item : Item}
    (h : readItem M flags c p = some (item, p')) : p'.length ≤ p.length := by
  unfold readItem at h
  split at h
  · rename_i close hclose
    have := symbol_length hclose
    cases h
    simp only [List.length_drop]
    omega
  · split at h
    · rename_i close hclose
      have := symbol_length hclose
      cases h
      simp only [List.length_drop]
      omega
    · split at h
      · cases h
      · rename_i hstart
        exact (readRange_length h).trans (readStart_length hstart)

variable (M flags)

/-- The loop behind the label `matched`, from the character that `*--p` reads. -/
def skipRest : List Char → Option (List Char)
  | [] => none
  | c :: p =>
    if slashPathname flags c then none
    else if c = '[' ∧ (p.head? = some '=' ∨ p.head? = some ':' ∨ p.head? = some '.') then
      match _h : parseSubbracket flags p with
      | some close => skipRest (close.drop 2)
      | none => skipRest p
    else if c = ']' then some p
    else if !flags.noescape ∧ c = '\\' then
      match p with
      | [] => none
      | d :: p => if slashPathname flags d then none else skipRest p
    else skipRest p
termination_by p => p.length
decreasing_by
  · have := parseSubbracket_length _h
    simp only [List.length_drop, List.length_cons]
    omega
  all_goals
    simp only [List.length_cons]
    omega

/-- The main loop, with `c` read in front of `p`. -/
def mainLoop (test : Char) (c : Char) (p : List Char) : Outcome :=
  match _h : readItem M flags c p with
  | none => .unterminated
  | some (item, rest) =>
    if item.matches M flags test then
      match skipRest flags rest with
      | none => .unterminated
      | some p => .ended true p
    else
      match rest with
      | [] => .unterminated
      | d :: rest =>
        if slashPathname flags d then .unterminated
        else if d = ']' then .ended false rest
        else mainLoop test (item.next M flags d) rest
termination_by p.length
decreasing_by
  have := readItem_length _h
  simp only [List.length_cons] at this
  omega

/-- The complement sign of a bracket expression. -/
def complemented (p : List Char) : Bool := p.head? = some '!' || p.head? = some '^'

/-- The two loops of `brackmatch` on the text `p` behind the left bracket. -/
def bracketEnd (test : Char) (p : List Char) : Outcome :=
  match (if complemented p then p.tail else p) with
  | [] => .unterminated
  | c :: p => mainLoop M flags test c p

/-- `brackmatch`: the pattern behind the bracket expression, nothing for the null pointer. -/
def brackmatch (p : List Char) (test : Char) : Option (List Char) :=
  match bracketEnd M flags test p with
  | .unterminated => if fold M flags test = '[' then some p else none
  | .ended matched rest => if matched = complemented p then none else some rest

/-- The text `p` behind the `-` of a range does not start with a left bracket that the two loops
read in different ways: in front of an equivalence class or a character class, or quoted in front
of what could be a collating symbol. -/
def soundEnd : List Char → Bool
  | [] => true
  | c :: p =>
    if !flags.noescape ∧ c = '\\' then
      match p with
      | [] => true
      | cend :: p => (symbol flags '.' cend p).isNone
    else (symbol flags '=' c p).isNone && (symbol flags ':' c p).isNone

/-- The text behind the first character of an item, likewise. -/
def soundRange : List Char → Bool
  | [] => true
  | c :: p => if c = '-' ∧ p.head? ≠ some ']' then soundEnd flags p else true

/-- The item `c`, `p`, likewise. -/
def soundItem (c : Char) (p : List Char) : Bool :=
  if (symbol flags '=' c p).isSome || (symbol flags ':' c p).isSome then true
  else
    match readStart M flags c p with
    | none => true
    | some (_, _, p) => soundRange flags p

/-- All items of the bracket expression from `c`, `p` on, likewise. -/
def soundItems (c : Char) (p : List Char) : Bool :=
  soundItem M flags c p &&
    match _h : readItem M flags c p with
    | none => true
    | some (_, []) => true
    | some (item, d :: rest) =>
      if slashPathname flags d || d = ']' then true else soundItems (item.next M flags d) rest
termination_by p.length
decreasing_by
  have := readItem_length _h
  simp only [List.length_cons] at this
  omega

/-- No range of the bracket expression with the text `p` ends in a left bracket that the two
loops read in different ways. -/
def soundBracket (p : List Char) : Bool :=
  match (if complemented p then p.tail else p) with
  | [] => true
  | c :: p => soundItems M flags c p

/-- The text behind the bracket expression, as it is found once the first item has matched. -/
def behindBracket (p : List Char) : Option (List Char) :=
  match (if complemented p then p.tail else p) with
  | [] => none
  | c :: p => (readItem M flags c p).bind fun r => skipRest flags r.2

section SkipRest

variable {M flags}

/-- The specials are told apart in the same way. -/
def Alike (c d : Char) : Prop := ∀ s ∈ specials, c = s ↔ d = s

theorem fold_alike (c : Char) : Alike (fold M flags c) c := by
  intro s hs
  unfold fold
  split
  · exact M.lower_special s hs c
  · exact Iff.rfl

theorem next_alike (item : Item) (d : Char) : Alike (item.next M flags d) d := by
  cases item with
  | range cstart cend forcecoll =>
    simp only [Item.next]
    split
    · exact fold_alike d
    · exact fun _ _ => Iff.rfl
  | _ => exact fold_alike d

attribute [local simp] skipRest in
/-- One turn of the loop behind `matched`, where slashes are ordinary characters. -/
theorem skipRest_cons (hflags : flags.pathname = false) {c : Char} (p : List Char)
    (hc : c ≠ ']') :
    skipRest flags (c :: p) =
      if c = '[' ∧ (p.head? = some '=' ∨ p.head? = some ':' ∨ p.head? = some '.') then
        skipRest flags (((parseSubbracket flags p).map (List.drop 2)).getD p)
      else if !flags.noescape ∧ c = '\\' then skipRest flags p.tail
      else skipRest flags p := by
  conv_lhs => unfold skipRest
  simp only [slashPathname, hflags, Bool.and_false, Bool.false_eq_true, if_false, hc]
  split
  · cases parseSubbracket flags p with
    | none => rfl
    | some close => rfl
  · split
    · cases p with
      | nil => simp [skipRest]
      | cons d p => rfl
    · rfl

theorem symbol_eq_some {type c : Char} {p close : List Char} :
    symbol flags type c p = some close ↔
      c = '[' ∧ p.head? = some type ∧ parseSubbracket flags p = some close := by
  unfold symbol
  split
  · rename_i h
    simp [h]
  · rename_i h
    simp only [reduceCtorEq, false_iff]
    exact fun h' => h ⟨h'.1, h'.2.1⟩

variable (hflags : flags.pathname = false) {c : Char} {p : List Char}
include hflags

theorem skipRest_symbol {type : Char} {close : List Char} (h : symbol flags type c p = some close)
    (htype : type = '=' ∨ type = ':' ∨ type = '.') :
    skipRest flags (c :: p) = skipRest flags (close.drop 2) := by
  obtain ⟨rfl, hhead, hclose⟩ := symbol_eq_some.mp h
  rw [skipRest_cons hflags p (by decide), if_pos, hclose]
  · rfl
  · refine ⟨rfl, ?_⟩
    simpa [hhead] using htype

theorem skipRest_escape (hescape : flags.noescape = false) :
    skipRest flags ('\\' :: p) = skipRest flags p.tail := by
  rw [skipRest_cons hflags p (by decide), if_neg (by simp), if_pos (by simp [hescape])]

theorem skipRest_plain (hc : c ≠ ']') (hescape : ¬ (!flags.noescape ∧ c = '\\'))
    (hequiv : symbol flags '=' c p = none) (hclass : symbol flags ':' c p = none)
    (hcoll : symbol flags '.' c p = none) :
    skipRest flags (c :: p) = skipRest flags p := by
  rw [skipRest_cons hflags p hc, if_neg hescape]
  split
  · rename_i h
    obtain ⟨rfl, hhead⟩ := h
    have hnone : parseSubbracket flags p = none := by
      obtain h | h | h := hhead
      · simpa [symbol, h] using hequiv
      · simpa [symbol, h] using hclass
      · simpa [symbol, h] using hcoll
    rw [hnone]
    rfl
  · rfl

theorem skipRest_end (force : Bool) (hp : p.head? ≠ some ']') (hsound : soundEnd flags p) :
    skipRest flags p = (readEnd M flags force p).bind fun r => skipRest flags r.2.2 := by
  have hslash : ∀ d, slashPathname flags d = false := by simp [slashPathname, hflags]
  cases p with
  | nil => simp [skipRest, readEnd]
  | cons c p =>
    have hc : c ≠ ']' := by simpa using hp
    by_cases hescape : !flags.noescape ∧ c = '\\'
    · simp only [soundEnd, if_pos hescape] at hsound
      obtain ⟨hnoescape, rfl⟩ := hescape
      rw [skipRest_escape hflags (by simpa using hnoescape)]
      cases p with
      | nil => simp [skipRest, readEnd, hnoescape]
      | cons cend p =>
        simp only [Option.isNone_iff_eq_none] at hsound
        simp [readEnd, hnoescape, hslash, hsound]
    · simp only [soundEnd, if_neg hescape, Bool.and_eq_true, Option.isNone_iff_eq_none] at hsound
      simp only [readEnd, if_neg hescape, hslash, Bool.false_eq_true, if_false]
      cases hcoll : symbol flags '.' c p with
      | none =>
        rw [skipRest_plain hflags hc hescape hsound.1 hsound.2 hcoll]
        rfl
      | some close =>
        rw [skipRest_symbol hflags hcoll (by simp)]
        rfl

theorem skipRest_range (cstart : Char) (force : Bool) (hsound : soundRange flags p) :
    skipRest flags p = (readRange M flags cstart force p).bind fun r => skipRest flags r.2 := by
  have hslash : ∀ d, slashPathname flags d = false := by simp [slashPathname, hflags]
  cases p with
  | nil => simp [skipRest, readRange]
  | cons c p =>
    simp only [readRange, hslash, Bool.false_eq_true, if_false, fold_alike c '-' (by decide)]
    split
    · rename_i hrange
      simp only [soundRange, if_pos hrange] at hsound
      obtain ⟨rfl, hp⟩ := hrange
      rw [skipRest_plain hflags (by decide) (by simp) (by simp [symbol]) (by simp [symbol])
        (by simp [symbol]), skipRest_end (M := M) hflags force hp hsound]
      cases readEnd M flags force p with
      | none => rfl
      | some r => rfl
    · rfl

theorem skipRest_start (hc : c ≠ ']') (hequiv : symbol flags '=' c p = none)
    (hclass : symbol flags ':' c p = none) :
    skipRest flags (c :: p) = (readStart M flags c p).bind fun r => skipRest flags r.2.2 := by
  have hslash : ∀ d, slashPathname flags d = false := by simp [slashPathname, hflags]
  unfold readStart
  cases hcoll : symbol flags '.' c p with
  | some close => exact skipRest_symbol hflags hcoll (by simp)
  | none =>
    simp only [hslash, Bool.false_eq_true, if_false]
    split
    · rename_i hescape
      obtain ⟨hnoescape, rfl⟩ := hescape
      rw [skipRest_escape hflags (by simpa using hnoescape)]
      cases p with
      | nil => simp [skipRest]
      | cons d p => rfl
    · rename_i hescape
      exact skipRest_plain hflags hc hescape hequiv hclass hcoll

/-- Between two items the loop behind `matched` goes on behind the first of them. -/
theorem skipRest_item (hc : c ≠ ']') (hsound : soundItem M flags c p) :
    skipRest flags (c :: p) = (readItem M flags c p).bind fun r => skipRest flags r.2 := by
  unfold readItem
  cases hequiv : symbol flags '=' c p with
  | some close => exact skipRest_symbol hflags hequiv (by simp)
  | none =>
    cases hclass : symbol flags ':' c p with
    | some close => exact skipRest_symbol hflags hclass (by simp)
    | none =>
      rw [skipRest_start (M := M) hflags hc hequiv hclass]
      simp only [soundItem, hequiv, hclass, Option.isSome_none, Bool.or_self, Bool.false_eq_true,
        if_false] at hsound
      cases hstart : readStart M flags c p with
      | none => rfl
      | some r =>
        rw [hstart] at hsound
        exact skipRest_range hflags r.1 r.2.1 hsound

theorem skipRest_alike {d : Char} (h : Alike c d) (hc : c ≠ ']') :
    skipRest flags (c :: p) = skipRest flags (d :: p) := by
  have hd : d ≠ ']' := by rwa [Ne, ← h ']' (by decide)]
  rw [skipRest_cons hflags p hc, skipRest_cons hflags p hd]
  simp only [h '[' (by decide), h '\\' (by decide)]

omit hflags in
@[simp] theorem skipRest_close : skipRest flags (']' :: p) = some p := by
  unfold skipRest
  simp [slashPathname]

omit hflags in
theorem skipRest_length {q : List Char} (h : skipRest flags p = some q) :
    q.length ≤ p.length := by
  fun_induction skipRest flags p with
  | case1 => cases h
  | case2 => cases h
  | case3 c p hslash hsymbol close hclose ih =>
    have hlength := parseSubbracket_length hclose
    have hq := ih h
    simp only [List.length_drop] at hq
    simp only [List.length_cons]
    omega
  | case4 c p hslash hsymbol hclose ih => exact (ih h).trans (by simp)
  | case5 p hslash hsymbol =>
    cases h
    simp
  | case6 => cases h
  | case7 => cases h
  | case8 c _ _ _ _ d p _ ih => exact (ih h).trans (by simp; omega)
  | case9 c p _ _ _ _ ih => exact (ih h).trans (by simp)

omit hflags in
theorem behindBracket_length {q : List Char} (h : behindBracket M flags p = some q) :
    q.length ≤ p.length := by
  unfold behindBracket at h
  have htext : (if complemented p then p.tail else p).length ≤ p.length := by
    split
    · simp
    · exact le_rfl
  split at h
  · cases h
  · rename_i c p' heq
    rw [heq] at htext
    obtain ⟨r, hitem, hskip⟩ := Option.bind_eq_some_iff.mp h
    have hr := readItem_length hitem
    have hq := skipRest_length hskip
    simp only [List.length_cons] at htext
    omega

omit hflags in
theorem mainLoop_eq {test : Char} {item : Item} {rest : List Char}
    (hitem : readItem M flags c p = some (item, rest)) :
    mainLoop M flags test c p =
      if item.matches M flags test then
        ((skipRest flags rest).map (Outcome.ended true)).getD .unterminated
      else
        match rest with
        | [] => .unterminated
        | d :: rest =>
          if slashPathname flags d then .unterminated
          else if d = ']' then .ended false rest
          else mainLoop M flags test (item.next M flags d) rest := by
  conv_lhs => unfold mainLoop
  split
  · rename_i hnone
    cases hnone.symm.trans hitem
  · rename_i hsome
    cases hsome.symm.trans hitem
    congr 1
    cases skipRest flags rest with
    | none => rfl
    | some q => rfl

omit hflags in
theorem soundItems_item (h : soundItems M flags c p) : soundItem M flags c p := by
  unfold soundItems at h
  exact (Bool.and_eq_true_iff.mp h).1

omit hflags in
theorem soundItems_next {item : Item} {d : Char} {rest : List Char}
    (hitem : readItem M flags c p = some (item, d :: rest)) (h : soundItems M flags c p)
    (hslash : slashPathname flags d = false) (hd : d ≠ ']') :
    soundItems M flags (item.next M flags d) rest := by
  unfold soundItems at h
  have hrest := (Bool.and_eq_true_iff.mp h).2
  split at hrest
  · rename_i hnone
    cases hnone.symm.trans hitem
  · rename_i hempty
    cases hempty.symm.trans hitem
  · rename_i hcons
    cases hcons.symm.trans hitem
    simpa [hslash, hd] using hrest

/-- The main loop ends, from each item on, where the loop behind `matched` does behind this
item. -/
theorem mainLoop_rest (test : Char) (hsound : soundItems M flags c p) :
    (mainLoop M flags test c p).rest =
      (readItem M flags c p).bind fun r => skipRest flags r.2 := by
  have hslash : ∀ d, slashPathname flags d = false := by simp [slashPathname, hflags]
  fun_induction mainLoop M flags test c p with
  | case1 c p hitem =>
    rw [hitem]
    rfl
  | case2 c p item rest hitem hmatches hskip =>
    rw [hitem]
    exact hskip.symm
  | case3 c p item rest hitem hmatches q hskip =>
    rw [hitem]
    exact hskip.symm
  | case4 c p item hmatches hitem =>
    rw [hitem]
    simp [Outcome.rest, skipRest]
  | case5 c p item hmatches d rest hitem hd =>
    rw [hslash] at hd
    cases hd
  | case6 c p item hmatches rest hitem _ =>
    rw [hitem]
    exact skipRest_close.symm
  | case7 c p item hmatches d rest hitem _ hd _ ih =>
    have hnext := soundItems_next hitem hsound (hslash d) hd
    have halike : Alike (item.next M flags d) d := next_alike item d
    have hne : item.next M flags d ≠ ']' := by rwa [Ne, halike ']' (by decide)]
    rw [ih hnext, ← skipRest_item (M := M) hflags hne (soundItems_item hnext),
      skipRest_alike hflags halike hne, hitem]
    rfl

theorem bracketEnd_rest (test : Char) (hsound : soundBracket M flags p) :
    (bracketEnd M flags test p).rest = behindBracket M flags p := by
  unfold bracketEnd behindBracket
  unfold soundBracket at hsound
  cases htext : (if complemented p then p.tail else p) with
  | nil => rfl
  | cons c q =>
    rw [htext] at hsound
    exact mainLoop_rest hflags test hsound

theorem brackmatch_rest {test : Char} {q : List Char} (hsound : soundBracket M flags p)
    (h : brackmatch M flags p test = some q) : q = (behindBracket M flags p).getD p := by
  have hrest := bracketEnd_rest hflags test hsound
  unfold brackmatch at h
  cases hend : bracketEnd M flags test p with
  | unterminated =>
    rw [hend] at h hrest
    rw [← hrest]
    simp only [Option.ite_none_right_eq_some, Option.some.injEq] at h
    exact h.2.symm
  | ended matched r =>
    rw [hend] at h hrest
    rw [← hrest]
    simp only [Option.ite_none_left_eq_some, Option.some.injEq] at h
    exact h.2.symm

end SkipRest

/-- The text behind a bracket expression does not depend on the character that is tested. -/
theorem end_independent (hflags : flags.pathname = false) (p : List Char)
    (hsound : soundBracket M flags p) (a b : Char) (ma mb : Bool) (ra rb : List Char)
    (ha : bracketEnd M flags a p = .ended ma ra) (hb : bracketEnd M flags b p = .ended mb rb) :
    ra = rb := by
  have h := (bracketEnd_rest hflags a hsound).trans (bracketEnd_rest hflags b hsound).symm
  rw [ha, hb] at h
  exact Option.some.inj h

theorem end_independent_range :
    bracketEnd (Macros.posix []) {} 'b' ['a', '-', 'm', ']', 'x'] = .ended true ['x'] ∧
      bracketEnd (Macros.posix []) {} 'z' ['a', '-', 'm', ']', 'x'] = .ended false ['x'] ∧
      ['x'] = ['x'] := by
  have hb : bracketEnd (Macros.posix []) {} 'b' ['a', '-', 'm', ']', 'x'] = .ended true ['x'] := by
    change mainLoop _ _ _ _ _ = _
    rw [mainLoop_eq rfl, if_pos (by decide), skipRest_close]
    rfl
  have hz : bracketEnd (Macros.posix []) {} 'z' ['a', '-', 'm', ']', 'x'] = .ended false ['x'] := by
    change mainLoop _ _ _ _ _ = _
    rw [mainLoop_eq rfl, if_neg (by decide)]
    rfl
  have hsound : soundBracket (Macros.posix []) {} ['a', '-', 'm', ']', 'x'] := by
    change soundItems _ _ _ _ = true
    unfold soundItems
    decide
  exact ⟨hb, hz, end_independent (Macros.posix []) {} rfl _ hsound _ _ _ _ _ _ hb hz⟩

/-- The range `a-[` is read up to the `[` by the main loop, and up to the end of `[=x=]` by the
loop behind `matched`. -/
theorem end_depends :
    ¬ ∀ (M : Macros) (flags : Flags) (p : List Char) (a b : Char) (ma mb : Bool)
      (ra rb : List Char), flags.pathname = false → bracketEnd M flags a p = .ended ma ra →
        bracketEnd M flags b p = .ended mb rb → ra = rb := by
  intro h
  have hskip : skipRest {} ['a', '-', '[', '=', 'x', '=', ']', ']'] = some [] := by
    have hclass : symbol {} '=' '[' ['=', 'x', '=', ']', ']'] = some ['=', ']', ']'] := by decide
    rw [skipRest_plain rfl (by decide) (by decide) (by decide) (by decide) (by decide),
      skipRest_plain rfl (by decide) (by decide) (by decide) (by decide) (by decide),
      skipRest_symbol rfl hclass (by decide)]
    exact skipRest_close
  have hz : bracketEnd (Macros.posix []) {} 'z' ['z', 'a', '-', '[', '=', 'x', '=', ']', ']'] =
      .ended true [] := by
    change mainLoop _ _ _ _ _ = _
    rw [mainLoop_eq rfl, if_pos (by decide), hskip]
    rfl
  have hq : bracketEnd (Macros.posix []) {} 'q' ['z', 'a', '-', '[', '=', 'x', '=', ']', ']'] =
      .ended false [']'] := by
    change mainLoop _ _ _ _ _ = _
    rw [mainLoop_eq rfl, if_neg (by decide)]
    change mainLoop _ _ _ 'a' _ = _
    rw [mainLoop_eq rfl, if_neg (by decide)]
    change mainLoop _ _ _ '=' _ = _
    rw [mainLoop_eq rfl, if_neg (by decide)]
    change mainLoop _ _ _ 'x' _ = _
    rw [mainLoop_eq rfl, if_neg (by decide)]
    change mainLoop _ _ _ '=' _ = _
    rw [mainLoop_eq rfl, if_neg (by decide)]
    rfl
  have := h _ _ _ _ _ _ _ _ _ rfl hz hq
  cases this

end Basht.Glob
