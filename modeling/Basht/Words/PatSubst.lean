import Mathlib.Tactic.Ring
import Basht.Library.Buffer
import Basht.Library.Replacement
import Basht.Words.Quote

/-!
# Pattern substitution (`pat_subst` of `subst.c`)

`pat_subst` replaces the first match of a pattern, or each of them, in a buffer that it makes
larger as it goes. The offset into the buffer is an `int`, and so is the length of the match that
`&` in the replacement stands for; the other sizes are `size_t`s.
-/

namespace Basht.PatSubst

open Replacement

inductive MatchType where
  | matchAny
  | matchBeg
  | matchEnd
  deriving DecidableEq

/-- The flags of `pat_subst`: `MATCH_TYPEMASK`, `MATCH_GLOBREP` and `MATCH_EXPREP`. -/
structure Flags where
  mtype : MatchType
  globrep : Bool
  exprep : Bool

inductive Fault where
  | store
  | read
  | malloc
  | fuel
  deriving DecidableEq

/-- Conversion to `int`. -/
def int (x : Int) : Int := (x + 2 ^ 31) % 2 ^ 32 - 2 ^ 31

def AMP : Nat := 38

def BACKSLASH : Nat := 92

/-- `strcreplace (string, c, text, 2)`. -/
def strcreplace (c : Nat) (text : List Nat) : List Nat → List Nat
  | [] => []
  | [b] => if b = c then text else [b]
  | b :: d :: p =>
    if b = c then text ++ strcreplace c text (d :: p)
    else if b = BACKSLASH ∧ (d = c ∨ d = BACKSLASH) then d :: strcreplace c text p
    else b :: strcreplace c text (d :: p)

/-! ## The buffer -/

/-- `while (need >= csize) csize += 64`. -/
def grow (need csize : Nat) : Nat := if csize ≤ need then grow need (csize + 64) else csize
termination_by need + 1 - csize

theorem le_grow (need csize : Nat) : csize ≤ grow need csize := by
  fun_induction grow need csize with
  | case1 csize hle ih => exact Nat.le_trans (Nat.le_add_right csize 64) ih
  | case2 csize hlt => exact Nat.le_refl csize

/-- `ret`, whose bytes hold nothing at first, with the offset behind what is in it. -/
structure Out where
  rsize : Nat
  ret : Buffer (Option Nat) rsize
  rptr : Int

namespace Out

/-- `ret = (char *)xmalloc (rsize = 64)`, and `ret[0] = '\0'`. -/
def start : Out := ⟨64, (Buffer.fill 64 none).overwrite 0 [some 0] (by decide), 0⟩

/-- `RESIZE_MALLOCED_BUFFER (ret, rptr, room, rsize, 64)`; the sum is a `size_t`. -/
def resize (o : Out) (room : Nat) : Out :=
  let need := ((o.rptr + room) % 2 ^ 64).toNat
  ⟨grow need o.rsize, o.ret.extend none (le_grow need o.rsize), o.rptr⟩

/-- The bytes `xs` at `ret + rptr`, and `rptr` behind them. -/
def put (o : Out) (xs : List Nat) : Except Fault Out :=
  if xs = [] then .ok o
  else if o.rptr < 0 then .error .store
  else
    match o.ret.write o.rptr.toNat (xs.map some) with
    | .error _ => .error .store
    | .ok ret => .ok ⟨o.rsize, ret, int (o.rptr + xs.length)⟩

end Out

section

variable (K : Coding) (mbCurMax : Nat) (pat : List Nat) (find : List Nat → Option (Nat × Nat))
  (rep : Option (List Nat)) (mflags : Flags)

/-- `match_pattern`; `find` is what the functions for strings of bytes and of wide characters find
for this pattern. A null pattern, and an empty one, is the empty list. -/
def matchPattern (string : List Nat) : Option (Nat × Nat) :=
  if pat = [] then none else find string

/-- `rstr`. The match is copied if `mlen + 1` bytes can be had. -/
def replacement (matched : List Nat) : Except Fault (List Nat) :=
  match rep with
  | none => .ok []
  | some rep =>
    if mflags.exprep then
      let mlen := int matched.length
      if 0 ≤ mlen ∧ mlen < 2 ^ 31 - 1 then .ok (strcreplace AMP (matched.take mlen.toNat) rep)
      else .error .malloc
    else .ok rep

/-- The replacement text at `ret + rptr`; `replen` is the length of the text as it is given. -/
def putReplacement (rstr : List Nat) (o : Out) : Except Fault Out :=
  if rep.getD [] = [] then .ok o else o.put rstr

/-- The text before a match, and the replacement of the match. -/
def putMatch (before matched : List Nat) (o : Out) : Except Fault Out := do
  let rstr ← replacement rep mflags matched
  let o ← (o.resize (before.length + rstr.length)).put before
  putReplacement rep rstr o

/-- The loop of `pat_subst`: the rest of the string, and the buffer. -/
def loop : Nat → List Nat → Out → Except Fault (List Nat × Out)
  | 0, _, _ => .error .fuel
  | fuel + 1, str, o =>
    if str = [] then .ok (str, o)
    else
      match matchPattern pat find str with
      | none => .ok (str, o)
      | some (s, e) => do
        let o ← putMatch rep mflags (str.take s) ((str.take e).drop s) o
        let str := str.drop e
        if mflags.globrep = false ∨ mflags.mtype ≠ .matchAny then .ok (str, o)
        else if s ≠ e then loop fuel str o
        else if str = [] then .error .read
        else do
          let o ← (o.resize mbCurMax).put (str.take (K.step str))
          loop fuel (str.drop (K.step str)) o

/-- What replaces a match. -/
def expand (matched : List Nat) : List Nat :=
  match rep with
  | none => []
  | some rep => if mflags.exprep then strcreplace AMP matched rep else rep

/-- The matches that are replaced, and the text behind the last one. -/
def found (string : List Nat) : List (Round Nat) × List Nat :=
  rounds (matchPattern pat find) K.step (mflags.globrep && mflags.mtype = .matchAny) string.length
    string

/-- The text up to the end of the last match, with the matches replaced. -/
def written (string : List Nat) : List Nat :=
  (found K pat find mflags string).1.flatMap (Round.replaced (expand rep mflags))

/-- The number of times that a text stands in the result of `strcreplace`. -/
def expansions (c : Nat) : List Nat → Nat
  | [] => 0
  | [b] => if b = c then 1 else 0
  | b :: d :: p =>
    if b = c then 1 + expansions c (d :: p)
    else if b = BACKSLASH ∧ (d = c ∨ d = BACKSLASH) then expansions c p
    else expansions c (d :: p)

/-- The match is copied as a whole, or the part that is copied is not used. -/
def Fits (matched : List Nat) : Prop :=
  mflags.exprep = true → matched.length % 2 ^ 32 < 2 ^ 31 - 1 ∧
    (matched.length < 2 ^ 31 - 1 ∨ expansions AMP (rep.getD []) = 0)

end

/-! ## Conversions and strings -/

theorem int_eq {x : Int} (hlow : -2 ^ 31 ≤ x) (hhigh : x < 2 ^ 31) : int x = x := by
  unfold int
  omega

/-- The buffer holds `pre`, and has room for the end of the string. -/
structure Out.Holds (o : Out) (pre : List Nat) : Prop where
  rptr : o.rptr = pre.length
  lt : pre.length < o.rsize
  upTo : o.ret.upTo pre.length = pre.map some

namespace Out

variable {o o' : Out} {pre xs : List Nat}

theorem Holds.resize (h : o.Holds pre) (room : Nat) : (o.resize room).Holds pre where
  rptr := h.rptr
  lt := Nat.lt_of_lt_of_le h.lt (le_grow _ _)
  upTo := by
    rw [← h.upTo]
    exact o.ret.upTo_extend none (le_grow _ _) (Nat.le_of_lt h.lt)

/-- A store with room for it, whatever becomes of `rptr`. -/
theorem Holds.put_text (h : o.Holds pre) (xs : List Nat) (hroom : pre.length + xs.length ≤ o.rsize) :
    ∃ o', o.put xs = .ok o' ∧ o'.rsize = o.rsize ∧
      o'.ret.upTo (pre ++ xs).length = (pre ++ xs).map some ∧
      (pre.length + xs.length < 2 ^ 31 → o'.rptr = (pre ++ xs).length) := by
  have hptr := h.rptr
  unfold Out.put
  split
  next hxs =>
    rw [hxs, List.append_nil]
    exact ⟨o, rfl, rfl, h.upTo, fun _ => hptr⟩
  next hxs =>
    have hoff : o.rptr.toNat = pre.length := by omega
    have hfit : o.rptr.toNat + (xs.map some).length ≤ o.rsize := by
      rw [hoff, List.length_map]
      exact hroom
    rw [if_neg (by omega), o.ret.write_of_le hfit]
    refine ⟨_, rfl, rfl, ?_, fun hint => ?_⟩
    · have hlen : (pre ++ xs).length = o.rptr.toNat + (xs.map some).length := by
        rw [List.length_append, List.length_map, hoff]
      rw [hlen, List.map_append, ← h.upTo, ← hoff]
      exact o.ret.upTo_append hfit
    · dsimp only
      rw [int_eq (by omega) (by omega), hptr, List.length_append]
      rfl

theorem Holds.put (h : o.Holds pre) (xs : List Nat) (hroom : pre.length + xs.length < o.rsize)
    (hint : pre.length + xs.length < 2 ^ 31) :
    ∃ o', o.put xs = .ok o' ∧ o'.Holds (pre ++ xs) ∧ o'.rsize = o.rsize := by
  obtain ⟨o', hput, hsize, htext, hptr⟩ := h.put_text xs (Nat.le_of_lt hroom)
  refine ⟨o', hput, ⟨hptr hint, ?_, htext⟩, hsize⟩
  rw [hsize, List.length_append]
  exact hroom

end Out

/-! ## The replacement -/

section

variable {rep : Option (List Nat)} {mflags : Flags} {m r : List Nat}

end

/-! ## The loop -/

section

variable {K : Coding} {mbCurMax : Nat} {pat : List Nat} {find : List Nat → Option (Nat × Nat)}
  {rep : Option (List Nat)} {mflags : Flags} {o o' : Out} {pre str : List Nat}

/-- What the code relies on: matches are inside the text, and an empty match is at the head of a
text if more matches are searched for. -/
structure Finds (mflags : Flags) (find : List Nat → Option (Nat × Nat)) : Prop where
  bounds : ∀ s i j, find s = some (i, j) → i ≤ j ∧ j ≤ s.length
  empty : mflags.mtype = .matchAny → ∀ s i, find s = some (i, i) → i = 0

theorem Finds.matchPattern (pat : List Nat) (h : Finds mflags find) : Finds mflags (matchPattern pat find) := by
  have hfind : ∀ s r, PatSubst.matchPattern pat find s = some r → find s = some r := by
    intro s r hs
    unfold PatSubst.matchPattern at hs
    split at hs
    · cases hs
    · exact hs
  exact ⟨fun s i j hs => h.bounds s i j (hfind s _ hs),
    fun hany s i hs => h.empty hany s i (hfind s _ hs)⟩

/-- The length of what the rounds write. -/
abbrev size (rep : Option (List Nat)) (mflags : Flags) (rs : List (Round Nat)) : Nat :=
  (rs.flatMap (Round.replaced (expand rep mflags))).length

end

/-- `locale_mb_cur_max`. -/
def mbCurMax : Words.Locale → Nat
  | .c => 1
  | .utf8 => 6

end Basht.PatSubst
