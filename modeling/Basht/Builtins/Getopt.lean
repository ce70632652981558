import Mathlib.Data.List.Basic
import Basht.Library.Fallible

/-!
# `getopts` and its arguments

`getopt.c` and `getopts.def`. The scan position is kept from call to call as the index of a
word and an index in it, and `sh_getopt_restore_state` applies it to the vector of the next
call, whatever that is. Reads of the vector and of its words are checked: one that leaves them
is a `Fault`.
-/

namespace Basht.Builtins

/-- A word, without its NUL. -/
abbrev Word := List UInt8

/-- An argument vector. The ten cells of `dollar_vars` may all be in use, and then there is no
null pointer behind them. -/
structure Vec where
  words : List Word
  terminated : Bool

/-- A read outside of the vector, outside of a word, or of a word of an earlier vector. -/
inductive Fault where
  | element (k : Nat)
  | character (off : Nat)
  | stale
  | null
deriving DecidableEq, Repr

/-- `argc`. -/
def Vec.argc (v : Vec) : Nat := v.words.length

/-- `argv[k]`. -/
def Vec.read (v : Vec) (k : Nat) : Except Fault (Option Word) :=
  match v.words[k]? with
  | some w => .ok (some w)
  | none => if k = v.argc ∧ v.terminated then .ok none else .error (.element k)

/-- The character of a word at an index, up to the NUL. -/
def charAt (w : Word) (off : Nat) : Except Fault UInt8 :=
  if off ≤ w.length then .ok (w.getD off 0) else .error (.character off)

/-- The variables of `getopt.c`; `nextchar` says that the pointer is set. It then points to the
character `charindex` of the word `curopt` of the vector it was set for. -/
structure Getopt where
  optarg : Option Word
  optind : Int
  curopt : Nat
  nextchar : Bool
  charindex : Nat
  opterr : Bool
  optopt : UInt8
  badopt : Bool

/-- The pointer `nextchar` in a call. -/
inductive NextChar where
  | null
  | stale
  | inWord (w : Word) (off : Nat)

/-- What is printed, and what is done to variables. -/
inductive Out where
  | stderr (text : List UInt8)
  | usage
  | bind (name : Word) (value : Option Word)
  | unbind (name : Word)
deriving DecidableEq, Repr

/-- The text of `BADOPT`. -/
def badoptText (name : Word) (c : UInt8) : List UInt8 :=
  name ++ ": illegal option -- ".toList.map Char.toUInt8 ++ [c, '\n'.toUInt8]

/-- The text of `NEEDARG`. -/
def needargText (name : Word) (c : UInt8) : List UInt8 :=
  name ++ ": option requires an argument -- ".toList.map Char.toUInt8 ++ [c, '\n'.toUInt8]

/-! ## `sh_getopt` -/

/-- `EOF`. -/
def EOF : Int := -1

/-- A `char` as it is returned. -/
def charInt (c : UInt8) : Int := c.toInt8.toInt

/-- The character behind the first `c` of the option string is a colon. -/
def takesArgument (optstring : List UInt8) (c : UInt8) : Bool :=
  (optstring.dropWhile (· != c)).tail.head? == some ':'.toUInt8

/-- `sh_getopt_restore_state`: where `nextchar` points to after it. -/
def Getopt.restoreState (st : Getopt) (v : Vec) : Except Fault NextChar :=
  if st.nextchar then
    match v.read st.curopt with
    | .error e => .error e
    | .ok none => .ok .stale
    | .ok (some w) => .ok (.inWord w st.charindex)
  else .ok .null

/-- `temp[0] == '-' && temp[1] == '-' && temp[2] == '\0'`. -/
def isDashDash (temp : Word) : Except Fault Bool :=
  match charAt temp 0 with
  | .error e => .error e
  | .ok c₀ =>
    if c₀ ≠ '-'.toUInt8 then .ok false
    else
      match charAt temp 1 with
      | .error e => .error e
      | .ok c₁ =>
        if c₁ ≠ '-'.toUInt8 then .ok false
        else
          match charAt temp 2 with
          | .error e => .error e
          | .ok c₂ => .ok (c₂ == 0)

/-- `temp[0] != '-' || temp[1] == '\0'`. -/
def isOperand (temp : Word) : Except Fault Bool :=
  match charAt temp 0 with
  | .error e => .error e
  | .ok c₀ =>
    if c₀ ≠ '-'.toUInt8 then .ok true
    else
      match charAt temp 1 with
      | .error e => .error e
      | .ok c₁ => .ok (c₁ == 0)

/-- The next element of the vector, if it is one of options: the word and the index of its first
option. -/
def Getopt.advance (st : Getopt) (v : Vec) : Except Fault (Getopt × Option (Word × Nat)) :=
  if st.optind ≥ v.argc then .ok (st, none)
  else
    match v.read st.optind.toNat with
    | .error e => .error e
    | .ok none => .error .null
    | .ok (some temp) =>
      match isDashDash temp with
      | .error e => .error e
      | .ok true => .ok ({ st with optind := st.optind + 1 }, none)
      | .ok false =>
        match isOperand temp with
        | .error e => .error e
        | .ok true => .ok (st, none)
        | .ok false =>
          .ok ({ st with curopt := st.optind.toNat, charindex := 1 }, some (temp, 1))

/-- The argument of the option `c`, behind which `next` is the next character of its word. -/
def Getopt.argument (st : Getopt) (v : Vec) (optstring : List UInt8) (c : UInt8) (w : Word)
    (off : Nat) (next : UInt8) : Except Fault (Getopt × Int × List Out) :=
  if next ≠ 0 then
    .ok ({ st with optarg := some (w.drop off), optind := st.optind + 1, nextchar := false },
      charInt c, [])
  else if st.optind = v.argc then
    .ok ({ st with optopt := c, optarg := some [], nextchar := false },
      if optstring.head? = some ':'.toUInt8 then charInt ':'.toUInt8 else charInt '?'.toUInt8,
      if st.opterr then [.stderr (needargText (v.words.headD []) c)] else [])
  else
    match v.read st.optind.toNat with
    | .error e => .error e
    | .ok arg =>
      .ok ({ st with optarg := arg, optind := st.optind + 1, nextchar := false }, charInt c, [])

/-- The option at the index `off` of the word `w`. -/
def Getopt.option (st : Getopt) (v : Vec) (optstring : List UInt8) (w : Word) (off : Nat) :
    Except Fault (Getopt × Int × List Out) :=
  match charAt w off with
  | .error e => .error e
  | .ok c =>
    match charAt w (off + 1) with
    | .error e => .error e
    | .ok next =>
      let bad := !optstring.contains c || c == ':'.toUInt8
      let st := { st with
        charindex := st.charindex + 1
        optopt := c
        optind := if next = 0 then st.optind + 1 else st.optind
        nextchar := next ≠ 0
        badopt := bad }
      if bad then
        .ok (st, charInt '?'.toUInt8,
          if st.opterr then [.stderr (badoptText (v.words.headD []) c)] else [])
      else if takesArgument optstring c then st.argument v optstring c w (off + 1) next
      else .ok (st, charInt c, [])

/-- `nextchar == 0 || *nextchar == '\0'`. -/
def NextChar.atEnd : NextChar → Except Fault Bool
  | .null => .ok true
  | .stale => .error .stale
  | .inWord w off =>
    match charAt w off with
    | .error e => .error e
    | .ok c => .ok (c == 0)

/-- The first option of the next element. -/
def Getopt.nextElement (st : Getopt) (v : Vec) (optstring : List UInt8) :
    Except Fault (Getopt × Int × List Out) :=
  match st.advance v with
  | .error e => .error e
  | .ok (st, none) => .ok (st, EOF, [])
  | .ok (st, some (w, off)) => st.option v optstring w off

/-- `sh_getopt` where it neither returns at once nor starts anew. -/
def Getopt.scan (st : Getopt) (nextchar : NextChar) (v : Vec) (optstring : List UInt8) :
    Except Fault (Getopt × Int × List Out) :=
  match nextchar.atEnd with
  | .error e => .error e
  | .ok true => st.nextElement v optstring
  | .ok false =>
    match nextchar with
    | .inWord w off => st.option v optstring w off
    | _ => .error .stale

/-- `sh_getopt`: what it returns, and what it prints. -/
def Getopt.shGetopt (st : Getopt) (nextchar : NextChar) (v : Vec) (optstring : List UInt8) :
    Except Fault (Getopt × Int × List Out) :=
  if (v.argc : Int) ≤ st.optind ∨ st.optind < 0 then
    .ok ({ st with optarg := none, optind := v.argc }, EOF, [])
  else if st.optind = 0 then
    { st with optarg := none, optind := 1, nextchar := false }.scan .null v optstring
  else { st with optarg := none }.scan nextchar v optstring

/-! ## `getopts` -/

/-- `numval`. -/
def numval (n : Int) : List UInt8 := (Nat.toDigits 10 n.toNat).map Char.toUInt8

/-- The vector of a call: the words behind the option string and the name, or the positional
parameters. `restored` is the vector that `sh_getopt_restore_state` gets. -/
def vector (dollar0 name : Word) (args params : List Word) : Vec × Vec :=
  if args ≠ [] then (⟨name :: args, true⟩, ⟨dollar0 :: args, true⟩)
  else (⟨dollar0 :: params, params.length ≠ 9⟩, ⟨dollar0 :: params, params.length ≠ 9⟩)

/-- What `dogetopts` does with the value that `sh_getopt` has returned. -/
def Getopt.result (st : Getopt) (special : Bool) (name : Word) (ret : Int) : List Out :=
  let optarg := "OPTARG".toList.map Char.toUInt8
  let question := charInt '?'.toUInt8
  if ret = EOF then [.unbind optarg, .bind name (some ['?'.toUInt8])]
  else if ret = -2 ∨ (ret = question ∧ st.optarg = none) then
    .bind name (some ['?'.toUInt8]) ::
      if special then [.bind optarg (some [st.optopt])] else [.unbind optarg]
  else if ret = -3 ∨ (ret = question ∧ st.optarg = some []) then
    if special then [.bind name (some [':'.toUInt8]), .bind optarg (some [st.optopt])]
    else [.bind name (some ['?'.toUInt8]), .unbind optarg]
  else [.bind optarg st.optarg, .bind name (some [ret.toInt8.toUInt8])]

/-- `dogetopts`: the words behind `getopts`, `$0` and the positional parameters. -/
def Getopt.dogetopts (st : Getopt) (list : List Word) (dollar0 : Word) (params : List Word) :
    Except Fault (Getopt × List Out) :=
  match list with
  | optstr :: name :: args =>
    let special := optstr.head? == some ':'.toUInt8
    let optstring := if special then optstr.tail else optstr
    let v := vector dollar0 name args params
    match st.restoreState v.1 with
    | .error e => .error e
    | .ok nextchar =>
      match { st with opterr := !special && st.opterr }.shGetopt nextchar v.2 optstring with
      | .error e => .error e
      | .ok (st', ret, outs) =>
        .ok ({ st' with opterr := st.opterr },
          outs ++ .bind ("OPTIND".toList.map Char.toUInt8) (some (numval st'.optind)) ::
            st'.result special name ret)
  | _ => .ok (st, [.usage])

/-- `getopts_reset`. -/
def Getopt.getoptsReset (st : Getopt) (newind : Int) : Getopt :=
  { st with optind := newind, badopt := false }

/-- `sv_optind`: `OPTIND` has the value `s`. -/
def Getopt.svOptind (st : Getopt) (s : Int) : Getopt :=
  st.getoptsReset (if s < 0 ∨ s = 1 then 0 else s)

/-- What happens to the variables: a `getopts` command, an assignment to `OPTIND` or `OPTERR`, a
function that is called, and one that returns; it brings the variables back if its `OPTIND` is
local. -/
inductive Op where
  | getopts (list : List Word) (dollar0 : Word) (params : List Word)
  | optind (s : Int)
  | opterr (b : Bool)
  | call
  | ret (isLocal : Bool)

/-- The variables, and what `sh_getopt_save_istate` has saved for the functions being executed. -/
structure Shell where
  st : Getopt
  saved : List Getopt

/-- `sh_getopt_restore_istate`. -/
def Getopt.restoreIstate (st saved : Getopt) : Getopt :=
  { saved with opterr := st.opterr, optopt := st.optopt, badopt := st.badopt }

/-- One operation. -/
def Shell.step (s : Shell) : Op → Except Fault (Shell × List Out)
  | .getopts list dollar0 params =>
    match s.st.dogetopts list dollar0 params with
    | .error e => .error e
    | .ok (st, outs) => .ok ({ s with st := st }, outs)
  | .optind n => .ok ({ s with st := s.st.svOptind n }, [])
  | .opterr b => .ok ({ s with st := { s.st with opterr := b } }, [])
  | .call => .ok ({ s with saved := s.st :: s.saved }, [])
  | .ret isLocal =>
    match s.saved with
    | [] => .ok (s, [])
    | st :: saved => .ok (⟨if isLocal then s.st.restoreIstate st else s.st, saved⟩, [])

/-- A new shell. -/
def Shell.start : Shell :=
  ⟨⟨none, 0, 0, false, 0, true, '?'.toUInt8, false⟩, []⟩

end Basht.Builtins
