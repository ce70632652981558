import Basht.Parser.ShellGetc

/-!
# Where a command substitution ends

`xparse_dolparen` parses the string after `$(` with `parse_string`, and takes the position
`rewind_input_string` leaves as the end of the substitution.

The grammar enters as a `Reader`: what the parser asks of its input next, given the
characters it has taken so far. `Complete` says that a text is a command list the reader
takes up to the parenthesis behind it. The results hold for every reader.
-/

namespace Basht.Parser

open LineEnding ShellInput

/-- `')'`. -/
abbrev rparen : UInt8 := 41

/-- What the parser does next: take a character with `shell_getc`, take a character of a
here-document with `yy_getc`, accept the command, or report an error. -/
inductive Request where
  | token (removeQuotedNewline : Bool)
  | hereDoc
  | accept
  | reject

/-- The parser, as a function of the characters it has taken. A character that is read and
pushed back counts when it is read for good. -/
abbrev Reader := List UInt8 → Request

/-! ## The code -/

/-- What `yyparse` and `read_token` do with the input, for at most `fuel` characters: whether
the command was accepted, and the input left. Behind the closing parenthesis `read_token`
peeks for a two-character token. -/
def parseCommand (p : Reader) : Nat → List UInt8 → ShellInput → Bool × ShellInput
  | 0, _, st => (false, st)
  | fuel + 1, taken, st =>
    match p taken with
    | .reject => (false, st)
    | .accept =>
      match st.shellGetc false with
      | (some peekChar, st') => (true, st'.shellUngetc peekChar)
      | (none, st') => (true, st')
    | .token removeQuotedNewline =>
      match st.shellGetc removeQuotedNewline with
      | (some c, st') => parseCommand p fuel (taken ++ [c]) st'
      | (none, st') => (false, st')
    | .hereDoc =>
      match yyGetc Location.get st.le st.location with
      | (some c, le, loc) => parseCommand p fuel (taken ++ [c]) { st with le := le, location := loc }
      | (none, le, loc) => (false, { st with le := le, location := loc })

/-- The byte at a pointer into `s`. -/
def byteAt (s : List UInt8) (i : Int) : UInt8 := if i < 0 then 0 else s.getD i.toNat 0

/-- `rewind_input_string`: `bash_input.location.string` after it. -/
def rewindInputString (st : ShellInput) : Int :=
  let xchars : Int := st.len - st.index
  let xchars := if byteAt st.location.string (st.location.index - 1) = LF then xchars + 1 else xchars
  st.location.index - xchars

/-- `parse_string`: the position where the parse ended, or nothing if it returns `-DISCARD`. -/
def parseString (p : Reader) (noLongjmp : Bool) (string : CString) : Option Int :=
  let r := parseCommand p (string.bytes.length + 2) [] (ShellInput.ofString string)
  if r.1 then some (rewindInputString r.2)
  else if noLongjmp then some r.2.location.index
  else none

/-- `while (ep > ostring && ep[-1] == '\n') ep--`, `n` characters behind `ostring`. -/
def dropNewlines (base : List UInt8) (ostring : Nat) : Nat → Nat
  | 0 => 0
  | n + 1 => if byteAt base (ostring + n) = LF then dropNewlines base ostring n else n + 1

/-- The jumps to top level in `xparse_dolparen`. -/
inductive Jump where
  | discard
  | unexpectedEof
deriving DecidableEq, Repr

/-- What `xparse_dolparen` returns: the text, and `*indp`. -/
structure Dolparen where
  indp : Int
  ret : List UInt8
deriving DecidableEq, Repr

/-- The end of `xparse_dolparen`, from the position `ep` in the string at `base + origInd`. -/
def dolparenAt (base : List UInt8) (origInd : Nat) (noLongjmp : Bool) (ep : Int) :
    Except Jump Dolparen :=
  let ep := if byteAt base (origInd + ep - 1) ≠ rparen then
      (dropNewlines base origInd ep.toNat : Int) else ep
  let indp := origInd + ep - 1
  if byteAt base indp ≠ rparen ∧ !noLongjmp then .error .unexpectedEof
  else .ok ⟨indp, (base.drop origInd).take (ep - 1).toNat⟩

/-- `xparse_dolparen` on the string at `base + origInd`; `noLongjmp` is `SX_NOLONGJMP`. -/
def xparseDolparen (p : Reader) (base : CString) (origInd : Nat) (noLongjmp : Bool) :
    Except Jump Dolparen :=
  if base.bytes.drop origInd = [] then .ok ⟨origInd, []⟩
  else
    match parseString p noLongjmp (base.drop origInd) with
    | none => .error .discard
    | some ep => dolparenAt base.bytes origInd noLongjmp ep

/-! ## Complete command lists -/

/-- The reader, having taken the characters `taken`, takes exactly the characters `cs`, the
last of which is the closing parenthesis, and accepts there. `free` says that it stands at
the start of a line, where here-documents are read. -/
inductive Accepts (p : Reader) : List UInt8 → Bool → List UInt8 → Prop
  | close {taken cs : List UInt8} {free removeQuotedNewline : Bool} :
      p taken = .token removeQuotedNewline → nextChars removeQuotedNewline cs = [rparen] →
      p (taken ++ [rparen]) = .accept → Accepts p taken free cs
  | token {taken cs : List UInt8} {free removeQuotedNewline : Bool} {c : UInt8}
      {more : List UInt8} :
      p taken = .token removeQuotedNewline → nextChars removeQuotedNewline cs = c :: more →
      Accepts p (taken ++ [c]) (c == LF) more → Accepts p taken free cs
  | hereDoc {taken : List UInt8} {c : UInt8} {more : List UInt8} :
      p taken = .hereDoc → Accepts p (taken ++ [c]) true more → Accepts p taken true (c :: more)

/-- `C` is a complete command list: the reader takes it and the parenthesis behind it. -/
def Complete (p : Reader) (C : List UInt8) : Prop :=
  Accepts p [] true (recognize LeState.init (C ++ [rparen]))

/-! ## Reading up to the parenthesis -/

theorem nextChars_append {removeQuotedNewline : Bool} {c : UInt8} {cs more : List UInt8}
    (h : nextChars removeQuotedNewline cs = c :: more) (hc : ¬(c = backslash ∧ more = []))
    (tail : List UInt8) : nextChars removeQuotedNewline (cs ++ tail) = c :: more ++ tail := by
  cases removeQuotedNewline with
  | false => exact congrArg (· ++ tail) h
  | true =>
    change dropQuotedNewlines cs = c :: more at h
    change dropQuotedNewlines (cs ++ tail) = c :: more ++ tail
    induction cs using dropQuotedNewlines.induct with
    | case1 d e ds hde ih =>
      rw [dropQuotedNewlines, if_pos hde] at h
      rw [List.cons_append, List.cons_append, dropQuotedNewlines, if_pos hde]
      exact ih h
    | case2 d e ds hde =>
      rw [dropQuotedNewlines, if_neg hde] at h
      rw [List.cons_append, List.cons_append, dropQuotedNewlines, if_neg hde, ← h]
      rfl
    | case3 ds hds =>
      rw [dropQuotedNewlines.eq_def] at h
      split at h
      · exact absurd rfl (hds _ _ _)
      · subst h
        have hmore : more = [] := by
          cases more with
          | nil => rfl
          | cons e es => exact absurd rfl (hds c e es)
        have hc' : ¬(c = backslash) := fun he => hc ⟨he, hmore⟩
        cases hl : more ++ tail with
        | nil => rw [List.cons_append, hl]; rfl
        | cons e es =>
          rw [List.cons_append, hl, dropQuotedNewlines, if_neg fun he => hc' he.1]

theorem Accepts.ne_nil {p : Reader} {taken cs : List UInt8} {free : Bool}
    (h : Accepts p taken free cs) : cs ≠ [] := by
  rintro rfl
  cases h with
  | close _ hn _ =>
    unfold nextChars dropQuotedNewlines at hn
    split at hn <;> cases hn
  | token _ hn _ =>
    unfold nextChars dropQuotedNewlines at hn
    split at hn <;> cases hn

theorem length_nextChars_le (removeQuotedNewline : Bool) (cs : List UInt8) :
    (nextChars removeQuotedNewline cs).length ≤ cs.length := by
  cases removeQuotedNewline with
  | false => exact Nat.le_refl _
  | true =>
    change (dropQuotedNewlines cs).length ≤ cs.length
    induction cs using dropQuotedNewlines.induct with
    | case1 d e ds hde ih =>
      rw [dropQuotedNewlines, if_pos hde, List.length_cons, List.length_cons]
      omega
    | case2 d e ds hde =>
      have hkeep : dropQuotedNewlines (d :: e :: ds) = d :: e :: ds := by
        rw [dropQuotedNewlines, if_neg hde]
      exact Nat.le_of_eq (congrArg List.length hkeep)
    | case3 ds hds =>
      rw [dropQuotedNewlines.eq_def]
      split
      · exact absurd rfl (hds _ _ _)
      · exact Nat.le_refl _

/-- Behind the parenthesis the parser stands as before the peek. -/
theorem shellUngetc_shellGetc {string done ahead ending : List UInt8} {st : ShellInput}
    (h : InLine string st done ahead ending) :
    ∃ c, st.shellGetc false = (some c, { st with index := st.index + 1 }) ∧
      { st with index := st.index + 1 }.shellUngetc c = st := by
  obtain ⟨last, hi, -⟩ := h.getElem?_index
  obtain ⟨c, hc⟩ : ∃ c, (ahead ++ [last])[0]? = some c := by
    cases ahead with
    | nil => exact ⟨last, rfl⟩
    | cons a as => exact ⟨a, rfl⟩
  rw [hc] at hi
  refine ⟨c, ?_, ?_⟩
  · rw [shellGetc, h.lookahead]
    simp only [hi, reduceCtorEq, if_false]
    rw [takeChar, hi]
    simp [h.lookahead]
  · obtain ⟨hlt, hget⟩ := List.getElem?_eq_some_iff.mp hi
    rw [shellUngetc, if_pos (Nat.succ_ne_zero _), ← hget]
    simp only [Nat.add_sub_cancel, List.set_getElem_self]

/-- `yy_getc` past the line buffer returns the next character of the stream. -/
theorem yyGetc_atLineEnd {string done : List UInt8} {st : ShellInput} {x : UInt8}
    {ys : List UInt8} (h : AtLineEnd string st done) (hz : stillToCome string done = x :: ys) :
    ∃ done' le loc, yyGetc Location.get st.le st.location = (some x, le, loc) ∧
      AtLineEnd string { st with le := le, location := loc } done' ∧
      stillToCome string done' = ys := by
  rw [stillToCome_eq h.bytes, ← h.le] at hz
  obtain ⟨hfst, hsnd⟩ := yyGetc_spec Location.source st.le st.location
  change _ = (recognize st.le st.location.rest).head? at hfst
  change recognize _ _ = (recognize st.le st.location.rest).tail at hsnd
  rw [hz] at hfst hsnd
  obtain ⟨taken, hrest, hle⟩ := yyGetc_takes Location.source st.le st.location (by rw [hfst]; simp)
  have hstring := yyGetc_keeps (P := fun loc => loc.string = string)
    (fun loc h => loc.get_string.trans h) st.le st.location h.string_eq
  change st.location.rest = taken ++ _ at hrest
  have hbytes : string = done ++ taken ++
      (yyGetc Location.get st.le st.location).2.2.rest := by
    rw [List.append_assoc]
    exact h.bytes.trans (congrArg (done ++ ·) hrest)
  have hle' : (yyGetc Location.get st.le st.location).2.1 =
      recognizer.final LeState.init (done ++ taken) := by
    rw [Transducer.final_append, ← h.le]
    exact hle
  refine ⟨done ++ taken, _, _, Prod.ext hfst rfl, ⟨hstring, hbytes, hle', h.line, h.lookahead⟩, ?_⟩
  rw [stillToCome_eq hbytes, ← hle']
  exact hsnd

/-- A complete command list is accepted, and the parser stops right behind the
parenthesis. -/
theorem parseCommand_of_accepts {p : Reader} {string : List UInt8} (h0 : 0 ∉ string)
    {taken cs tail : List UInt8} {free : Bool} (h : Accepts p taken free cs) {st : ShellInput}
    {done : List UInt8} (hst : Stands string st done free)
    (hz : stillToCome string done = cs ++ tail) (fuel : Nat) (hfuel : cs.length < fuel) :
    ∃ st' done' ahead ending, parseCommand p fuel taken st = (true, st') ∧
      InLine string st' done' ahead ending ∧ stillToCome string done' = tail := by
  induction h generalizing st done fuel with
  | @close taken cs free removeQuotedNewline hreq hnext hacc =>
    have hlen := length_nextChars_le removeQuotedNewline cs
    rw [hnext, List.length_singleton] at hlen
    obtain ⟨fuel, rfl⟩ : ∃ n, fuel = n + 2 := ⟨fuel - 2, by omega⟩
    have hnext' := nextChars_append hnext (fun hc => absurd hc.1 (by decide)) tail
    rw [← hz] at hnext'
    obtain ⟨done', st', hget, hst', hstill⟩ := shellGetc_stands h0
      (fun hc => absurd hc.1 (by decide)) hst hnext'
    obtain ⟨ahead, ending, hin⟩ := hst'
    obtain ⟨c, hpeek, hunget⟩ := shellUngetc_shellGetc hin
    refine ⟨st', done', ahead, ending, ?_, hin, hstill⟩
    rw [parseCommand, hreq]
    simp only [hget]
    rw [parseCommand, hacc]
    simp only [hpeek, hunget]
  | @token taken cs free removeQuotedNewline c more hreq hnext hmore ih =>
    have hlen := length_nextChars_le removeQuotedNewline cs
    rw [hnext, List.length_cons] at hlen
    obtain ⟨fuel, rfl⟩ : ∃ n, fuel = n + 1 := ⟨fuel - 1, by omega⟩
    have hne := hmore.ne_nil
    have hnext' := nextChars_append hnext (fun hc => hne hc.2) tail
    rw [← hz] at hnext'
    obtain ⟨done', st', hget, hst', hstill⟩ := shellGetc_stands h0
      (fun hc => hne (List.append_eq_nil_iff.mp hc.2).1) hst hnext'
    obtain ⟨st'', done'', ahead, ending, hparse, hin⟩ := ih hst' hstill fuel (by omega)
    refine ⟨st'', done'', ahead, ending, ?_, hin⟩
    rw [parseCommand, hreq]
    simp only [hget]
    exact hparse
  | @hereDoc taken c more hreq hmore ih =>
    obtain ⟨fuel, rfl⟩ : ∃ n, fuel = n + 1 := ⟨fuel - 1, by omega⟩
    obtain ⟨done', le, loc, hget, hst', hstill⟩ := yyGetc_atLineEnd hst hz
    rw [List.length_cons] at hfuel
    obtain ⟨st', done'', ahead, ending, hparse, hin⟩ := ih hst' hstill fuel (by omega)
    refine ⟨st', done'', ahead, ending, ?_, hin⟩
    rw [parseCommand, hreq]
    simp only [hget]
    exact hparse

/-! ## The position behind the parenthesis -/

/-- A text is known by what it is recognized as, up to a character that is no line ending. -/
theorem eq_of_recognize_eq {done text more rest : List UInt8} {c : UInt8} (hcr : c ≠ CR)
    (hlf : c ≠ LF) (h : done ++ more = (text ++ [c]) ++ rest)
    (hrec : recognize LeState.init done = recognize LeState.init (text ++ [c])) :
    done = text ++ [c] := by
  have hfinal : ∀ le bs, recognizer.final le (bs ++ [c]) = LeState.init := by
    intro le bs
    rw [Transducer.final_append, Transducer.final_cons, step_other _ hcr hlf]
    rfl
  rcases List.append_eq_append_iff.mp h with ⟨extra, htext, -⟩ | ⟨extra, hdone, -⟩
  · rw [htext, recognize_append, List.self_eq_append_right] at hrec
    rcases List.eq_nil_or_concat extra with rfl | ⟨init, e, rfl⟩
    · rw [htext, List.append_nil]
    · have he : e = c := by
        have hlast := congrArg List.getLast? htext
        simpa using hlast.symm
      rw [he, List.concat_eq_append, recognize_append, recognize_cons,
        step_other _ hcr hlf] at hrec
      simp at hrec
  · rw [hdone, recognize_append, hfinal, List.append_right_eq_self] at hrec
    rw [hdone, eq_nil_of_recognize_init hrec, List.append_nil]

theorem byteAt_length (l : List UInt8) (b : UInt8) (more : List UInt8) :
    byteAt (l ++ b :: more) l.length = b := by
  rw [byteAt, if_neg (by omega), Int.toNat_natCast]
  simp

theorem rewindInputString_eq (st : ShellInput) :
    rewindInputString st = st.location.index - (st.len - st.index) -
      if byteAt st.location.string (st.location.index - 1) = LF then 1 else 0 := by
  unfold rewindInputString
  split
  · simp only
    omega
  · simp only
    omega

/-- The ending that `rewind_input_string` finds before the location is compensated for if
it is an LF. -/
theorem rewindInputString_inLine {string done ahead ending : List UInt8} {c : UInt8}
    {st : ShellInput} (h : InLine string st (done ++ [c]) ahead ending) (hlf : c ≠ LF) :
    rewindInputString st = done.length + 1 + if ending = [CR] then 1 else 0 := by
  have hbytes := h.bytes
  have hindex : st.location.index + st.location.rest.length = string.length := by
    have hle := st.location.index_le
    rw [← h.string_eq, Location.rest, List.length_drop]
    omega
  have hlen := congrArg List.length hbytes
  simp only [List.length_append, List.length_singleton] at hlen
  have hstlen := h.len
  have hat : ∀ l b, done ++ [c] ++ ahead ++ ending = l ++ [b] →
      byteAt st.location.string (st.location.index - 1) = b := by
    intro l b hl
    have hl' := congrArg List.length hl
    simp only [List.length_append, List.length_singleton] at hl'
    rw [h.string_eq, hbytes, hl, List.append_assoc,
      show (st.location.index : Int) - 1 = (l.length : Nat) by omega]
    exact byteAt_length l b _
  rw [rewindInputString_eq]
  rcases h.ended with ⟨b, rfl, hb, -⟩ | ⟨rfl, hnil⟩
  · rw [hat _ b rfl]
    simp only [List.length_singleton] at hlen
    rcases hb with rfl | rfl
    · rw [if_neg (show ¬CR = LF by decide), if_pos rfl]
      omega
    · rw [if_pos rfl, if_neg (show ¬[LF] = [CR] by decide)]
      omega
  · have hlast : byteAt st.location.string (st.location.index - 1) ≠ LF := by
      rcases List.eq_nil_or_concat ahead with rfl | ⟨init, e, rfl⟩
      · rw [hat done c (by simp)]
        exact hlf
      · rw [hat (done ++ [c] ++ init) e (by simp)]
        exact (h.plain e (by simp)).2
    rw [if_neg hlast, if_neg (List.cons_ne_nil CR []).symm]
    simp only [List.length_nil] at hlen
    omega

/-! ## What follows the substitution -/

/-- `CR` or `LF`. -/
def isEnding (c : UInt8) : Bool := c == CR || c == LF

/-- The first line ending behind the parenthesis begins with a CR. -/
def CrFollows (R : List UInt8) : Prop := R.find? isEnding = some CR

instance (R : List UInt8) : Decidable (CrFollows R) := by
  unfold CrFollows
  infer_instance

theorem ShellInput.InLine.crFollows_iff {string done ahead ending : List UInt8} {st : ShellInput}
    (h : InLine string st done ahead ending) :
    CrFollows (ahead ++ ending ++ st.location.rest) ↔ ending = [CR] := by
  have hahead : ahead.find? isEnding = none := by
    rw [List.find?_eq_none]
    intro c hc
    simp [isEnding, h.plain c hc]
  rw [CrFollows, List.append_assoc, List.find?_append, hahead, Option.none_or]
  rcases h.ended with ⟨b, rfl, hb, -⟩ | ⟨rfl, hnil⟩
  · have hfirst : ([b] ++ st.location.rest).find? isEnding = some b := by
      rcases hb with rfl | rfl <;> rfl
    rw [hfirst]
    simp
  · rw [hnil]
    simp

/-- `parse_string` stops behind the parenthesis, or one character later if a CR follows. -/
theorem parseString_complete {p : Reader} {C R : List UInt8} (hC : Complete p C)
    (h0 : 0 ∉ C ++ rparen :: R) (noLongjmp : Bool) :
    parseString p noLongjmp ⟨C ++ rparen :: R, h0⟩ =
      some ((C.length : Int) + 1 + if CrFollows R then 1 else 0) := by
  have hsplit : C ++ rparen :: R = (C ++ [rparen]) ++ R := by simp
  have hfinal : recognizer.final LeState.init (C ++ [rparen]) = LeState.init := by
    rw [Transducer.final_append, Transducer.final_cons,
      step_other _ (show rparen ≠ CR by decide) (by decide)]
    rfl
  have hstart : Stands (C ++ rparen :: R) (ofString ⟨C ++ rparen :: R, h0⟩) [] true :=
    ⟨rfl, rfl, rfl, rfl, rfl⟩
  have hrec : recognize LeState.init (C ++ rparen :: R) =
      recognize LeState.init (C ++ [rparen]) ++ recognize LeState.init R := by
    rw [hsplit, recognize_append, hfinal]
  have hfuel : (recognize LeState.init (C ++ [rparen])).length <
      (C ++ rparen :: R).length + 2 := by
    have hle := length_recognize_le LeState.init (C ++ [rparen])
    simp only [List.length_append, List.length_cons, List.length_nil] at hle ⊢
    omega
  obtain ⟨st, done, ahead, ending, hparse, hin, hstill⟩ :=
    parseCommand_of_accepts h0 hC hstart hrec _ hfuel
  have hbytes := hin.bytes
  rw [List.append_assoc, List.append_assoc] at hbytes
  -- the characters taken are those of the command and its parenthesis, hence the bytes too
  have htaken : recognize LeState.init done = recognize LeState.init (C ++ [rparen]) := by
    rw [stillToCome_eq hbytes] at hstill
    rw [hbytes, recognize_append, hstill] at hrec
    exact List.append_cancel_right hrec
  obtain rfl := eq_of_recognize_eq (by decide) (by decide) (hbytes.symm.trans hsplit) htaken
  have hR : R = ahead ++ ending ++ st.location.rest := by
    rw [hsplit, List.append_assoc] at hbytes
    simpa using hbytes
  rw [parseString, hparse]
  simp only [if_true]
  rw [rewindInputString_inLine hin (by decide), hR]
  simp only [hin.crFollows_iff]

theorem xparseDolparen_complete {p : Reader} {pre C R : List UInt8} (hC : Complete p C)
    (h0 : 0 ∉ pre ++ (C ++ rparen :: R)) (noLongjmp : Bool) :
    xparseDolparen p ⟨pre ++ (C ++ rparen :: R), h0⟩ pre.length noLongjmp =
      dolparenAt (pre ++ (C ++ rparen :: R)) pre.length noLongjmp
        (C.length + 1 + if CrFollows R then 1 else 0) := by
  have h0' : 0 ∉ C ++ rparen :: R := fun hm => h0 (List.mem_append_right _ hm)
  have hstring : CString.drop ⟨pre ++ (C ++ rparen :: R), h0⟩ pre.length =
      ⟨C ++ rparen :: R, h0'⟩ := by
    simp only [CString.drop, List.drop_left]
  rw [xparseDolparen, hstring, parseString_complete hC h0' noLongjmp, if_neg]
  simp

theorem dolparenAt_paren (pre C R : List UInt8) (noLongjmp : Bool) :
    dolparenAt (pre ++ (C ++ rparen :: R)) pre.length noLongjmp (C.length + 1) =
      .ok ⟨(pre.length + C.length : Nat), C⟩ := by
  have hat : byteAt (pre ++ (C ++ rparen :: R)) ((pre.length + C.length : Nat) : Int) = rparen := by
    rw [← List.append_assoc, ← List.length_append]
    exact byteAt_length _ _ _
  have hpos : (pre.length : Int) + (C.length + 1) - 1 = (pre.length + C.length : Nat) := by omega
  simp only [dolparenAt, hpos, hat, ne_eq, not_true_eq_false, if_false, false_and,
    List.drop_left, show (C.length : Int) + 1 - 1 = (C.length : Nat) by omega, Int.toNat_natCast,
    List.take_left]

/-- From one character further on, the parenthesis is not found again. -/
theorem dolparenAt_next {pre C R : List UInt8} (hR : CrFollows R) (noLongjmp : Bool)
    (ret : List UInt8) :
    dolparenAt (pre ++ (C ++ rparen :: R)) pre.length noLongjmp (C.length + 1 + 1) ≠
      .ok ⟨(pre.length + C.length : Nat), ret⟩ := by
  obtain ⟨e, R, rfl, he⟩ : ∃ e R', R = e :: R' ∧ e ≠ LF := by
    cases R with
    | nil => exact absurd hR (by decide)
    | cons e R =>
      refine ⟨e, R, rfl, ?_⟩
      rintro rfl
      exact absurd (Option.some.inj hR) (by decide)
  have hpos : (pre.length : Int) + (C.length + 1 + 1) - 1 = (pre.length + (C.length + 1) : Nat) := by
    omega
  have hat : byteAt (pre ++ (C ++ rparen :: e :: R)) ((pre.length + (C.length + 1) : Nat) : Int) = e := by
    have h := byteAt_length (pre ++ (C ++ [rparen])) e R
    simpa using h
  have hdrop : dropNewlines (pre ++ (C ++ rparen :: e :: R)) pre.length
      ((C.length : Int) + 1 + 1).toNat = C.length + 1 + 1 := by
    rw [show ((C.length : Int) + 1 + 1).toNat = C.length + 1 + 1 by omega, dropNewlines, if_neg]
    exact_mod_cast hat ▸ he
  have hep : (if e ≠ rparen then ((C.length + 1 + 1 : Nat) : Int) else (C.length : Int) + 1 + 1) =
      (C.length : Int) + 1 + 1 := by
    split <;> omega
  simp only [dolparenAt, hpos, hat, hdrop, hep]
  split
  · exact fun h => by cases h
  · intro h
    injection h with h
    injection h with h _
    omega

/-- **The end of a command substitution.** `xparse_dolparen` returns the command list and
the index of its parenthesis iff the first line ending behind it does not begin with CR. -/
theorem xparseDolparen_eq_ok_iff {p : Reader} {pre C R : List UInt8} (hC : Complete p C)
    (h0 : 0 ∉ pre ++ (C ++ rparen :: R)) (noLongjmp : Bool) :
    xparseDolparen p ⟨pre ++ (C ++ rparen :: R), h0⟩ pre.length noLongjmp =
        .ok ⟨(pre.length + C.length : Nat), C⟩ ↔
      ¬CrFollows R := by
  rw [xparseDolparen_complete hC h0 noLongjmp]
  by_cases hR : CrFollows R
  · rw [if_pos hR]
    exact ⟨fun h => absurd h (dolparenAt_next hR noLongjmp C), fun h => absurd hR h⟩
  · rw [if_neg hR]
    exact ⟨fun _ => hR, fun _ => by rw [Int.add_zero, dolparenAt_paren]⟩

/-! ## A carriage return behind the substitution -/

/-- A reader that knows commands, single quotes and the closing parenthesis. -/
def quoteReader : Reader := fun taken =>
  let unquoted := taken.count 39 % 2 == 0
  if unquoted && taken.getLast? == some rparen then .accept else .token unquoted

theorem complete_quoteReader : Complete quoteReader [97] :=
  @Accepts.token _ _ _ _ _ 97 [rparen] rfl rfl (.close rfl rfl rfl)

/-- `$(a)` at the end of a line. -/
theorem xparseDolparen_eq_ok_lf :
    xparseDolparen quoteReader ⟨[36, 40] ++ ([97] ++ rparen :: [LF]), by decide⟩ 2 false =
      .ok ⟨3, [97]⟩ :=
  (@xparseDolparen_eq_ok_iff quoteReader [36, 40] [97] [LF] complete_quoteReader (by decide)
    false).mpr (by decide)

/-- `$(a)'\r'`, which the parser makes of `$(a)$'\r'`: the CR in the quotes behind the
substitution is taken for the end of the line, and no closing parenthesis is found. -/
theorem xparseDolparen_quotedCr :
    Complete quoteReader [97] ∧
      xparseDolparen quoteReader ⟨[36, 40] ++ ([97] ++ rparen :: [39, CR, 39]), by decide⟩ 2
        false = .error .unexpectedEof := by
  refine ⟨complete_quoteReader, ?_⟩
  have h := @xparseDolparen_complete quoteReader [36, 40] [97] [39, CR, 39] complete_quoteReader
    (by decide) false
  exact h.trans (by decide)

end Basht.Parser
