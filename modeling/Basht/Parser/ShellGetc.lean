import Basht.LineEnding.InputLine

/-!
# The parser's line buffer

`shell_getc` and `shell_ungetc` of `parse.y` over string input (`with_input_from_string`)
without alias expansion: lines come from `yy_getc` into `shell_input_line`, and are
handed out character by character.

`AtLineEnd` and `InLine` relate a state of the line buffer to the bytes of the string:
which of them the parser has taken, and which have been read into the line and not taken.
`shellGetc_stands` says how one call moves that boundary.
-/

namespace Basht.Parser

open LineEnding

/-- `'\\'`. -/
abbrev backslash : UInt8 := 92

/-- A C string: the bytes before its NUL. -/
structure CString where
  bytes : List UInt8
  noNul : 0 ∉ bytes

/-- The string from its byte `n` on. -/
def CString.drop (s : CString) (n : Nat) : CString :=
  ⟨s.bytes.drop n, fun h => s.noNul (List.mem_of_mem_drop h)⟩

/-- `bash_input.location.string`, as an index into the whole string. -/
structure Location where
  string : List UInt8
  index : Nat
  index_le : index ≤ string.length

namespace Location

/-- The string from the location on. -/
def rest (loc : Location) : List UInt8 := loc.string.drop loc.index

/-- `yy_string_get`. -/
def get (loc : Location) : Option UInt8 × Location :=
  if h : loc.index < loc.string.length then
    (some loc.string[loc.index], { loc with index := loc.index + 1, index_le := h })
  else (none, loc)

theorem get_spec (loc : Location) :
    loc.get.1 = loc.rest.head? ∧ loc.get.2.rest = loc.rest.tail := by
  unfold get rest
  split
  · rename_i h
    rw [List.drop_eq_getElem_cons h]
    exact ⟨rfl, rfl⟩
  · rename_i h
    rw [List.drop_eq_nil_iff.mpr (by omega)]
    exact ⟨rfl, rfl⟩

theorem get_string (loc : Location) : loc.get.2.string = loc.string := by
  unfold get
  split <;> rfl

/-- A string location as a source of bytes for `yy_getc`. -/
def source : ByteSource Location where
  get := get
  rest := rest
  get_fst loc := loc.get_spec.1
  rest_get loc := loc.get_spec.2

end Location

/-- The parser's input: `bash_input.location.string`, the line-ending flags, and the line
buffer. `line` is `shell_input_line` up to its NUL and `len` is `shell_input_line_len`,
which does not count the newline put at the end of the line; `atEof` says that
`shell_input_line_terminator` is EOF. -/
structure ShellInput where
  location : Location
  le : LeState
  line : List UInt8
  len : Nat
  index : Nat
  atEof : Bool
  lookahead : Option UInt8

namespace ShellInput

/-- The input after `with_input_from_string`, with an empty line buffer. -/
def ofString (s : CString) : ShellInput :=
  ⟨⟨s.bytes, 0, Nat.zero_le _⟩, LeState.init, [], 0, 0, false, none⟩

/-- `last_was_backslash` after the characters `text` were stored. -/
def lastWasBackslash (before : Bool) (text : List UInt8) : Bool :=
  text.foldl (fun b c => !b && c == backslash) before

/-- `restart_read` in `shell_getc`: the next line is read into the buffer, and a newline
(or, when EOF cuts off a quoted newline, a backslash) is put at its end. -/
def readNextLine (removeQuotedNewline lastBackslash : Bool) (st : ShellInput) : ShellInput :=
  let r := shellLine Location.source st.le st.location
  let text := r.1.text
  let atEof := !r.1.newline && text.isEmpty
  let last :=
    if lastWasBackslash lastBackslash text && !r.1.newline && removeQuotedNewline then backslash
    else LF
  { location := r.2
    le := r.1.le
    line := if atEof then text else text ++ [last]
    len := text.length
    index := 0
    atEof := atEof
    lookahead := st.lookahead }

/-- The characters of the line buffer before the newline put at its end. -/
def text (st : ShellInput) : List UInt8 := st.line.take st.len

theorem readNextLine_size (removeQuotedNewline lastBackslash : Bool) (st : ShellInput) :
    2 * (st.readNextLine removeQuotedNewline lastBackslash).location.rest.length +
        (st.readNextLine removeQuotedNewline lastBackslash).line.length ≤
      2 * st.location.rest.length + 1 := by
  have hline := shellLine_eq Location.source st.le st.location
  have hlen := length_takeLine st.le st.location.rest
  change (_, (shellLine Location.source st.le st.location).2.rest) =
    takeLine st.le st.location.rest at hline
  rw [← hline] at hlen
  simp only [readNextLine]
  cases hnl : (shellLine Location.source st.le st.location).1.newline <;>
    cases htext : (shellLine Location.source st.le st.location).1.text <;>
    simp [hnl, htext] at hlen ⊢ <;> omega

/-- The end of `shell_getc`: the next character of the line, after reading on behind a
quoted newline if those are to be removed. `lastBackslash` is `last_was_backslash`. -/
def takeChar (removeQuotedNewline lastBackslash : Bool) (st : ShellInput) :
    Option UInt8 × ShellInput :=
  match st.line[st.index]? with
  | none => (if st.atEof then if st.index ≠ 0 then some LF else none else some 0, st)
  | some uc =>
    if _h : uc = backslash ∧ removeQuotedNewline ∧ st.line[st.index + 1]? = some LF then
      let st' := st.readNextLine removeQuotedNewline lastBackslash
      takeChar removeQuotedNewline (lastWasBackslash lastBackslash st'.text) st'
    else (some uc, { st with index := st.index + 1 })
termination_by 2 * st.location.rest.length + (st.line.length - st.index)
decreasing_by
  have hsize := st.readNextLine_size removeQuotedNewline lastBackslash
  have hlt := (List.getElem?_eq_some_iff.mp _h.2.2).1
  simp only [show (st.readNextLine removeQuotedNewline lastBackslash).index = 0 from rfl]
  omega

/-- `shell_getc`. -/
def shellGetc (removeQuotedNewline : Bool) (st : ShellInput) : Option UInt8 × ShellInput :=
  match st.lookahead with
  | some c => (some c, { st with lookahead := none })
  | none =>
    if st.line[st.index]? = none then
      let st' := st.readNextLine removeQuotedNewline false
      takeChar removeQuotedNewline (lastWasBackslash false st'.text) st'
    else takeChar removeQuotedNewline false st

/-- `shell_ungetc`. -/
def shellUngetc (c : UInt8) (st : ShellInput) : ShellInput :=
  if st.index ≠ 0 then { st with index := st.index - 1, line := st.line.set (st.index - 1) c }
  else { st with lookahead := some c }

/-! ## What the parser has taken -/

/-- The parser has taken the bytes `done` of the string, and stands at the end of a line
(or before the first one): nothing of the line buffer is left. -/
structure AtLineEnd (string : List UInt8) (st : ShellInput) (done : List UInt8) : Prop where
  string_eq : st.location.string = string
  bytes : string = done ++ st.location.rest
  le : st.le = recognizer.final LeState.init done
  line : st.line[st.index]? = none
  lookahead : st.lookahead = none

/-- The parser has taken the bytes `done` of the string and stands inside a line: the bytes
`ahead` of the line are still in the buffer, followed by the character that ends it, which
stands for the bytes `ending`. That character is a newline, unless EOF follows a backslash. -/
structure InLine (string : List UInt8) (st : ShellInput) (done ahead ending : List UInt8) :
    Prop where
  string_eq : st.location.string = string
  bytes : string = done ++ ahead ++ ending ++ st.location.rest
  plain : ∀ c ∈ ahead, c ≠ CR ∧ c ≠ LF
  line : ∃ last, st.line.drop st.index = ahead ++ [last] ∧
    (ending ≠ [] ∨ (done ++ ahead).getLast? ≠ some backslash → last = LF)
  len : st.index + ahead.length = st.len
  lookahead : st.lookahead = none
  ended : (∃ b, ending = [b] ∧ (b = CR ∨ b = LF) ∧
      recognize (recognizer.final LeState.init (done ++ ahead)) [b] = [LF] ∧
      st.le = recognizer.final LeState.init (done ++ ahead ++ [b])) ∨
    (ending = [] ∧ st.location.rest = [])

theorem readNextLine_string (removeQuotedNewline lastBackslash : Bool) (st : ShellInput) :
    (st.readNextLine removeQuotedNewline lastBackslash).location.string = st.location.string :=
  shellLine_keeps Location.source (P := fun loc => loc.string = st.location.string)
    (fun loc h => loc.get_string.trans h) st.le st.location rfl

theorem getLast?_of_lastWasBackslash {before : Bool} {text : List UInt8}
    (h : lastWasBackslash before text = true) (hne : text ≠ []) :
    text.getLast? = some backslash := by
  obtain ⟨init, c, rfl⟩ := List.eq_nil_or_concat' text |>.resolve_left hne
  rw [lastWasBackslash, List.foldl_append] at h
  simp only [List.foldl_cons, List.foldl_nil, Bool.and_eq_true, beq_iff_eq] at h
  rw [h.2, List.getLast?_concat]

/-- Reading a line puts the parser before it, as long as there is something to read. The
half of an ending that is swallowed on the way counts as taken. -/
theorem readNextLine_inLine {string done : List UInt8} {st : ShellInput} (h0 : 0 ∉ string)
    (hstring : st.location.string = string) (hbytes : string = done ++ st.location.rest)
    (hle : st.le = recognizer.final LeState.init done) (hlook : st.lookahead = none)
    (hmore : recognize st.le st.location.rest ≠ []) (removeQuotedNewline lastBackslash : Bool) :
    ∃ half ahead ending, recognize st.le half = [] ∧
      InLine string (st.readNextLine removeQuotedNewline lastBackslash) (done ++ half) ahead
        ending := by
  have h0' : 0 ∉ st.location.rest := fun hm => h0 (hbytes ▸ List.mem_append_right _ hm)
  obtain ⟨half, text, ending, hs⟩ := takeLine_split st.le h0'
  obtain ⟨hread, hrest⟩ := Prod.mk.inj (shellLine_eq Location.source st.le st.location)
  set r := shellLine Location.source st.le st.location with hr
  change r.1 = (takeLine st.le st.location.rest).1 at hread
  change r.2.rest = (takeLine st.le st.location.rest).2 at hrest
  have htext : r.1.text = text := by rw [hread, hs.text_eq]
  have hended := hs.ended
  rw [← hread, ← hrest] at hended
  have heof : (!r.1.newline && r.1.text.isEmpty) = false := by
    by_contra hne
    rw [Bool.not_eq_false, Bool.and_eq_true, Bool.not_eq_true', List.isEmpty_iff, htext] at hne
    obtain ⟨hnl, rfl⟩ := hne
    rcases hended with ⟨hnl', -⟩ | ⟨-, hending, hnil⟩
    · exact absurd hnl' (by simp [hnl])
    · apply hmore
      rw [hs.bytes, ← hrest, hnil, hending]
      simpa using hs.swallowed
  have hline : (st.readNextLine removeQuotedNewline lastBackslash).line = text ++
      [if lastWasBackslash lastBackslash text && !r.1.newline && removeQuotedNewline then
        backslash else LF] := by
    rw [htext] at heof
    simp only [readNextLine, ← hr, htext, heof, Bool.false_eq_true, if_false]
  refine ⟨half, text, ending, hs.swallowed, (readNextLine_string _ _ st).trans hstring, ?_,
    hs.plain, ⟨_, hline, ?_⟩, ?_, hlook, ?_⟩
  · have hbs := hs.bytes
    rw [← hrest] at hbs
    change string = done ++ half ++ text ++ ending ++ r.2.rest
    rw [hbytes, hbs]
    simp only [List.append_assoc]
  · intro hor
    rw [if_neg]
    rw [Bool.and_eq_true, Bool.and_eq_true, Bool.not_eq_true']
    rintro ⟨⟨hback, hnl⟩, -⟩
    rcases hended with ⟨hnl', -⟩ | ⟨-, hending, -⟩
    · exact absurd hnl' (by simp [hnl])
    · have hne : text ≠ [] := by
        rintro rfl
        rw [hnl, htext] at heof
        simp at heof
      have hlast := getLast?_of_lastWasBackslash hback hne
      rcases hor with hor | hor
      · exact hor hending
      · rw [List.getLast?_append_of_ne_nil _ hne] at hor
        exact hor hlast
  · simpa [readNextLine] using congrArg List.length htext.symm
  · rcases hended with ⟨-, b, hb, hcrlf, hrec, hle'⟩ | ⟨-, hending, hnil⟩
    · refine Or.inl ⟨b, hb, hcrlf, ?_, ?_⟩
      · rwa [List.append_assoc, Transducer.final_append, ← hle]
      · rw [List.append_assoc, List.append_assoc, Transducer.final_append, ← hle,
          ← List.append_assoc, ← hle']
        rfl
    · exact Or.inr ⟨hending, hnil⟩

/-- What `yy_getc` returns for the bytes of the string after `done`. -/
def stillToCome (string done : List UInt8) : List UInt8 :=
  recognize (recognizer.final LeState.init done) (string.drop done.length)

theorem stillToCome_eq {string done more : List UInt8} (h : string = done ++ more) :
    stillToCome string done = recognize (recognizer.final LeState.init done) more := by
  rw [stillToCome, h, List.drop_left]

/-- The characters after the quoted newlines at the front. -/
def dropQuotedNewlines : List UInt8 → List UInt8
  | c :: d :: cs => if c = backslash ∧ d = LF then dropQuotedNewlines cs else c :: d :: cs
  | cs => cs

/-- The characters from the next one that `shell_getc` returns. -/
def nextChars (removeQuotedNewline : Bool) (cs : List UInt8) : List UInt8 :=
  if removeQuotedNewline then dropQuotedNewlines cs else cs

/-- The parser has taken the bytes `done`; `free` says that it is not inside a line. -/
def Stands (string : List UInt8) (st : ShellInput) (done : List UInt8) (free : Bool) : Prop :=
  if free then AtLineEnd string st done
  else ∃ ahead ending, InLine string st done ahead ending

section InLine

variable {string done ahead ending : List UInt8} {st : ShellInput}

theorem InLine.getElem?_index (h : InLine string st done ahead ending) :
    ∃ last, st.line[st.index]? = (ahead ++ [last])[0]? ∧
      st.line[st.index + 1]? = (ahead ++ [last])[1]? ∧
      (ending ≠ [] ∨ (done ++ ahead).getLast? ≠ some backslash → last = LF) := by
  obtain ⟨last, hline, hlast⟩ := h.line
  refine ⟨last, ?_, ?_, hlast⟩ <;> rw [← hline, List.getElem?_drop]
  rfl

theorem InLine.stillToCome_eq (h : InLine string st done ahead ending) :
    stillToCome string done =
      ahead ++ (if ending = [] then [] else LF :: recognize st.le st.location.rest) := by
  have hplain : recognize (recognizer.final LeState.init done) ahead = ahead := by
    by_cases hne : ahead = []
    · rw [hne]
      rfl
    · exact (recognizer_plain h.plain hne _).2
  have hbytes := h.bytes
  rw [List.append_assoc, List.append_assoc] at hbytes
  rw [ShellInput.stillToCome_eq hbytes, recognize_append, hplain]
  rcases h.ended with ⟨b, rfl, -, hrec, hle⟩ | ⟨rfl, hnil⟩
  · rw [recognize_append, ← Transducer.final_append, hrec, ← Transducer.final_append, ← hle]
    simp
  · rw [hnil]
    rfl

theorem InLine.quoted {cs : List UInt8} (h : InLine string st done ahead ending)
    (hz : backslash :: LF :: cs =
      ahead ++ (if ending = [] then [] else LF :: recognize st.le st.location.rest)) :
    ∃ b, ahead = [backslash] ∧ ending = [b] ∧ cs = recognize st.le st.location.rest := by
  cases ahead with
  | nil =>
    exfalso
    split at hz
    · cases hz
    · exact absurd (List.cons.inj hz).1 (by decide)
  | cons c ahead =>
    obtain ⟨rfl, htail⟩ := List.cons.inj hz
    cases ahead with
    | nil =>
      rcases h.ended with ⟨b, rfl, -⟩ | ⟨rfl, -⟩
      · exact ⟨b, rfl, rfl, (List.cons.inj htail).2⟩
      · cases htail
    | cons d ds =>
      have hd : d = LF := (List.cons.inj htail).1.symm
      exact absurd hd (h.plain d (by simp)).2

theorem takeChar_ahead {c : UInt8} {removeQuotedNewline : Bool}
    (h : InLine string st done (c :: ahead) ending)
    (hq : ¬(c = backslash ∧ removeQuotedNewline ∧ ahead = [])) (lastBackslash : Bool) :
    takeChar removeQuotedNewline lastBackslash st = (some c, { st with index := st.index + 1 }) ∧
      InLine string { st with index := st.index + 1 } (done ++ [c]) ahead ending := by
  obtain ⟨last, hi, hi', -⟩ := h.getElem?_index
  constructor
  · rw [takeChar, hi]
    simp only [List.cons_append, List.getElem?_cons_zero]
    rw [dif_neg]
    rintro ⟨hc, hrq, hlf⟩
    cases ahead with
    | nil => exact hq ⟨hc, hrq, rfl⟩
    | cons d ds =>
      rw [hi'] at hlf
      cases hlf
      exact (h.plain LF (by simp)).2 rfl
  · obtain ⟨last, hline, hlast⟩ := h.line
    refine ⟨h.string_eq, ?_, fun d hd => h.plain d (List.mem_cons_of_mem _ hd),
      ⟨last, ?_, by simpa using hlast⟩, ?_, h.lookahead, ?_⟩
    · simpa using h.bytes
    · change st.line.drop (st.index + 1) = _
      rw [← List.drop_drop, hline]
      rfl
    · have hlen := h.len
      simp only [List.length_cons] at hlen ⊢
      omega
    · simpa using h.ended

theorem takeChar_ending {b : UInt8} (h : InLine string st done [] [b])
    (removeQuotedNewline lastBackslash : Bool) :
    takeChar removeQuotedNewline lastBackslash st = (some LF, { st with index := st.index + 1 }) ∧
      AtLineEnd string { st with index := st.index + 1 } (done ++ [b]) := by
  obtain ⟨last, hi, hi', hlast⟩ := h.getElem?_index
  obtain rfl := hlast (Or.inl (by simp))
  constructor
  · rw [takeChar, hi]
    simp only [List.nil_append, List.getElem?_cons_zero]
    rw [dif_neg]
    rintro ⟨hc, -⟩
    exact absurd hc (by decide)
  · refine ⟨h.string_eq, ?_, ?_, ?_, h.lookahead⟩
    · simpa using h.bytes
    · rcases h.ended with ⟨b', hb, -, -, hle⟩ | ⟨hnil, -⟩
      · cases hb
        simpa using hle
      · cases hnil
    · exact hi'.trans rfl

theorem takeChar_quoted {b : UInt8} (h : InLine string st done [backslash] [b])
    (lastBackslash : Bool) :
    takeChar true lastBackslash st =
      takeChar true (lastWasBackslash lastBackslash (st.readNextLine true lastBackslash).text)
        (st.readNextLine true lastBackslash) := by
  obtain ⟨last, hi, hi', hlast⟩ := h.getElem?_index
  obtain rfl := hlast (Or.inl (by simp))
  rw [takeChar, hi]
  simp only [List.cons_append, List.getElem?_cons_zero]
  rw [dif_pos ⟨trivial, trivial, hi'⟩]

end InLine

/-! ## One character of the stream -/

theorem nextChars_of_ne_nil {removeQuotedNewline : Bool} {c : UInt8} {cs : List UInt8}
    (h : ¬(removeQuotedNewline ∧ c = backslash ∧ cs.head? = some LF)) :
    nextChars removeQuotedNewline (c :: cs) = c :: cs := by
  cases hrq : removeQuotedNewline with
  | false => rfl
  | true =>
    cases cs with
    | nil => rfl
    | cons d ds =>
      have hne : ¬(c = backslash ∧ d = LF) := fun ⟨hc, hd⟩ => h ⟨hrq, hc, by rw [hd]; rfl⟩
      simp only [nextChars, if_true, dropQuotedNewlines, if_neg hne]

theorem stillToCome_swallowed {string done half more : List UInt8}
    (h : string = done ++ half ++ more)
    (hhalf : recognize (recognizer.final LeState.init done) half = []) :
    stillToCome string (done ++ half) = stillToCome string done := by
  rw [stillToCome_eq h, stillToCome_eq (h.trans (List.append_assoc ..)), recognize_append, hhalf,
    Transducer.final_append]
  rfl

theorem takeChar_first {string done ahead ending : List UInt8} {st : ShellInput}
    {removeQuotedNewline : Bool} {x : UInt8} {ys : List UInt8}
    (h : InLine string st done ahead ending) (hz : stillToCome string done = x :: ys)
    (hq : ¬(x = backslash ∧ removeQuotedNewline ∧ (ys = [] ∨ ys.head? = some LF)))
    (lastBackslash : Bool) :
    ∃ done', (takeChar removeQuotedNewline lastBackslash st).1 = some x ∧
      Stands string (takeChar removeQuotedNewline lastBackslash st).2 done' (x == LF) ∧
      stillToCome string done' = ys := by
  have hstream := h.stillToCome_eq
  rw [hz] at hstream
  cases ahead with
  | nil =>
    rcases h.ended with ⟨b, rfl, -⟩ | ⟨rfl, -⟩
    · obtain ⟨hget, hend⟩ := takeChar_ending h removeQuotedNewline lastBackslash
      obtain ⟨rfl, rfl⟩ := List.cons.inj hstream
      refine ⟨done ++ [b], by rw [hget], ?_, ?_⟩
      · rw [hget]
        exact hend
      · rw [ShellInput.stillToCome_eq hend.bytes, ← hend.le]
    · cases hstream
  | cons c ahead =>
    obtain ⟨rfl, hys⟩ := List.cons.inj hstream
    have hq' : ¬(x = backslash ∧ removeQuotedNewline ∧ ahead = []) := by
      rintro ⟨hc, hrq, rfl⟩
      refine hq ⟨hc, hrq, ?_⟩
      rw [hys]
      by_cases he : ending = [] <;> simp [he]
    obtain ⟨hget, hin⟩ := takeChar_ahead h hq' lastBackslash
    refine ⟨done ++ [x], by rw [hget], ?_, ?_⟩
    · rw [hget, Stands, if_neg (by simpa using (h.plain x List.mem_cons_self).2)]
      exact ⟨ahead, ending, hin⟩
    · rw [hin.stillToCome_eq]
      exact hys.symm

/-- From inside a line, `shell_getc` returns the next character of the stream, whatever
lines it has to read for it. -/
theorem takeChar_inLine {string : List UInt8} (h0 : 0 ∉ string) {removeQuotedNewline : Bool}
    {x : UInt8} {ys : List UInt8} (hx : ¬(x = backslash ∧ ys = [])) {st : ShellInput}
    {done ahead ending : List UInt8} (h : InLine string st done ahead ending)
    (hz : nextChars removeQuotedNewline (stillToCome string done) = x :: ys)
    (lastBackslash : Bool) :
    ∃ done', (takeChar removeQuotedNewline lastBackslash st).1 = some x ∧
      Stands string (takeChar removeQuotedNewline lastBackslash st).2 done' (x == LF) ∧
      stillToCome string done' = ys := by
  induction hcs : stillToCome string done using dropQuotedNewlines.induct
    generalizing st done ahead ending lastBackslash with
  | case1 c d cs hcd ih =>
    obtain ⟨rfl, rfl⟩ := hcd
    cases hrq : removeQuotedNewline with
    | false =>
      rw [hcs, hrq] at hz
      obtain ⟨rfl, rfl⟩ := List.cons.inj hz
      exact takeChar_first h hcs (by simp) lastBackslash
    | true =>
      have hstream := h.stillToCome_eq
      rw [hcs] at hstream
      have hnext : nextChars true cs = x :: ys := by
        rw [hcs, hrq] at hz
        simpa [nextChars, dropQuotedNewlines] using hz
      -- the newline of the pair is the end of the line, and more text follows it
      obtain ⟨b, rfl, rfl, rfl⟩ : ∃ b, ahead = [backslash] ∧ ending = [b] ∧
          cs = recognize st.le st.location.rest := h.quoted hstream
      have hbytes := h.bytes
      have hle : st.le = recognizer.final LeState.init (done ++ [backslash] ++ [b]) := by
        rcases h.ended with ⟨b', hb, -, -, hle⟩ | ⟨hnil, -⟩
        · rw [hle, List.cons.inj hb |>.1]
        · cases hnil
      have hmore : recognize st.le st.location.rest ≠ [] := by
        intro hnil
        rw [hnil] at hnext
        cases hnext
      obtain ⟨half, ahead, ending, hhalf, hin⟩ :=
        readNextLine_inLine h0 h.string_eq hbytes hle h.lookahead hmore true lastBackslash
      have hstill : stillToCome string (done ++ [backslash] ++ [b] ++ half) =
          recognize st.le st.location.rest := by
        rw [hle] at hhalf
        rw [stillToCome_swallowed (by simpa using hin.bytes) hhalf,
          ShellInput.stillToCome_eq hbytes, ← hle]
      rw [takeChar_quoted h]
      rw [← hrq] at hin ⊢
      exact ih hin (by rw [hstill, hrq, hnext]) _ hstill
  | case2 c d cs hcd =>
    rw [hcs, nextChars_of_ne_nil (by simp [hcd])] at hz
    obtain ⟨rfl, rfl⟩ := List.cons.inj hz
    exact takeChar_first h hcs (by rintro ⟨hc, -, hd⟩; simp [hc] at hcd hd; exact hcd hd) _
  | case3 cs hcs' =>
    have hone : nextChars removeQuotedNewline cs = cs := by
      unfold nextChars dropQuotedNewlines
      split
      · split
        · exact absurd rfl (hcs' _ _ _)
        · rfl
      · rfl
    rw [hcs, hone] at hz
    subst hz
    have hys : ys = [] := by
      cases ys with
      | nil => rfl
      | cons d ds => exact absurd rfl (hcs' x d ds)
    exact takeChar_first h hcs (fun hc => hx ⟨hc.1, hys⟩) _

/-- `shell_getc` returns the next character of the stream. -/
theorem shellGetc_stands {string : List UInt8} (h0 : 0 ∉ string) {removeQuotedNewline : Bool}
    {x : UInt8} {ys : List UInt8} (hx : ¬(x = backslash ∧ ys = [])) {st : ShellInput}
    {done : List UInt8} {free : Bool} (h : Stands string st done free)
    (hz : nextChars removeQuotedNewline (stillToCome string done) = x :: ys) :
    ∃ done' st', shellGetc removeQuotedNewline st = (some x, st') ∧
      Stands string st' done' (x == LF) ∧ stillToCome string done' = ys := by
  cases free with
  | false =>
    obtain ⟨ahead, ending, hin⟩ := h
    obtain ⟨last, hi, -⟩ := hin.getElem?_index
    have hne : st.line[st.index]? ≠ none := by
      rw [hi]
      cases ahead <;> simp
    have hget : shellGetc removeQuotedNewline st = takeChar removeQuotedNewline false st := by
      rw [shellGetc, hin.lookahead]
      simp only [hne, if_false]
    obtain ⟨done', hx', hst', hys⟩ := takeChar_inLine h0 hx hin hz false
    exact ⟨done', _, hget.trans (Prod.ext hx' rfl), hst', hys⟩
  | true =>
    have hend : AtLineEnd string st done := h
    have hstill := ShellInput.stillToCome_eq hend.bytes
    rw [← hend.le] at hstill
    have hmore : recognize st.le st.location.rest ≠ [] := by
      intro hnil
      rw [hstill, hnil] at hz
      unfold nextChars dropQuotedNewlines at hz
      split at hz <;> cases hz
    obtain ⟨half, ahead, ending, hhalf, hin⟩ := readNextLine_inLine h0 hend.string_eq hend.bytes
      hend.le hend.lookahead hmore removeQuotedNewline false
    have hget : shellGetc removeQuotedNewline st = takeChar removeQuotedNewline
        (lastWasBackslash false (st.readNextLine removeQuotedNewline false).text)
        (st.readNextLine removeQuotedNewline false) := by
      rw [shellGetc, hend.lookahead]
      simp only [hend.line, if_true]
    rw [hend.le] at hhalf
    have hz' : nextChars removeQuotedNewline (stillToCome string (done ++ half)) = x :: ys := by
      rw [stillToCome_swallowed (by simpa using hin.bytes) hhalf, hz]
    obtain ⟨done', hx', hst', hys⟩ := takeChar_inLine h0 hx hin hz'
      (lastWasBackslash false (st.readNextLine removeQuotedNewline false).text)
    exact ⟨done', _, hget.trans (Prod.ext hx' rfl), hst', hys⟩

end ShellInput

end Basht.Parser
