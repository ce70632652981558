import Basht.LineEnding.Recognizer

/-!
# The four line-ending styles

A text is a list of lines; a style says how their ends are encoded. Read through
`yy_getc` from fresh flags, all four encodings of a text give the same characters
(`recognize_encode`), whatever source delivers them (`encoding_independent`).
-/

namespace Basht.LineEnding

/-- A line of text: its characters are neither CR nor LF. -/
structure Line where
  text : List UInt8
  noEnding : ∀ c ∈ text, c ≠ CR ∧ c ≠ LF

/-- The four encodings of a line's end. -/
inductive Style
  | lf
  | crlf
  | lfcr
  | cr
deriving DecidableEq, Repr

/-- The bytes that end a line. -/
def Style.ending : Style → List UInt8
  | .lf => [LF]
  | .crlf => [CR, LF]
  | .lfcr => [LF, CR]
  | .cr => [CR]

/-- The encoding of a text: each line followed by its ending. -/
def encode (style : Style) (lines : List Line) : List UInt8 :=
  lines.flatMap fun l => l.text ++ style.ending

/-- The lines, each followed by one newline. -/
def plain (lines : List Line) : List UInt8 := lines.flatMap fun l => l.text ++ [LF]

@[simp] theorem encode_nil (style : Style) : encode style [] = [] := rfl

@[simp] theorem encode_cons (style : Style) (l : Line) (ls : List Line) :
    encode style (l :: ls) = l.text ++ style.ending ++ encode style ls := rfl

@[simp] theorem plain_nil : plain [] = [] := rfl

@[simp] theorem plain_cons (l : Line) (ls : List Line) :
    plain (l :: ls) = l.text ++ [LF] ++ plain ls := rfl

theorem encode_append (style : Style) (ls ms : List Line) :
    encode style (ls ++ ms) = encode style ls ++ encode style ms := List.flatMap_append

/-- The flags the recognizer may hold at the start of a line of a text in this style:
after a two-byte ending none, after a one-byte ending that of its byte. -/
def Style.BetweenLines (style : Style) (le : LeState) : Prop :=
  match style with
  | .lf => le.cr = false
  | .cr => le.lf = false
  | .crlf | .lfcr => le = LeState.init

theorem Style.betweenLines_init (style : Style) : style.BetweenLines LeState.init := by
  cases style <;> rfl

/-- Reading the text of a line keeps the flags of a line start: the flags are only
cleared. -/
theorem recognizer_line (style : Style) (l : Line) {le : LeState} (h : style.BetweenLines le) :
    style.BetweenLines (recognizer.final le l.text) ∧ recognize le l.text = l.text := by
  by_cases hne : l.text = []
  · rw [hne]
    exact ⟨h, rfl⟩
  · obtain ⟨hf, ho⟩ := recognizer_plain l.noEnding hne le
    rw [hf]
    exact ⟨style.betweenLines_init, ho⟩

/-- An ending read at a line's end is one newline, and leaves the flags as at the start
of a line. -/
theorem recognizer_ending (style : Style) {le : LeState} (h : style.BetweenLines le) :
    style.BetweenLines (recognizer.final le style.ending) ∧
      recognize le style.ending = [LF] := by
  obtain ⟨cr, lf⟩ := le
  cases style with
  | lf =>
    obtain rfl : cr = false := h
    cases lf <;> exact ⟨rfl, rfl⟩
  | cr =>
    obtain rfl : lf = false := h
    cases cr <;> exact ⟨rfl, rfl⟩
  | crlf =>
    cases h
    exact ⟨rfl, rfl⟩
  | lfcr =>
    cases h
    exact ⟨rfl, rfl⟩

/-- The recognizer reads an encoded text as its lines, each followed by one newline. -/
theorem recognize_encode (style : Style) (lines : List Line) {le : LeState}
    (h : style.BetweenLines le) : recognize le (encode style lines) = plain lines := by
  induction lines generalizing le with
  | nil => rfl
  | cons l ls ih =>
    obtain ⟨h1, ho1⟩ := recognizer_line style l h
    obtain ⟨h2, ho2⟩ := recognizer_ending style h1
    rw [encode_cons, plain_cons, recognize_append, recognize_append, recognizer.final_append,
      ho1, ho2, ih h2]

/-- **Encoding independence.** From any source that delivers a text encoded in one of the
four styles, the successive calls of `yy_getc` after `init_yy_io` return the lines of the
text, each followed by exactly one newline, and then EOF. -/
theorem encoding_independent {S : Type} (src : ByteSource S) (style : Style)
    (lines : List Line) (n : Nat) :
    ∀ s, src.rest s = encode style lines →
      yyReads src.get n LeState.init s = (List.range n).map fun k => (plain lines)[k]? := by
  intro s hs
  rw [yyReads_eq, hs, recognize_encode style lines style.betweenLines_init]

/-- The lines `a` and the empty line, with CR LF endings, read from a string. -/
theorem encoding_independent_crlf :
    yyReads yyStringGet 4 LeState.init [97, CR, LF, CR, LF] = [some 97, some LF, some LF, none] :=
  (encoding_independent stringSource .crlf [⟨[97], by simp [CR, LF]⟩, ⟨[], by simp⟩] 4
    [97, CR, LF, CR, LF] rfl).trans rfl

end Basht.LineEnding
