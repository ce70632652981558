import Basht.LineEnding.Recognizer

/-!
# Nested input streams

`push_stream` and `pop_stream` of `parse.y` suspend and resume the current input while
the shell runs `eval`, `source`, a trap or any other `parse_and_execute`. Both install an
input through `init_yy_io`, which clears the line-ending flags: right for a new stream,
wrong for a resumed one whose last character was the first half of a pair.

An `Activity` is what the shell does with its input stack, nested to any depth. Its
characters are those of plain reading as long as no episode ends inside a pair
(`activity_reads_of_splitsNoPair`); an episode that does makes the second half of the
pair a second newline (`recognize_of_midPair`).
-/

namespace Basht.LineEnding

/-- A `struct stream_saver`: the suspended `bash_input`, of which only what its getter
has still to deliver matters here, and `line_number`. -/
structure StreamSaver where
  input : List UInt8
  line : Nat
deriving DecidableEq, Repr

/-- The parser's input globals: `bash_input`, `yy_le_cr` and `yy_le_lf`, `line_number`,
`EOF_Reached` and `stream_list`. -/
structure ParserInput where
  input : List UInt8
  le : LeState
  lineNumber : Nat
  eofReached : Bool
  streamList : List StreamSaver
deriving DecidableEq, Repr

namespace ParserInput

/-- `init_yy_io`: install an input and clear the line-ending flags. -/
def initYyIo (st : ParserInput) (input : List UInt8) : ParserInput :=
  { st with input := input, le := LeState.init }

/-- `with_input_from_string`. -/
def withInputFromString (st : ParserInput) (text : List UInt8) : ParserInput :=
  st.initYyIo text

/-- `push_stream`. The flags stay as they are until the nested input is installed. -/
def pushStream (st : ParserInput) (resetLineno : Bool) : ParserInput :=
  { st with
    streamList := ⟨st.input, st.lineNumber⟩ :: st.streamList
    eofReached := false
    lineNumber := if resetLineno then 0 else st.lineNumber }

/-- `pop_stream`. -/
def popStream (st : ParserInput) : ParserInput :=
  match st.streamList with
  | [] => { st with eofReached := true }
  | saver :: savers =>
    { st.initYyIo saver.input with
      eofReached := false
      streamList := savers
      lineNumber := saver.line }

/-- One call of `yy_getc` on the current input. -/
def getc (st : ParserInput) : Option UInt8 × ParserInput :=
  let r := yyGetc yyStringGet st.le st.input
  (r.1, { st with le := r.2.1, input := r.2.2 })

/-- The characters that `yy_getc` has still to return from the current input. -/
def chars (st : ParserInput) : List UInt8 := recognize st.le st.input

theorem getc_spec (st : ParserInput) :
    st.getc.1 = st.chars.head? ∧ st.getc.2.chars = st.chars.tail :=
  yyGetc_spec stringSource st.le st.input

/-- The flags say that the last character returned was the first half of a pair, and the
next byte is its second half. -/
def MidPair (st : ParserInput) : Prop :=
  st.le.cr = true ∧ st.input.head? = some LF ∨ st.le.lf = true ∧ st.input.head? = some CR

instance (st : ParserInput) : Decidable st.MidPair := inferInstanceAs (Decidable (_ ∨ _))

/-- The current input resumed after an episode: the same bytes with clear flags. -/
def resumed (st : ParserInput) : ParserInput := { st with le := LeState.init, eofReached := false }

end ParserInput

/-- What the shell does with the current input and those nested in it: calls of
`yy_getc`, and episodes in which it suspends the current input, works on a nested text
and resumes. -/
inductive Activity
  | done
  | getc (next : Activity)
  | nested (resetLineno : Bool) (text : List UInt8) (inner next : Activity)

namespace Activity

/-- The results of the calls of `yy_getc` on the current input (those on nested inputs
are not among them), and the state at the end. -/
def run : Activity → ParserInput → List (Option UInt8) × ParserInput
  | .done, st => ([], st)
  | .getc next, st =>
    let r := next.run st.getc.2
    (st.getc.1 :: r.1, r.2)
  | .nested resetLineno text inner next, st =>
    let st' := (st.pushStream resetLineno).withInputFromString text
    next.run (inner.run st').2.popStream

/-- How often `yy_getc` is called on the current input. -/
def calls : Activity → Nat
  | .done => 0
  | .getc next => next.calls + 1
  | .nested _ _ _ next => next.calls

/-- No episode on the current input ends between the two halves of a line ending: the
condition on the state before each episode. -/
def SplitsNoPair : Activity → ParserInput → Prop
  | .done, _ => True
  | .getc next, st => next.SplitsNoPair st.getc.2
  | .nested _ _ _ next, st => ¬ st.MidPair ∧ next.SplitsNoPair st.resumed

/-- Whatever happens on nested inputs leaves the suspended ones alone. -/
theorem run_streamList (a : Activity) (st : ParserInput) :
    (a.run st).2.streamList = st.streamList := by
  induction a generalizing st with
  | done => rfl
  | getc next ih => exact ih _
  | nested resetLineno text inner next ihi ihn =>
    rw [run, ihn, ParserInput.popStream, ihi]
    rfl

/-- An episode gives the input back as it was, but with clear flags. -/
theorem popStream_nested (a : Activity) (st : ParserInput) (resetLineno : Bool)
    (text : List UInt8) :
    (a.run ((st.pushStream resetLineno).withInputFromString text)).2.popStream = st.resumed := by
  rw [ParserInput.popStream, run_streamList]
  rfl

theorem run_nested (resetLineno : Bool) (text : List UInt8) (inner next : Activity)
    (st : ParserInput) :
    (Activity.nested resetLineno text inner next).run st = next.run st.resumed := by
  rw [run, popStream_nested]

end Activity

/-! ## Resuming inside and outside of a pair -/

/-- Clearing the flags changes nothing unless the next byte is the second half of a
pair. -/
theorem chars_resumed_of_not_midPair {st : ParserInput} (h : ¬ st.MidPair) :
    st.resumed.chars = st.chars := by
  obtain ⟨input, ⟨cr, lf⟩, _, _, _⟩ := st
  simp only [ParserInput.MidPair, not_or, not_and] at h
  obtain ⟨hcr, hlf⟩ := h
  simp only [ParserInput.chars, ParserInput.resumed]
  cases input with
  | nil => rfl
  | cons c bs =>
    rw [recognize_cons, recognize_cons]
    by_cases h1 : c = LF
    · subst h1
      obtain rfl : cr = false := by simpa using hcr
      rw [step_lf, step_lf]
      rfl
    · by_cases h2 : c = CR
      · subst h2
        obtain rfl : lf = false := by simpa using hlf
        rw [step_cr, step_cr]
        rfl
      · rw [step_other _ h2 h1, step_other _ h2 h1]

/-- Resumed inside a pair, the input yields the second half as a newline of its own;
read on without the episode, it does not. -/
theorem chars_of_midPair {st : ParserInput} (h : st.MidPair) :
    ∃ le, st.chars = recognize LeState.init st.input.tail ∧
      st.resumed.chars = LF :: recognize le st.input.tail := by
  obtain ⟨input, ⟨cr, lf⟩, _, _, _⟩ := st
  simp only [ParserInput.MidPair] at h
  simp only [ParserInput.chars, ParserInput.resumed]
  cases input with
  | nil => simp at h
  | cons c bs =>
    simp only [List.head?_cons, Option.some.injEq] at h
    rcases h with ⟨rfl, rfl⟩ | ⟨rfl, rfl⟩
    · exact ⟨⟨false, true⟩, rfl, rfl⟩
    · exact ⟨⟨true, false⟩, rfl, rfl⟩

/-- **Nested input.** When no episode on the current input ends between the two halves of
a line ending, `yy_getc` returns from the input what it returns with no episode at all:
the same characters, and so as many newlines. -/
theorem nested_input_reads_same (a : Activity) (st : ParserInput) (h : a.SplitsNoPair st) :
    (a.run st).1 = yyReads yyStringGet a.calls st.le st.input := by
  rw [show yyStringGet = stringSource.get from rfl, yyReads_eq]
  induction a generalizing st with
  | done => rfl
  | getc next ih =>
    obtain ⟨h1, h2⟩ := st.getc_spec
    have hnext := ih st.getc.2 h
    simp only [Activity.run, Activity.calls, List.range_succ_eq_map, List.map_cons, List.map_map,
      hnext, h1, List.head?_eq_getElem?]
    refine congrArg₂ _ rfl (List.map_congr_left fun k _ => ?_)
    have hk : st.getc.2.chars[k]? = st.chars[k + 1]? := by rw [h2, List.getElem?_tail]
    exact hk
  | nested resetLineno text inner next ihi ihn =>
    rw [Activity.run_nested, ihn st.resumed h.2]
    exact congrArg (fun l => (List.range next.calls).map fun k => l[k]?)
      (chars_resumed_of_not_midPair h.1)

/-- The shell reads a character and a line end, evaluates the text `x`, and reads on. -/
def evalAfterLine : Activity :=
  .getc (.getc (.nested true [120] (.getc (.getc .done)) (.getc .done)))

/-- In an LF script an evaluation after a line leaves the characters as they are. -/
theorem nested_input_reads_same_lf :
    (evalAfterLine.run ⟨[97, LF, 98], LeState.init, 1, false, []⟩).1 =
      yyReads yyStringGet 3 LeState.init [97, LF, 98] :=
  nested_input_reads_same evalAfterLine _ (by
    simp [evalAfterLine, Activity.SplitsNoPair, ParserInput.getc, ParserInput.MidPair,
      yyGetc_returned, yyTurn, yyStringGet, LeState.init, LF, CR])

/-- In a CR LF script the line end evaluated after counts twice. -/
theorem nested_input_splits_crlf :
    (evalAfterLine.run ⟨[97, CR, LF], LeState.init, 1, false, []⟩).1 =
        [some 97, some LF, some LF] ∧
      yyReads yyStringGet 3 LeState.init [97, CR, LF] = [some 97, some LF, none] := by
  refine ⟨?_, yyReads_eq stringSource 3 LeState.init [97, CR, LF]⟩
  simp [evalAfterLine, Activity.run, ParserInput.getc, ParserInput.pushStream,
    ParserInput.withInputFromString, ParserInput.initYyIo, ParserInput.popStream,
    yyGetc_returned, yyTurn, yyStringGet, LeState.init, LF, CR]

end Basht.LineEnding
