import Basht.LineEnding.InputLine

/-!
# A script and its commands share standard input

A script read from a regular file on standard input goes through a buffered stream
(`input.c`); before a command starts, `sync_buffered_stream` moves the descriptor back
over what was buffered and not read, so that the command reads on where the parser
stopped. The parser stops at the newline that `yy_getc` returned: with a two-byte ending
that is inside the ending.

* `SharedInput`: the file, the descriptor's offset and the buffer, with
  `bufferedGetchar` as a source of bytes (`bufferedSource`).
* `shell`: the shell that reads lines and starts commands, as a transducer over events.
* `sharing`: how the lines are to be dealt out, over the lines alone.
* `shares_iff`: the two agree exactly when the endings have one byte or no command is
  started right after a line was read.
-/

namespace Basht.LineEnding

/-! ## The buffered stream -/

/-- A regular file open on a descriptor at `offset`, and the `BUFFERED_STREAM` over it:
`buffer` is the part of `b_buffer` in use (`b_used` bytes), `inputp` is `b_inputp` and
`size` is `b_size`. The buffered bytes are those before the offset. -/
structure SharedInput where
  file : List UInt8
  offset : Nat
  buffer : List UInt8
  inputp : Nat
  size : Nat
  size_pos : 0 < size
  offset_le : offset ≤ file.length
  inputp_le : inputp ≤ buffer.length
  buffer_suffix : buffer <:+ file.take offset

namespace SharedInput

/-- `fd_to_buffered_stream` on a regular file; `maxSize` is `MAX_INPUT_BUFFER_SIZE`. -/
def openFile (maxSize : Nat) (file : List UInt8) : SharedInput where
  file := file
  offset := 0
  buffer := []
  inputp := 0
  size := if min file.length maxSize = 0 then 1 else min file.length maxSize
  size_pos := by split <;> omega
  offset_le := Nat.zero_le _
  inputp_le := Nat.le_refl _
  buffer_suffix := List.nil_suffix

/-- The bytes that `zread` returns at the current offset. -/
def chunk (st : SharedInput) : List UInt8 := (st.file.drop st.offset).take st.size

/-- `b_fill_buffer`. -/
def bFillBuffer (st : SharedInput) : Option UInt8 × SharedInput :=
  match h : st.chunk with
  | [] => (none, { st with
      buffer := []
      inputp := 0
      inputp_le := Nat.le_refl _
      buffer_suffix := List.nil_suffix })
  | c :: cs => (some c, { st with
      offset := st.offset + (c :: cs).length
      buffer := c :: cs
      inputp := 1
      offset_le := by
        rw [← h, chunk, List.length_take, List.length_drop]
        have := st.offset_le
        omega
      inputp_le := by simp
      buffer_suffix := by
        rw [List.take_add, ← h, chunk]
        exact ⟨st.file.take st.offset,
          congrArg _ (List.prefix_iff_eq_take.mp (List.take_prefix _ _))⟩ })

/-- `bufstream_getc`, by way of `buffered_getchar`. -/
def bufferedGetchar (st : SharedInput) : Option UInt8 × SharedInput :=
  if h : st.inputp = st.buffer.length ∨ st.buffer.length = 0 then st.bFillBuffer
  else
    have hlt : st.inputp < st.buffer.length := by have := st.inputp_le; omega
    (some st.buffer[st.inputp], { st with inputp := st.inputp + 1, inputp_le := hlt })

/-- `sync_buffered_stream`: seek back over the characters left in the buffer. -/
def syncBufferedStream (st : SharedInput) : SharedInput :=
  { st with
    offset := st.offset - (st.buffer.length - st.inputp)
    buffer := []
    inputp := 0
    offset_le := by have := st.offset_le; omega
    inputp_le := Nat.le_refl _
    buffer_suffix := List.nil_suffix }

/-- What the buffered stream has still to deliver. -/
def rest (st : SharedInput) : List UInt8 := st.buffer.drop st.inputp ++ st.file.drop st.offset

theorem bFillBuffer_spec (st : SharedInput) :
    st.bFillBuffer.1 = (st.file.drop st.offset).head? ∧
      st.bFillBuffer.2.rest = (st.file.drop st.offset).tail := by
  have hsize := st.size_pos
  obtain ⟨after, ha⟩ : st.chunk <+: st.file.drop st.offset := List.take_prefix _ _
  unfold bFillBuffer
  split
  · rename_i h
    have hnil : st.file.drop st.offset = [] := by
      rw [chunk, List.take_eq_nil_iff] at h
      exact h.resolve_left (by omega)
    simp [rest, hnil]
  · rename_i c cs h
    rw [h] at ha
    simp only [rest]
    rw [← List.drop_drop, ← ha, List.drop_left]
    exact ⟨rfl, rfl⟩

/-- The buffered stream delivers the file from the offset less what is buffered. -/
theorem bufferedGetchar_spec (st : SharedInput) :
    st.bufferedGetchar.1 = st.rest.head? ∧ st.bufferedGetchar.2.rest = st.rest.tail := by
  unfold bufferedGetchar
  split
  · rename_i h
    have hnil : st.buffer.drop st.inputp = [] :=
      List.drop_eq_nil_iff.mpr (by have := st.inputp_le; omega)
    rw [rest, hnil, List.nil_append]
    exact st.bFillBuffer_spec
  · rename_i h
    have hlt : st.inputp < st.buffer.length := by have := st.inputp_le; omega
    simp only [rest]
    rw [List.drop_eq_getElem_cons hlt]
    exact ⟨rfl, rfl⟩

theorem bufferedGetchar_file (st : SharedInput) : st.bufferedGetchar.2.file = st.file := by
  unfold bufferedGetchar bFillBuffer
  split
  · split <;> rfl
  · rfl

/-- After the seek the descriptor is where the parser stopped: it reads on what the
buffered stream would have delivered. -/
theorem rest_syncBufferedStream (st : SharedInput) :
    st.syncBufferedStream.rest = st.rest ∧
      st.syncBufferedStream.offset + st.rest.length = st.file.length := by
  obtain ⟨before, hb⟩ := st.buffer_suffix
  have hlen : before.length + st.buffer.length = st.offset := by
    have := congrArg List.length hb
    rw [List.length_append, List.length_take] at this
    have := st.offset_le
    omega
  have hfile : st.file.drop before.length = st.buffer ++ st.file.drop st.offset := by
    nth_rewrite 1 [← List.take_append_drop st.offset st.file]
    rw [← hb, List.append_assoc, List.drop_left]
  have hin := st.inputp_le
  have hoff := st.offset_le
  constructor
  · simp only [rest, syncBufferedStream, List.drop_nil, List.nil_append]
    rw [show st.offset - (st.buffer.length - st.inputp) = before.length + st.inputp by omega,
      ← List.drop_drop, hfile, List.drop_append_of_le_length hin]
  · simp only [rest, syncBufferedStream, List.length_append, List.length_drop]
    omega

/-- The buffered stream as a source of bytes for `yy_getc`. -/
def bufferedSource : ByteSource SharedInput where
  get := bufferedGetchar
  rest := rest
  get_fst st := st.bufferedGetchar_spec.1
  rest_get st := st.bufferedGetchar_spec.2

/-- A command has moved the descriptor while the buffer was empty. -/
def seek (st : SharedInput) (offset : Nat) (h : offset ≤ st.file.length) : SharedInput :=
  { st with
    offset := offset
    buffer := []
    inputp := 0
    offset_le := h
    inputp_le := Nat.le_refl _
    buffer_suffix := List.nil_suffix }

end SharedInput

/-! ## Lines read by a command -/

/-- A command reads a line from the descriptor: the bytes before the next `ending`, which
it takes too. -/
def readLine (ending : List UInt8) : List UInt8 → List UInt8 × List UInt8
  | [] => ([], [])
  | c :: bs =>
    if ending.isPrefixOf (c :: bs) then ([], (c :: bs).drop ending.length)
    else (c :: (readLine ending bs).1, (readLine ending bs).2)

/-- A command reads `n` lines, `none` standing for EOF. -/
def readLines (ending : List UInt8) : Nat → List UInt8 → List (Option (List UInt8)) × List UInt8
  | 0, bs => ([], bs)
  | n + 1, [] => (none :: (readLines ending n []).1, (readLines ending n []).2)
  | n + 1, c :: bs =>
    let r := readLine ending (c :: bs)
    (some r.1 :: (readLines ending n r.2).1, (readLines ending n r.2).2)

/-- From the start of a line of an encoded text a command reads that line. -/
theorem readLine_encode (style : Style) (l : Line) (ls : List Line) :
    readLine style.ending (encode style (l :: ls)) = (l.text, encode style ls) := by
  obtain ⟨text, hl⟩ := l
  rw [encode_cons, List.append_assoc]
  simp only
  induction text with
  | nil =>
    cases style <;> rfl
  | cons c cs ih =>
    obtain ⟨h1, h2⟩ := hl c List.mem_cons_self
    have hnot :
        style.ending.isPrefixOf (c :: (cs ++ (style.ending ++ encode style ls))) = false := by
      cases style <;> simp [Style.ending, List.isPrefixOf, Ne.symm h1, Ne.symm h2]
    rw [List.cons_append, readLine, hnot, ih (fun d hd => hl d (List.mem_cons_of_mem _ hd))]
    rfl

theorem readLines_encode (style : Style) (n : Nat) (ls : List Line) :
    readLines style.ending n (encode style ls) =
      ((List.range n).map fun i => ls[i]?.map Line.text, encode style (ls.drop n)) := by
  induction n generalizing ls with
  | zero => rfl
  | succ n ih =>
    rw [List.range_succ_eq_map, List.map_cons, List.map_map]
    cases ls with
    | nil =>
      have h := ih []
      rw [encode_nil] at h ⊢
      rw [readLines, h]
      simp [Function.comp_def]
    | cons l ls =>
      have hne : encode style (l :: ls) ≠ [] := by
        rw [encode_cons]
        cases style <;> simp [Style.ending]
      obtain ⟨c, bs, hcb⟩ := List.exists_cons_of_ne_nil hne
      have hline := readLine_encode style l ls
      rw [hcb] at hline ⊢
      simp [readLines, hline, ih, Function.comp_def]

/-! ## The shell and its commands -/

/-- What happens on the shared input: the parser reads a line, or a command starts and
reads `n` lines from the descriptor. -/
inductive Event
  | parse
  | command (n : Nat)

/-- What the parser and the commands see of it: the lines they receive (`none` at EOF),
and the offset of the descriptor when a command starts. -/
inductive Entry
  | parsed (line : Option (List UInt8))
  | started (offset : Nat)
  | received (line : Option (List UInt8))
deriving DecidableEq, Repr

/-- The shell's side: the buffered stream on standard input and the line-ending flags. -/
structure Shell where
  input : SharedInput
  le : LeState

/-- The shell when it opens its script. -/
def openShell (maxSize : Nat) (file : List UInt8) : Shell :=
  ⟨SharedInput.openFile maxSize file, LeState.init⟩

/-- The parser reads a line. -/
def Shell.parse (sh : Shell) : Shell × List Entry :=
  let r := shellLine SharedInput.bufferedSource sh.le sh.input
  (⟨r.2, r.1.le⟩, [.parsed (if r.1.newline || r.1.text ≠ [] then some r.1.text else none)])

/-- A command starts, after `sync_buffered_stream`, and reads `n` lines that end in
`ending`. -/
def Shell.command (ending : List UInt8) (sh : Shell) (n : Nat) : Shell × List Entry :=
  let st := sh.input.syncBufferedStream
  let r := readLines ending n (st.file.drop st.offset)
  (⟨st.seek (st.file.length - r.2.length) (Nat.sub_le _ _), sh.le⟩,
    .started st.offset :: r.1.map .received)

/-- The shell running a script whose commands read lines that end in `ending`. -/
def shell (ending : List UInt8) : Transducer Shell Event Entry where
  step sh
    | .parse => sh.parse
    | .command n => sh.command ending n

/-- How the lines of a text of `total` encoded bytes are to be dealt out. The state is
what is left of the text, and whether the last thing that happened is that the parser
read a line. -/
def sharing (style : Style) (total : Nat) : Transducer (List Line × Bool) Event Entry where
  step
    | ([], _), .parse => (([], false), [.parsed none])
    | (l :: ls, _), .parse => ((ls, true), [.parsed (some l.stored)])
    | (ls, _), .command n => ((ls.drop n, false),
        .started (total - (encode style ls).length) ::
          (List.range n).map fun i => .received (ls[i]?.map Line.text))

theorem sharing_step_command (style : Style) (total : Nat) (ls : List Line) (afterLine : Bool)
    (n : Nat) :
    (sharing style total).step (ls, afterLine) (.command n) =
      ((ls.drop n, false), .started (total - (encode style ls).length) ::
        (List.range n).map fun i => .received (ls[i]?.map Line.text)) := by
  cases ls <;> rfl

/-- The shell has what is left of the text before it: all of it between lines, or the
text behind the pending half of an ending right after a line. -/
structure Shell.HasLeft (style : Style) (total : Nat) (sh : Shell) (ls : List Line)
    (afterLine : Bool) : Prop where
  rest : sh.input.rest = (if afterLine then style.pendingHalf else []) ++ encode style ls
  flags : if afterLine then style.AfterLine sh.le else style.BetweenLines sh.le
  total : sh.input.file.length = total

theorem hasLeft_openShell (maxSize : Nat) (style : Style) (lines : List Line) :
    (openShell maxSize (encode style lines)).HasLeft style (encode style lines).length lines
      false where
  rest := rfl
  flags := style.betweenLines_init
  total := rfl

section Steps

variable {style : Style} {total : Nat} {sh : Shell} {ls : List Line} {afterLine : Bool}

theorem Shell.HasLeft.takeLine (h : sh.HasLeft style total ls afterLine) :
    ∃ le, style.BetweenLines le ∧
      takeLine sh.le sh.input.rest = LineEnding.takeLine le (encode style ls) := by
  obtain ⟨hrest, hflags, -⟩ := h
  rw [hrest]
  cases afterLine with
  | false => exact ⟨sh.le, hflags, rfl⟩
  | true => exact takeLine_pendingHalf style hflags _

theorem Shell.parse_file (sh : Shell) : sh.parse.1.input.file = sh.input.file :=
  shellLine_keeps SharedInput.bufferedSource (P := fun st => st.file = sh.input.file)
    (fun st h => st.bufferedGetchar_file.trans h) sh.le sh.input rfl

/-- The parser gets the next line, whatever state it finds the input in. -/
theorem Shell.HasLeft.parse (h : sh.HasLeft style total ls afterLine) :
    sh.parse.2 = ((sharing style total).step (ls, afterLine) .parse).2 ∧
      sh.parse.1.HasLeft style total ((sharing style total).step (ls, afterLine) .parse).1.1
        ((sharing style total).step (ls, afterLine) .parse).1.2 := by
  obtain ⟨le, hle, htake⟩ := h.takeLine
  have hline := shellLine_eq SharedInput.bufferedSource sh.le sh.input
  have hfile : sh.parse.1.input.file.length = total := by rw [sh.parse_file, h.total]
  change (_, sh.parse.1.input.rest) = LineEnding.takeLine sh.le sh.input.rest at hline
  rw [htake] at hline
  cases ls with
  | nil =>
    have hline' : (_, sh.parse.1.input.rest) = ((⟨[], false, LeState.init⟩ : LineRead), []) := hline
    obtain ⟨hread, hrest⟩ := Prod.mk.inj hline'
    refine ⟨?_, hrest, ?_, hfile⟩
    · simp only [Shell.parse, hread]
      rfl
    · simp only [Shell.parse, hread]
      exact style.betweenLines_init
  | cons l ls =>
    obtain ⟨le', hle', henc⟩ := takeLine_encode style l ls hle
    rw [henc] at hline
    obtain ⟨hread, hrest⟩ := Prod.mk.inj hline
    refine ⟨?_, hrest, ?_, hfile⟩
    · simp only [Shell.parse, hread]
      rfl
    · simp only [Shell.parse, hread]
      exact hle'

/-- A command that starts where no half of an ending is pending starts at the next line
and reads whole lines. -/
theorem Shell.HasLeft.command (h : sh.HasLeft style total ls afterLine)
    (hok : style.pendingHalf = [] ∨ afterLine = false) (n : Nat) :
    (sh.command style.ending n).2 = ((sharing style total).step (ls, afterLine) (.command n)).2 ∧
      (sh.command style.ending n).1.HasLeft style total (ls.drop n) false := by
  have hrest : sh.input.rest = encode style ls := by
    rw [h.rest]
    rcases hok with hp | rfl
    · simp [hp]
    · rfl
  have hflags : style.BetweenLines sh.le := by
    have hf := h.flags
    cases afterLine with
    | false => exact hf
    | true =>
      have hp := hok.resolve_right (by decide)
      cases style with
      | lf | cr => exact hf
      | crlf | lfcr => cases hp
  obtain ⟨hsync, hoffset⟩ := sh.input.rest_syncBufferedStream
  have hdrop : sh.input.syncBufferedStream.file.drop sh.input.syncBufferedStream.offset =
      encode style ls := hsync.trans hrest
  have hstart : sh.input.syncBufferedStream.offset = total - (encode style ls).length := by
    rw [← hrest, ← h.total]
    omega
  have hreads := readLines_encode style n ls
  have hsuffix : encode style (ls.drop n) <:+ sh.input.syncBufferedStream.file := by
    refine List.IsSuffix.trans ⟨encode style (ls.take n), ?_⟩
      (List.drop_suffix sh.input.syncBufferedStream.offset _)
    rw [hdrop, ← encode_append, List.take_append_drop]
  rw [sharing_step_command]
  refine ⟨?_, ?_, hflags, h.total⟩
  · simp only [Shell.command, hdrop, hreads, List.map_map]
    rw [hstart]
    rfl
  · simp only [Shell.command, hdrop, hreads]
    exact (List.suffix_iff_eq_drop.mp hsuffix).symm

/-- A command that starts right after a line with a two-byte ending starts one byte
early. -/
theorem Shell.HasLeft.command_inside (h : sh.HasLeft style total ls true)
    (hp : style.pendingHalf ≠ []) (n : Nat) :
    ∃ offset es, (sh.command style.ending n).2 = .started offset :: es ∧
      offset + 1 = total - (encode style ls).length := by
  have hoffset := sh.input.rest_syncBufferedStream.2
  refine ⟨_, _, rfl, ?_⟩
  have hlen : sh.input.rest.length = (encode style ls).length + 1 := by
    rw [h.rest]
    cases style with
    | lf | cr => exact absurd rfl hp
    | crlf | lfcr => rfl
  rw [h.total] at hoffset
  omega

end Steps

/-! ## Runs -/

/-- No command starts right after the parser has read a line. -/
def NoCommandAfterLine (style : Style) (total : Nat) (lines : List Line) (events : List Event) :
    Prop :=
  (sharing style total).Along (fun s e => ¬ (s.2 = true ∧ ∃ n, e = .command n)) (lines, false)
    events

theorem shell_output_iff {style : Style} {total : Nat} {sh : Shell} {ls : List Line}
    {afterLine : Bool} (h : sh.HasLeft style total ls afterLine) (events : List Event) :
    (shell style.ending).output sh events = (sharing style total).output (ls, afterLine) events ↔
      style.pendingHalf = [] ∨
        (sharing style total).Along (fun s e => ¬ (s.2 = true ∧ ∃ n, e = .command n))
          (ls, afterLine) events := by
  induction events generalizing sh ls afterLine with
  | nil => simp
  | cons e es ih =>
    rw [Transducer.output_cons, Transducer.output_cons, Transducer.along_cons]
    cases e with
    | parse =>
      obtain ⟨hentries, hleft⟩ := h.parse
      rw [show (shell style.ending).step sh .parse = sh.parse from rfl, hentries,
        List.append_cancel_left_eq, ih hleft]
      simp
    | command n =>
      rw [show (shell style.ending).step sh (.command n) = sh.command style.ending n from rfl]
      by_cases hok : style.pendingHalf = [] ∨ afterLine = false
      · obtain ⟨hentries, hleft⟩ := h.command hok n
        rw [hentries, List.append_cancel_left_eq, sharing_step_command, ih hleft]
        rcases hok with hp | rfl
        · simp [hp]
        · simp
      · obtain ⟨hp, ha⟩ := not_or.mp hok
        obtain rfl : afterLine = true := by simpa using ha
        obtain ⟨offset, es', hstarted, hoffset⟩ := h.command_inside hp n
        rw [hstarted, sharing_step_command]
        have hne : offset ≠ total - (encode style ls).length := by omega
        simp [hp, hne]

/-- The line an entry hands out, and whether the parser gets it. -/
def Entry.line : Entry → Option (Bool × Option (List UInt8))
  | .parsed line => some (true, line)
  | .received line => some (false, line)
  | .started _ => none

/-- Who receives which lines does not depend on the encoding. -/
theorem sharing_lines (style style' : Style) (total total' : Nat) (ls : List Line)
    (afterLine : Bool) (events : List Event) :
    ((sharing style total).output (ls, afterLine) events).filterMap Entry.line =
      ((sharing style' total').output (ls, afterLine) events).filterMap Entry.line := by
  induction events generalizing ls afterLine with
  | nil => rfl
  | cons e es ih =>
    rw [Transducer.output_cons, Transducer.output_cons, List.filterMap_append,
      List.filterMap_append]
    cases e with
    | parse => cases ls <;> exact congrArg _ (ih _ _)
    | command n =>
      rw [sharing_step_command, sharing_step_command]
      exact congrArg _ (ih _ _)

/-- The entries of a shell that runs the text as a script in the given encoding. -/
def shareLog (maxSize : Nat) (style : Style) (lines : List Line) (events : List Event) :
    List Entry :=
  (shell style.ending).output (openShell maxSize (encode style lines)) events

/-- A script and its commands share the input by lines: the entries are those of dealing
out whole lines, every command starting at the next one; and the lines received are those
received with the LF encoding. -/
def SharesByLines (maxSize : Nat) (style : Style) (lines : List Line) (events : List Event) :
    Prop :=
  shareLog maxSize style lines events =
      (sharing style (encode style lines).length).output (lines, false) events ∧
    (shareLog maxSize style lines events).filterMap Entry.line =
      (shareLog maxSize .lf lines events).filterMap Entry.line

theorem shareLog_iff (maxSize : Nat) (style : Style) (lines : List Line) (events : List Event) :
    shareLog maxSize style lines events =
        (sharing style (encode style lines).length).output (lines, false) events ↔
      style.pendingHalf = [] ∨ NoCommandAfterLine style (encode style lines).length lines events :=
  shell_output_iff (hasLeft_openShell maxSize style lines) events

/-- **Sharing standard input.** The script and its commands share the input by whole lines
exactly when line endings have one byte or no command starts right after the parser has
read a line. -/
theorem shared_input_by_lines_iff (maxSize : Nat) (style : Style) (lines : List Line)
    (events : List Event) :
    SharesByLines maxSize style lines events ↔
      (style = .lf ∨ style = .cr) ∨
        NoCommandAfterLine style (encode style lines).length lines events := by
  have hstyle : style.pendingHalf = [] ↔ style = .lf ∨ style = .cr := by
    cases style <;> simp [Style.pendingHalf]
  rw [← hstyle, ← shareLog_iff maxSize, SharesByLines]
  refine ⟨fun h => h.1, fun h => ⟨h, ?_⟩⟩
  rw [h, (shareLog_iff maxSize .lf lines events).mpr (Or.inl rfl)]
  exact sharing_lines _ _ _ _ _ _ _

/-- The script `a`, `b` with CR LF endings, whose first line starts a command that reads a
line. -/
theorem shared_input_crlf_splits :
    ¬ SharesByLines 8192 .crlf [⟨[97], by simp [CR, LF]⟩, ⟨[98], by simp [CR, LF]⟩]
      [.parse, .command 1] := by
  intro h
  rcases (shareLog_iff _ _ _ _).mp h.1 with hp | hcalm
  · cases hp
  · exact hcalm.2.1 ⟨rfl, 1, rfl⟩

end Basht.LineEnding
