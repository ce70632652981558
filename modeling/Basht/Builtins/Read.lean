import Mathlib.Tactic.Ring
import Basht.Words.GetWord

/-!
# The `read` builtin (`builtins/read.def`)

`read` collects the bytes up to a delimiter, and puts a `CTLESC` before each byte that a backslash
quotes, and before each `CTLESC` and `CTLNUL`, unless `IFS` contains these. If it put in any, all
are taken out by `dequote_string` before a variable is set. The locale is that of C, the input is
not a terminal, and neither `-n`, `-N` nor `-t` is given. The index into the bytes is an `int`.
-/

namespace Basht.Read

open Words

def BACKSLASH : Nat := 92

def NEWLINE : Nat := 10

/-- `raw` and `delim`, with `skip_ctlesc` and `skip_ctlnul`. -/
structure Mode where
  raw : Bool
  delim : Nat
  skipCtlesc : Bool
  skipCtlnul : Bool

/-- The mode for a value of `IFS`. -/
def Mode.ofIfs (raw : Bool) (delim : Nat) (ifsChars : List Nat) : Mode :=
  ⟨raw, delim, decide (CTLESC ∈ ifsChars), decide (CTLNUL ∈ ifsChars)⟩

/-- `input_string`, `pass_next` and `saw_escape`. -/
structure Reading where
  input : List Nat
  passNext : Bool
  sawEscape : Int

namespace Reading

def start : Reading := ⟨[], false, 0⟩

/-- `input_string[i++] = CTLESC`. -/
def escape (s : Reading) : Reading :=
  { s with input := s.input ++ [CTLESC], sawEscape := s.sawEscape + 1 }

/-- `input_string[i++] = c`. -/
def add (s : Reading) (c : Nat) : Reading := { s with input := s.input ++ [c] }

/-- Back up over the `CTLESC`. -/
def backUp (s : Reading) : Reading :=
  { s with input := s.input.dropLast, sawEscape := s.sawEscape - 1 }

end Reading

section

variable (m : Mode)

/-- One round of the loop of `read_builtin`: whether it is the last one, and the state. The test
whether there is room for four bytes more overflows if `i + 4` is no `int`. -/
def readByte (s : Reading) (c : Nat) : Option (Bool × Reading) :=
  if 2 ^ 31 ≤ s.input.length + 4 then none
  else if s.passNext then
    let s := { s with passNext := false }
    if c = NEWLINE ∨ c = 0 then
      some (false, if m.skipCtlesc = false ∧ s.input ≠ [] then s.backUp else s)
    else some (false, s.add c)
  else if c = BACKSLASH ∧ m.raw = false then
    let s := { s with passNext := true }
    some (false, if m.skipCtlesc = false then s.escape else s)
  else if c = m.delim then some (true, s)
  else if c = 0 ∧ m.delim ≠ 0 then some (false, s)
  else if (m.skipCtlesc = false ∧ c = CTLESC) ∨ (m.skipCtlnul = false ∧ c = CTLNUL) then
    some (false, s.escape.add c)
  else some (false, s.add c)

/-- The loop, up to the delimiter or the end of the input. -/
def readBytes : List Nat → Reading → Option Reading
  | [], s => some s
  | c :: rest, s => do
    let (last, s) ← readByte m s c
    if last then some s else readBytes rest s

/-- Behind the loop: a backslash at the end of the input is dropped. -/
def endInput (s : Reading) : Reading :=
  let s := if s.passNext ∧ m.skipCtlesc = false then s.backUp else s
  if m.skipCtlnul ∧ s.sawEscape ≠ 0 ∧ s.input = [CTLNUL] then { s with sawEscape := 0 } else s

end

/-- The value that `REPLY` is set to if there is no name. -/
def setReply (s : Reading) : List Nat :=
  if s.sawEscape ≠ 0 then dequoteString Locale.c.coding s.input else s.input

/-- The last byte that `strip_trailing_ifs_whitespace` leaves, searched for from `s` down. -/
def stripFrom (ifs string : List Nat) (sawEscape : Bool) : Nat → Nat
  | 0 => 0
  | s + 1 =>
    let c := string.getD (s + 1) 0
    if (ifsWhitespace c && isifs ifs c) ||
        (sawEscape && decide (c = CTLESC) && spctabnl (string.getD (s + 2) 0)) then
      stripFrom ifs string sawEscape s
    else s + 1

/-- `strip_trailing_ifs_whitespace`, for a string that is not empty. -/
def stripTrailingIfsWhitespace (ifs string : List Nat) (sawEscape : Bool) : List Nat :=
  string.take (stripFrom ifs string sawEscape (string.length - 1) + 1)

/-- The value that the only name is set to. -/
def setName (ifsChars : List Nat) (s : Reading) : Option (List Nat) :=
  let string := s.input.dropWhile fun c => spctabnl c && isifs ifsChars c
  if string = [] then some []
  else do
    let cut ← getWordFromString Locale.c.coding string ifsChars
    let value :=
      if cut.string = [] then cut.word.getD []
      else stripTrailingIfsWhitespace ifsChars string (s.sawEscape ≠ 0)
    some (if s.sawEscape ≠ 0 ∧ value ≠ [] then dequoteString Locale.c.coding value else value)

/-- `read` without a name. -/
def readReply (ifsChars : List Nat) (raw : Bool) (delim : Nat) (record : List Nat) :
    Option (List Nat) := do
  let m := Mode.ofIfs raw delim ifsChars
  let s ← readBytes m record .start
  some (setReply (endInput m s))

/-- `read` with one name. -/
def readName (ifsChars : List Nat) (raw : Bool) (delim : Nat) (record : List Nat) :
    Option (List Nat) := do
  let m := Mode.ofIfs raw delim ifsChars
  let s ← readBytes m record .start
  setName ifsChars (endInput m s)

/-! ## What is read -/

section

variable (raw : Bool) (delim : Nat)

/-- The bytes of a record, up to the delimiter, that are read, and whether a backslash quotes
them; `pass` says that there is one before the record. Null bytes are left out, and so is a
backslash with a newline or a null byte behind it. -/
def kept : Bool → List Nat → List (Bool × Nat)
  | _, [] => []
  | true, c :: rest =>
    if c = NEWLINE ∨ c = 0 then kept false rest else (true, c) :: kept false rest
  | false, c :: rest =>
    if c = BACKSLASH ∧ raw = false then kept true rest
    else if c = delim then []
    else if c = 0 then kept false rest
    else (false, c) :: kept false rest

/-- The bytes that are to be read. -/
def reply (record : List Nat) : List Nat := (kept raw delim false record).map Prod.snd

end

/-- Does a byte get a `CTLESC`? -/
def Mode.marks (m : Mode) (k : Bool × Nat) : Bool :=
  (!m.skipCtlesc && k.1) ||
    (!k.1 && ((!m.skipCtlesc && decide (k.2 = CTLESC)) || (!m.skipCtlnul && decide (k.2 = CTLNUL))))

/-- A byte as it is stored. -/
def Mode.stored (m : Mode) (k : Bool × Nat) : List Nat := if m.marks k then [CTLESC, k.2] else [k.2]

/-- Whenever another byte is read, `n` bytes are stored, and four more are an `int`. -/
def Mode.Fits (m : Mode) : Nat → Bool → List Nat → Prop
  | _, _, [] => True
  | n, true, c :: rest =>
    let e := if m.skipCtlesc then 0 else 1
    n + e + 4 < 2 ^ 31 ∧
      (if c = NEWLINE ∨ c = 0 then m.Fits n false rest
      else m.Fits (n + (m.stored (true, c)).length) false rest)
  | n, false, c :: rest =>
    n + 4 < 2 ^ 31 ∧
      (if c = BACKSLASH ∧ m.raw = false then m.Fits n true rest
      else if c = m.delim then True
      else if c = 0 then m.Fits n false rest
      else m.Fits (n + (m.stored (false, c)).length) false rest)

/-- Each `CTLESC` but the last byte is directly before a `CTLNUL` that no backslash quotes. -/
def Covered : List (Bool × Nat) → Prop
  | [] => True
  | [_] => True
  | k :: k' :: ks => (k.2 = CTLESC → k' = (false, CTLNUL)) ∧ Covered (k' :: ks)

/-- `IFS` has `CTLESC` but not `CTLNUL`, so that the bytes `CTLESC` that are read are not told from
those put in before the bytes `CTLNUL`. -/
def Confused (ifsChars : List Nat) (ks : List (Bool × Nat)) : Prop :=
  CTLESC ∈ ifsChars ∧ CTLNUL ∉ ifsChars ∧ (false, CTLNUL) ∈ ks ∧ ¬Covered ks

/-! ## The loop -/

/-- The state behind the bytes `ks`, and behind a backslash if `pass` holds. -/
def Mode.reading (m : Mode) (ks : List (Bool × Nat)) (pass : Bool) : Reading where
  input := ks.flatMap m.stored ++ if pass ∧ m.skipCtlesc = false then [CTLESC] else []
  passNext := pass
  sawEscape := ks.countP m.marks + if pass ∧ m.skipCtlesc = false then 1 else 0

variable {m : Mode} {ks : List (Bool × Nat)} {pass : Bool} {c : Nat} {k : Bool × Nat}

theorem length_reading (m : Mode) (ks : List (Bool × Nat)) (pass : Bool) :
    (m.reading ks pass).input.length = (ks.flatMap m.stored).length +
      if pass ∧ m.skipCtlesc = false then 1 else 0 := by
  unfold Mode.reading
  rw [List.length_append]
  split <;> rfl

theorem reading_cons (m : Mode) (ks : List (Bool × Nat)) (k : Bool × Nat) :
    m.reading (ks ++ [k]) false =
      ⟨(ks.flatMap m.stored) ++ m.stored k, false,
        ks.countP m.marks + if m.marks k then 1 else 0⟩ := by
  unfold Mode.reading
  simp only [List.flatMap_append, List.flatMap_singleton, List.countP_append, Bool.false_eq_true,
    false_and, if_false, List.append_nil, Int.add_zero]
  congr 1
  by_cases hk : m.marks k = true
  · simp [hk]
  · simp [hk]

/-- A byte behind a backslash. -/
theorem readByte_pass (hfits : (m.reading ks true).input.length + 4 < 2 ^ 31) (c : Nat) :
    readByte m (m.reading ks true) c = some (false,
      if c = NEWLINE ∨ c = 0 then m.reading ks false else m.reading (ks ++ [(true, c)]) false) := by
  unfold readByte
  rw [if_neg (Nat.not_le.mpr hfits), if_pos (show (m.reading ks true).passNext = true from rfl)]
  by_cases hc : c = NEWLINE ∨ c = 0
  · rw [if_pos hc, if_pos hc]
    cases hskip : m.skipCtlesc with
    | false => simp [Mode.reading, Reading.backUp, hskip]
    | true => simp [Mode.reading, hskip]
  · rw [if_neg hc, if_neg hc, reading_cons]
    cases hskip : m.skipCtlesc with
    | false => simp [Mode.reading, Reading.add, Mode.stored, Mode.marks, hskip]
    | true => simp [Mode.reading, Reading.add, Mode.stored, Mode.marks, hskip]

theorem marks_false : m.marks (false, c) = true ↔
    (m.skipCtlesc = false ∧ c = CTLESC) ∨ (m.skipCtlnul = false ∧ c = CTLNUL) := by
  simp [Mode.marks]

/-- A byte with no backslash before it. -/
theorem readByte_plain (hfits : (m.reading ks false).input.length + 4 < 2 ^ 31) (c : Nat) :
    readByte m (m.reading ks false) c =
      if c = BACKSLASH ∧ m.raw = false then some (false, m.reading ks true)
      else if c = m.delim then some (true, m.reading ks false)
      else if c = 0 then some (false, m.reading ks false)
      else some (false, m.reading (ks ++ [(false, c)]) false) := by
  have hpass : ¬(m.reading ks false).passNext = true := Bool.false_ne_true
  unfold readByte
  rw [if_neg (Nat.not_le.mpr hfits), if_neg hpass]
  by_cases hback : c = BACKSLASH ∧ m.raw = false
  · rw [if_pos hback, if_pos hback]
    cases hskip : m.skipCtlesc with
    | false => simp [Mode.reading, Reading.escape, hskip]
    | true => simp [Mode.reading, hskip]
  · rw [if_neg hback, if_neg hback]
    by_cases hdelim : c = m.delim
    · rw [if_pos hdelim, if_pos hdelim]
    · rw [if_neg hdelim, if_neg hdelim]
      by_cases hnull : c = 0
      · rw [if_pos hnull, if_pos ⟨hnull, fun h => hdelim (hnull.trans h.symm)⟩]
      · rw [if_neg hnull, if_neg (fun h => hnull h.1), reading_cons]
        by_cases hmark : m.marks (false, c) = true
        · rw [if_pos (marks_false.mp hmark)]
          simp [Mode.reading, Reading.escape, Reading.add, Mode.stored, hmark]
        · rw [if_neg (fun h => hmark (marks_false.mpr h))]
          simp [Mode.reading, Reading.add, Mode.stored, hmark]

theorem readBytes_cons {s t : Reading} {last : Bool} (h : readByte m s c = some (last, t))
    (rest : List Nat) :
    readBytes m (c :: rest) s = if last then some t else readBytes m rest t := by
  rw [readBytes, h]
  rfl

theorem readBytes_overflow {s : Reading} (h : ¬s.input.length + 4 < 2 ^ 31) (rest : List Nat) :
    readBytes m (c :: rest) s = none := by
  rw [readBytes, readByte, if_pos (Nat.not_lt.mp h)]
  rfl

theorem length_stored (m : Mode) (ks : List (Bool × Nat)) (k : Bool × Nat) :
    ((ks ++ [k]).flatMap m.stored).length = (ks.flatMap m.stored).length + (m.stored k).length := by
  rw [List.flatMap_append, List.length_append, List.flatMap_singleton]

theorem length_reading_true (m : Mode) (ks : List (Bool × Nat)) :
    (m.reading ks true).input.length =
      (ks.flatMap m.stored).length + if m.skipCtlesc then 0 else 1 := by
  rw [length_reading]
  cases m.skipCtlesc <;> rfl

theorem length_reading_false (m : Mode) (ks : List (Bool × Nat)) :
    (m.reading ks false).input.length = (ks.flatMap m.stored).length := by
  rw [length_reading, if_neg (fun h => Bool.false_ne_true h.1), Nat.add_zero]

/-- If everything fits, all bytes that are to be read are stored. -/
theorem readBytes_eq (ks : List (Bool × Nat)) (record : List Nat)
    (hfits : m.Fits (ks.flatMap m.stored).length pass record) :
    ∃ p, readBytes m record (m.reading ks pass) =
      some (m.reading (ks ++ kept m.raw m.delim pass record) p) := by
  induction record generalizing ks pass with
  | nil =>
    refine ⟨pass, ?_⟩
    rw [kept, List.append_nil]
    rfl
  | cons c rest ih =>
    cases pass with
    | true =>
      obtain ⟨hlen, hrest⟩ := hfits
      rw [← length_reading_true] at hlen
      rw [readBytes_cons (readByte_pass hlen c), kept, if_neg Bool.false_ne_true]
      by_cases hc : c = NEWLINE ∨ c = 0
      · rw [if_pos hc] at hrest ⊢
        rw [if_pos hc]
        exact ih _ hrest
      · rw [if_neg hc] at hrest ⊢
        rw [if_neg hc]
        rw [← length_stored] at hrest
        obtain ⟨p, hp⟩ := ih _ hrest
        rw [List.append_assoc] at hp
        exact ⟨p, hp⟩
    | false =>
      obtain ⟨hlen, hrest⟩ := hfits
      rw [← length_reading_false] at hlen
      have hstep := readByte_plain hlen c
      rw [kept]
      by_cases hback : c = BACKSLASH ∧ m.raw = false
      · rw [if_pos hback] at hrest hstep ⊢
        rw [readBytes_cons hstep]
        exact ih _ hrest
      · rw [if_neg hback] at hrest hstep ⊢
        by_cases hdelim : c = m.delim
        · rw [if_pos hdelim] at hstep ⊢
          rw [readBytes_cons hstep, List.append_nil]
          exact ⟨false, rfl⟩
        · rw [if_neg hdelim] at hrest hstep ⊢
          by_cases hnull : c = 0
          · rw [if_pos hnull] at hrest hstep ⊢
            rw [readBytes_cons hstep]
            exact ih _ hrest
          · rw [if_neg hnull] at hrest hstep ⊢
            rw [readBytes_cons hstep]
            rw [← length_stored] at hrest
            obtain ⟨p, hp⟩ := ih _ hrest
            rw [List.append_assoc] at hp
            exact ⟨p, hp⟩

/-- Otherwise the test whether there is room overflows. -/
theorem readBytes_none (ks : List (Bool × Nat)) (record : List Nat)
    (hfits : ¬m.Fits (ks.flatMap m.stored).length pass record) :
    readBytes m record (m.reading ks pass) = none := by
  induction record generalizing ks pass with
  | nil => exact absurd trivial hfits
  | cons c rest ih =>
    cases pass with
    | true =>
      by_cases hlen : (m.reading ks true).input.length + 4 < 2 ^ 31
      · rw [readBytes_cons (readByte_pass hlen c), if_neg Bool.false_ne_true]
        rw [length_reading_true] at hlen
        have hrest := fun h => hfits ⟨hlen, h⟩
        by_cases hc : c = NEWLINE ∨ c = 0
        · rw [if_pos hc] at hrest ⊢
          exact ih _ hrest
        · rw [if_neg hc] at hrest ⊢
          rw [← length_stored] at hrest
          exact ih _ hrest
      · exact readBytes_overflow hlen rest
    | false =>
      by_cases hlen : (m.reading ks false).input.length + 4 < 2 ^ 31
      · have hstep := readByte_plain hlen c
        rw [length_reading_false] at hlen
        have hrest := fun h => hfits ⟨hlen, h⟩
        by_cases hback : c = BACKSLASH ∧ m.raw = false
        · rw [if_pos hback] at hrest hstep
          rw [readBytes_cons hstep]
          exact ih _ hrest
        · rw [if_neg hback] at hrest hstep
          by_cases hdelim : c = m.delim
          · rw [if_pos hdelim] at hrest
            exact absurd trivial hrest
          · rw [if_neg hdelim] at hrest hstep
            by_cases hnull : c = 0
            · rw [if_pos hnull] at hrest hstep
              rw [readBytes_cons hstep]
              exact ih _ hrest
            · rw [if_neg hnull] at hrest hstep
              rw [readBytes_cons hstep]
              rw [← length_stored] at hrest
              exact ih _ hrest
      · exact readBytes_overflow hlen rest

/-! ## Behind the loop -/

/-- The bytes `ks` as they are stored. -/
def Mode.text (m : Mode) (ks : List (Bool × Nat)) : List Nat := ks.flatMap m.stored

theorem text_cons (m : Mode) (k : Bool × Nat) (ks : List (Bool × Nat)) :
    m.text (k :: ks) = m.stored k ++ m.text ks := List.flatMap_cons

theorem stored_marked (hk : m.marks k = true) : m.stored k = [CTLESC, k.2] := if_pos hk

theorem stored_plain (hk : ¬m.marks k = true) : m.stored k = [k.2] := if_neg hk

/-- A byte with a `CTLESC` is not stored alone. -/
theorem countP_marks_eq_zero (h : m.text ks = [c]) : ks.countP m.marks = 0 := by
  cases ks with
  | nil => rfl
  | cons k ks =>
    rw [text_cons] at h
    by_cases hk : m.marks k = true
    · rw [stored_marked hk] at h
      cases h
    · rw [stored_plain hk] at h
      have htext : m.text ks = [] := (List.cons.inj h).2
      cases ks with
      | nil => rw [List.countP_cons_of_neg hk, List.countP_nil]
      | cons k' ks =>
        rw [text_cons] at htext
        unfold Mode.stored at htext
        split at htext
        · cases htext
        · cases htext

/-- What is read, behind the loop. -/
theorem endInput_reading (m : Mode) (ks : List (Bool × Nat)) (p : Bool) :
    (endInput m (m.reading ks p)).input = m.text ks ∧
      (endInput m (m.reading ks p)).sawEscape = ks.countP m.marks := by
  have hback : (if (m.reading ks p).passNext ∧ m.skipCtlesc = false then (m.reading ks p).backUp
      else m.reading ks p) = ⟨m.text ks, p, ks.countP m.marks⟩ := by
    cases p with
    | false => simp [Mode.reading, Mode.text]
    | true =>
      cases hskip : m.skipCtlesc with
      | false => simp [Mode.reading, Reading.backUp, Mode.text, hskip]
      | true => simp [Mode.reading, Mode.text, hskip]
  unfold endInput
  rw [hback, if_neg]
  · exact ⟨rfl, rfl⟩
  · rintro ⟨-, hsaw, hinput⟩
    exact hsaw (by rw [countP_marks_eq_zero hinput]; rfl)

/-- The bytes of `ks` as a variable is set to them. -/
def Mode.value (m : Mode) (ks : List (Bool × Nat)) : List Nat :=
  if ks.countP m.marks = 0 then m.text ks else unescape (fun _ => true) (m.text ks)

theorem dequoteString_text (hne : ks.countP m.marks ≠ 0) :
    dequoteString Locale.c.coding (m.text ks) = m.value ks := by
  rw [Mode.value, if_neg hne, dequoteString_eq, if_neg]
  intro hnull
  exact hne (countP_marks_eq_zero (of_decide_eq_true hnull))

theorem readBytes_cases (m : Mode) (record : List Nat) :
    (¬m.Fits 0 false record ∧ readBytes m record .start = none) ∨
    (m.Fits 0 false record ∧ ∃ s, readBytes m record .start = some s ∧
      (endInput m s).input = m.text (kept m.raw m.delim false record) ∧
      (endInput m s).sawEscape = (kept m.raw m.delim false record).countP m.marks) := by
  by_cases hfits : m.Fits 0 false record
  · right
    obtain ⟨p, hp⟩ := readBytes_eq [] record hfits
    exact ⟨hfits, _, hp, endInput_reading m _ p⟩
  · exact Or.inl ⟨hfits, readBytes_none [] record hfits⟩

/-- `REPLY`, if everything fits. -/
theorem readReply_iff (ifsChars : List Nat) (raw : Bool) (delim : Nat) (record value : List Nat) :
    readReply ifsChars raw delim record = some value ↔
      (Mode.ofIfs raw delim ifsChars).Fits 0 false record ∧
        (Mode.ofIfs raw delim ifsChars).value (kept raw delim false record) = value := by
  unfold readReply
  dsimp only
  generalize hm : Mode.ofIfs raw delim ifsChars = m
  have hraw : m.raw = raw := by rw [← hm]; rfl
  have hdelim : m.delim = delim := by rw [← hm]; rfl
  rcases readBytes_cases m record with ⟨hfits, hnone⟩ | ⟨hfits, s, hs, hinput, hsaw⟩
  · rw [hnone]
    exact ⟨nofun, fun h => absurd h.1 hfits⟩
  · rw [hs]
    rw [hraw, hdelim] at hinput hsaw
    have hreply : setReply (endInput m s) = m.value (kept raw delim false record) := by
      unfold setReply
      rw [hinput, hsaw]
      by_cases hne : (kept raw delim false record).countP m.marks = 0
      · rw [if_neg (fun h => h (by rw [hne]; rfl)), Mode.value, if_pos hne]
      · rw [if_pos (fun h => hne (Int.ofNat_eq_zero.mp h)), dequoteString_text hne]
    change some (setReply (endInput m s)) = some value ↔ _
    rw [hreply, Option.some_inj]
    exact ⟨fun h => ⟨hfits, h⟩, fun h => h.2⟩

/-! ## The bytes of a variable -/

theorem unescape_esc (c : Nat) (s : List Nat) :
    unescape (fun _ => true) (CTLESC :: c :: s) = c :: unescape (fun _ => true) s := by
  rw [unescape, if_pos ⟨rfl, rfl⟩]

/-- If `IFS` has no `CTLESC`, each byte is told from those put in. -/
theorem unescape_text (hskip : m.skipCtlesc = false) (ks : List (Bool × Nat)) :
    unescape (fun _ => true) (m.text ks) = ks.map Prod.snd := by
  induction ks with
  | nil => rfl
  | cons k ks ih =>
    rw [text_cons, List.map_cons, ← ih]
    by_cases hk : m.marks k = true
    · rw [stored_marked hk]
      exact unescape_esc k.2 _
    · have hne : k.2 ≠ CTLESC := by
        intro heq
        apply hk
        cases hquoted : k.1 <;> simp [Mode.marks, hskip, hquoted, heq]
      rw [stored_plain hk]
      exact unescape_cons_of_ne hne _

theorem text_unmarked (h : ks.countP m.marks = 0) : m.text ks = ks.map Prod.snd := by
  induction ks with
  | nil => rfl
  | cons k ks ih =>
    have hk : ¬m.marks k = true := List.countP_eq_zero.mp h k (by simp)
    rw [List.countP_cons_of_neg hk] at h
    rw [text_cons, stored_plain hk, ih h]
    rfl

theorem unescape_text_singleton (k : Bool × Nat) :
    unescape (fun _ => true) (m.text [k]) = [k.2] := by
  rw [text_cons]
  by_cases hk : m.marks k = true
  · rw [stored_marked hk]
    exact unescape_esc k.2 []
  · rw [stored_plain hk]
    rfl

section

variable (hesc : m.skipCtlesc = true) (hnul : m.skipCtlnul = false)

include hesc hnul

theorem marks_iff : m.marks k = true ↔ k = (false, CTLNUL) := by
  obtain ⟨quoted, c⟩ := k
  cases quoted <;> simp [Mode.marks, hesc, hnul]

/-- A `CTLESC` that is read takes the byte behind it for a quoted one. -/
theorem unescape_text_cons (k k' : Bool × Nat) (ks : List (Bool × Nat)) :
    unescape (fun _ => true) (m.text (k :: k' :: ks)) =
      if k.2 = CTLESC ∧ k' ≠ (false, CTLNUL) then
        k'.2 :: unescape (fun _ => true) (m.text ks)
      else k.2 :: unescape (fun _ => true) (m.text (k' :: ks)) := by
  by_cases hk : m.marks k = true
  · have hnull : k = (false, CTLNUL) := (marks_iff hesc hnul).mp hk
    rw [if_neg, text_cons, stored_marked hk]
    · exact unescape_esc k.2 _
    · rw [hnull]
      exact fun h => absurd h.1 (by decide)
  · rw [text_cons, stored_plain hk]
    by_cases hlead : k.2 = CTLESC
    · by_cases hk' : k' = (false, CTLNUL)
      · have hmark : m.marks k' = true := (marks_iff hesc hnul).mpr hk'
        rw [if_neg (fun h => h.2 hk'), text_cons, stored_marked hmark, hlead, hk']
        calc unescape (fun _ => true) (CTLESC :: CTLESC :: CTLNUL :: m.text ks)
          _ = CTLESC :: unescape (fun _ => true) (CTLNUL :: m.text ks) := unescape_esc _ _
          _ = CTLESC :: CTLNUL :: unescape (fun _ => true) (m.text ks) := by
            rw [unescape_cons_of_ne (by decide : CTLNUL ≠ CTLESC)]
          _ = CTLESC :: unescape (fun _ => true) (CTLESC :: CTLNUL :: m.text ks) := by
            rw [unescape_esc]
      · have hmark : ¬m.marks k' = true := fun h => hk' ((marks_iff hesc hnul).mp h)
        rw [if_pos ⟨hlead, hk'⟩, text_cons, stored_plain hmark, hlead]
        exact unescape_esc k'.2 _
    · rw [if_neg (fun h => hlead h.1)]
      exact unescape_cons_of_ne hlead _

theorem length_unescape_text (ks : List (Bool × Nat)) :
    (unescape (fun _ => true) (m.text ks)).length ≤ ks.length := by
  induction ks using List.twoStepInduction with
  | nil => exact Nat.le_refl 0
  | singleton k => rw [unescape_text_singleton]; exact Nat.le_refl 1
  | cons_cons k k' ks ih ih' =>
    rw [unescape_text_cons hesc hnul]
    split
    · exact Nat.succ_le_succ (Nat.le_succ_of_le ih)
    · exact Nat.succ_le_succ (ih' k')

/-- The bytes are those that were read unless one is taken for a `CTLESC` that was put in. -/
theorem unescape_text_iff (ks : List (Bool × Nat)) :
    unescape (fun _ => true) (m.text ks) = ks.map Prod.snd ↔ Covered ks := by
  induction ks using List.twoStepInduction with
  | nil => exact ⟨fun _ => trivial, fun _ => rfl⟩
  | singleton k =>
    rw [unescape_text_singleton]
    exact ⟨fun _ => trivial, fun _ => rfl⟩
  | cons_cons k k' ks _ ih =>
    rw [unescape_text_cons hesc hnul, Covered]
    by_cases hlead : k.2 = CTLESC ∧ k' ≠ (false, CTLNUL)
    · rw [if_pos hlead]
      constructor
      · intro heq
        -- a byte is missing
        have hlen := length_unescape_text hesc hnul ks
        have hlost := congrArg List.length heq
        rw [List.length_cons, List.length_map, List.length_cons, List.length_cons] at hlost
        omega
      · rintro ⟨h, -⟩
        exact absurd (h hlead.1) hlead.2
    · rw [if_neg hlead, List.map_cons, List.cons_inj_right, ih k']
      exact ⟨fun h => ⟨fun heq => not_not.mp fun hne => hlead ⟨heq, hne⟩, h⟩, fun h => h.2⟩

end

/-- The bytes that are to be read, unless `IFS` confuses them. -/
theorem value_iff (ifsChars : List Nat) (raw : Bool) (delim : Nat) (ks : List (Bool × Nat)) :
    (Mode.ofIfs raw delim ifsChars).value ks = ks.map Prod.snd ↔ ¬Confused ifsChars ks := by
  by_cases hesc : CTLESC ∈ ifsChars
  · have hskip : (Mode.ofIfs raw delim ifsChars).skipCtlesc = true := decide_eq_true hesc
    by_cases hnul : CTLNUL ∈ ifsChars
    · have hskip' : (Mode.ofIfs raw delim ifsChars).skipCtlnul = true := decide_eq_true hnul
      have hnone : ks.countP (Mode.ofIfs raw delim ifsChars).marks = 0 := by
        rw [List.countP_eq_zero]
        intro k _
        simp [Mode.marks, hskip, hskip']
      rw [Mode.value, if_pos hnone]
      exact ⟨fun _ h => h.2.1 hnul, fun _ => text_unmarked hnone⟩
    · have hskip' : (Mode.ofIfs raw delim ifsChars).skipCtlnul = false := decide_eq_false hnul
      by_cases hnone : ks.countP (Mode.ofIfs raw delim ifsChars).marks = 0
      · rw [Mode.value, if_pos hnone]
        refine ⟨fun _ h => ?_, fun _ => text_unmarked hnone⟩
        exact List.countP_eq_zero.mp hnone _ h.2.2.1 ((marks_iff hskip hskip').mpr rfl)
      · have hmem : (false, CTLNUL) ∈ ks := by
          obtain ⟨k, hk, hmark⟩ := List.countP_pos_iff.mp (Nat.pos_of_ne_zero hnone)
          rw [← (marks_iff hskip hskip').mp hmark]
          exact hk
        rw [Mode.value, if_neg hnone, unescape_text_iff hskip hskip']
        exact ⟨fun h h' => h'.2.2.2 h, fun h => not_not.mp fun h' => h ⟨hesc, hnul, hmem, h'⟩⟩
  · have hskip : (Mode.ofIfs raw delim ifsChars).skipCtlesc = false := decide_eq_false hesc
    refine ⟨fun _ h => hesc h.1, fun _ => ?_⟩
    unfold Mode.value
    split
    · rename_i hnone
      exact text_unmarked hnone
    · exact unescape_text hskip ks

theorem covered_of_forall_ne (h : ∀ k ∈ ks, k.2 ≠ CTLESC) : Covered ks := by
  induction ks with
  | nil => trivial
  | cons k ks ih =>
    obtain ⟨hk, hks⟩ := List.forall_mem_cons.mp h
    cases ks with
    | nil => trivial
    | cons k' ks => exact ⟨fun heq => absurd heq hk, ih hks⟩

/-! ## A name -/

theorem kept_raw (delim : Nat) (record : List Nat) :
    ∀ k ∈ kept true delim false record, k.1 = false := by
  induction record with
  | nil => exact fun k hk => absurd hk List.not_mem_nil
  | cons c rest ih =>
    rw [kept, if_neg (fun h => absurd h.2 (by decide))]
    split
    · exact fun k hk => absurd hk List.not_mem_nil
    · split
      · exact ih
      · exact List.forall_mem_cons.mpr ⟨rfl, ih⟩

theorem dropWhile_text {p : Nat → Bool} (hesc : p CTLESC = false)
    (h : ∀ k ∈ ks, p k.2 = false) : (m.text ks).dropWhile p = m.text ks := by
  cases ks with
  | nil => rfl
  | cons k ks =>
    rw [text_cons]
    by_cases hk : m.marks k = true
    · rw [stored_marked hk]
      exact List.dropWhile_cons_of_neg (by rw [hesc]; exact Bool.false_ne_true)
    · rw [stored_plain hk]
      exact List.dropWhile_cons_of_neg (by rw [h k (by simp)]; exact Bool.false_ne_true)

theorem isSeparator_byte {ifsChars : List Nat} (hc : c ∉ ifsChars) :
    isSeparator Coding.bytes ifsChars [c] = some false := by
  have hlen : Coding.bytes.len [c] = 1 := rfl
  rw [isSeparator, if_neg (by rw [hlen]; exact Nat.lt_irrefl 1)]
  exact congrArg some (decide_eq_false hc)

section

variable {ifsChars : List Nat} {delim : Nat}

/-- A word goes to the end, over the bytes that have a `CTLESC`. -/
theorem extractUnits_text (hplain : ∀ k ∈ ks, k.1 = false) (hifs : ∀ k ∈ ks, k.2 ∉ ifsChars) :
    extractUnits Coding.bytes ifsChars (decide (CTLESC ∈ ifsChars)) (decide (CTLNUL ∈ ifsChars))
      (((Mode.ofIfs true delim ifsChars).text ks).map ([·])) =
      some (((Mode.ofIfs true delim ifsChars).text ks).map ([·]), []) := by
  induction ks with
  | nil => rfl
  | cons k ks ih =>
    obtain ⟨hks, hksifs⟩ := And.intro (List.forall_mem_cons.mp hplain) (List.forall_mem_cons.mp hifs)
    obtain ⟨quoted, c⟩ := k
    obtain rfl : quoted = false := hks.1
    have hc : c ∉ ifsChars := hksifs.1
    have hrest := ih hks.2 hksifs.2
    rw [text_cons, List.map_append]
    by_cases hmark : (Mode.ofIfs true delim ifsChars).marks (false, c) = true
    · have hquoted : decide (CTLESC ∈ ifsChars) = false ∨
          (decide (CTLNUL ∈ ifsChars) = false ∧ [c] = [CTLNUL]) := by
        rcases marks_false.mp hmark with ⟨hskip, -⟩ | ⟨hskip, heq⟩
        · exact Or.inl hskip
        · exact Or.inr ⟨hskip, congrArg (fun b => [b]) heq⟩
      rw [stored_marked hmark, List.map_cons, List.map_cons, List.map_nil, List.cons_append,
        List.cons_append, List.nil_append, extractUnits, if_pos ⟨rfl, hquoted⟩, hrest]
      rfl
    · have hne : [c] ≠ [CTLESC] := by
        intro heq
        obtain rfl : c = CTLESC := List.singleton_inj.mp heq
        exact hmark (marks_false.mpr (Or.inl ⟨decide_eq_false hc, rfl⟩))
      rw [stored_plain hmark, List.map_cons, List.map_nil, List.cons_append, List.nil_append]
      cases htext : ((Mode.ofIfs true delim ifsChars).text ks).map ([·]) with
      | nil =>
        rw [extractUnits, if_neg (fun h => hne h.2), isSeparator_byte hc]
        rfl
      | cons u us =>
        rw [htext] at hrest
        rw [extractUnits, if_neg (fun h => hne h.1), isSeparator_byte hc, hrest]
        rfl

theorem extract_text (delim : Nat) (hplain : ∀ k ∈ ks, k.1 = false) (hifs : ∀ k ∈ ks, k.2 ∉ ifsChars) :
    stringExtractVerbatim Coding.bytes ifsChars (decide (CTLESC ∈ ifsChars))
      (decide (CTLNUL ∈ ifsChars)) ((Mode.ofIfs true delim ifsChars).text ks) =
      some ((Mode.ofIfs true delim ifsChars).text ks, []) := by
  unfold stringExtractVerbatim
  split
  · rfl
  · have hwhole := Coding.bytes.flatten_units ((Mode.ofIfs true delim ifsChars).text ks)
    rw [Coding.units_bytes] at hwhole ⊢
    rw [extractUnits_text hplain hifs]
    exact congrArg (fun word => some (word, [])) hwhole

theorem setName_eq {s : Reading} (hplain : ∀ k ∈ ks, k.1 = false)
    (hifs : ∀ k ∈ ks, k.2 ∉ ifsChars)
    (hinput : s.input = (Mode.ofIfs true delim ifsChars).text ks)
    (hsaw : s.sawEscape = ks.countP (Mode.ofIfs true delim ifsChars).marks) :
    setName ifsChars s = some ((Mode.ofIfs true delim ifsChars).value ks) := by
  have hkeep : ∀ q : Nat → Bool, q CTLESC = false →
      ((Mode.ofIfs true delim ifsChars).text ks).dropWhile (fun c => q c && decide (c ∈ ifsChars)) =
        (Mode.ofIfs true delim ifsChars).text ks := by
    intro q hq
    apply dropWhile_text
    · rw [hq]
      rfl
    · intro k hk
      rw [decide_eq_false (hifs k hk), Bool.and_false]
  have hspc := hkeep spctabnl rfl
  have hspace := hkeep ifsWhitespace rfl
  unfold setName
  rw [hinput, hsaw]
  unfold isifs
  rw [hspc]
  generalize htext : (Mode.ofIfs true delim ifsChars).text ks = t at *
  dsimp only
  by_cases hnil : t = []
  · rw [if_pos hnil, Mode.value, htext, hnil]
    split
    · rfl
    · rfl
  · have hcut : getWordFromString Locale.c.coding t ifsChars = some ⟨some t, [], some []⟩ := by
      have hword := extract_text delim hplain hifs
      rw [htext] at hword
      unfold getWordFromString islocalsep
      rw [if_neg hnil, hspc, hspace, ite_self]
      dsimp only [Locale.coding]
      rw [if_neg hnil, hword]
      rfl
    rw [if_neg hnil, hcut]
    change some (if ((ks.countP (Mode.ofIfs true delim ifsChars).marks : Nat) : Int) ≠ 0 ∧ t ≠ [] then
      dequoteString Locale.c.coding t else t) = _
    by_cases hnone : ks.countP (Mode.ofIfs true delim ifsChars).marks = 0
    · rw [if_neg (fun h => h.1 (by rw [hnone]; rfl)), Mode.value, if_pos hnone, htext]
    · rw [if_pos ⟨fun h => hnone (Int.ofNat_eq_zero.mp h), hnil⟩, ← htext, dequoteString_text hnone]

theorem readName_iff {record : List Nat} (hifs : ∀ c ∈ reply true delim record, c ∉ ifsChars)
    (value : List Nat) :
    readName ifsChars true delim record = some value ↔
      (Mode.ofIfs true delim ifsChars).Fits 0 false record ∧
        (Mode.ofIfs true delim ifsChars).value (kept true delim false record) = value := by
  have hkept : ∀ k ∈ kept true delim false record, k.2 ∉ ifsChars := fun k hk =>
    hifs k.2 (List.mem_map_of_mem hk)
  unfold readName
  dsimp only
  rcases readBytes_cases (Mode.ofIfs true delim ifsChars) record with
    ⟨hfits, hnone⟩ | ⟨hfits, s, hs, hinput, hsaw⟩
  · rw [hnone]
    exact ⟨nofun, fun h => absurd h.1 hfits⟩
  · rw [hs]
    have hname := setName_eq (kept_raw delim record) hkept hinput hsaw
    change setName ifsChars _ = some value ↔ _
    rw [hname, Option.some_inj]
    exact ⟨fun h => ⟨hfits, h⟩, fun h => h.2⟩

end

theorem length_stored_le (m : Mode) (k : Bool × Nat) : (m.stored k).length ≤ 2 := by
  unfold Mode.stored
  split
  · exact Nat.le_refl 2
  · exact Nat.le_succ 1

/-- Half of the `int`s are enough. -/
theorem fits_of_length {record : List Nat} {n : Nat} (h : n + 2 * record.length + 3 < 2 ^ 31) :
    m.Fits n pass record := by
  induction record generalizing n pass with
  | nil => cases pass <;> trivial
  | cons c rest ih =>
    rw [List.length_cons] at h
    have hstored := fun k => length_stored_le m k
    have hsame : m.Fits n false rest := ih (by omega)
    cases pass with
    | true =>
      unfold Mode.Fits
      refine ⟨by split <;> omega, ?_⟩
      split
      · exact hsame
      · exact ih (by have := hstored (true, c); omega)
    | false =>
      unfold Mode.Fits
      refine ⟨by omega, ?_⟩
      split
      · exact ih (by omega)
      · split
        · trivial
        · split
          · exact hsame
          · exact ih (by have := hstored (false, c); omega)

/-- `REPLY` is set to the bytes of the record if and only if there is room to count them and `IFS`
does not confuse them, and so is a name, whatever control bytes there are, if `IFS` has none of
them. -/
theorem read_transparent (ifsChars : List Nat) (raw : Bool) (delim : Nat) (record : List Nat) :
    (readReply ifsChars raw delim record = some (reply raw delim record) ↔
      (Mode.ofIfs raw delim ifsChars).Fits 0 false record ∧
        ¬Confused ifsChars (kept raw delim false record)) ∧
    ((∀ c ∈ reply true delim record, c ∉ ifsChars) →
      (readName ifsChars true delim record = some (reply true delim record) ↔
        (Mode.ofIfs true delim ifsChars).Fits 0 false record)) := by
  constructor
  · rw [readReply_iff, reply, value_iff]
  · intro hifs
    have hclear : ¬Confused ifsChars (kept true delim false record) := by
      rintro ⟨hesc, -, -, hcovered⟩
      apply hcovered
      apply covered_of_forall_ne
      intro k hk heq
      apply hifs k.2 (List.mem_map_of_mem hk)
      rw [heq]
      exact hesc
    rw [readName_iff hifs, reply, value_iff]
    exact and_iff_left hclear

theorem read_transparent_space :
    readReply [32] false NEWLINE [97, CTLESC, BACKSLASH, CTLNUL, 0, NEWLINE] =
      some [97, CTLESC, CTLNUL] ∧
    readName [32] true NEWLINE [97, CTLESC, BACKSLASH, CTLNUL, 0, NEWLINE] =
      some [97, CTLESC, BACKSLASH, CTLNUL] := by
  constructor
  · exact (read_transparent [32] false NEWLINE _).1.mpr ⟨fits_of_length (by decide), fun h => absurd h.1 (by decide)⟩
  · exact ((read_transparent [32] true NEWLINE _).2 (by decide)).mpr (fits_of_length (by decide))

/-- `IFS` is a `CTLESC`. -/
theorem read_confused :
    readReply [CTLESC] true NEWLINE [CTLESC, 97, CTLNUL, NEWLINE] ≠
      some (reply true NEWLINE [CTLESC, 97, CTLNUL, NEWLINE]) := by
  decide

end Basht.Read
