import Basht.Filter.LineBuf

/-!
# Moving a full-screen task to a window

When a task asks for the whole screen, a terminal window is started. Until the window reports
in, the task's output waits; then the prefix read so far is replayed to the window, and what
follows is shuttled to it. If no report comes in time, the part of the prefix that has not gone
through the filter does so, and the task stays on the console.

`Cap.step` is what is done to one task's stdout: the blocks of `shuttle_windowed` and the reads
of `drain_cap_out`, in any order that `windowed` and `w_up` allow, between writes of the task.
-/

namespace Basht.Window

open Basht.Filter (LineBuf filterLoop)

/-- `sizeof cp->pre`. -/
abbrev sizeofPre : Nat := 2048

/-- The size of the buffer of `drain_cap_out`. -/
abbrev sizeofDrainBuf : Nat := 4096

/-- The size of the buffer of `shuttle_windowed`. -/
abbrev sizeofShuttleBuf : Nat := 2048

/-- `pre[0..prelen)`. -/
structure Prefix where
  bytes : List UInt8
  fits : bytes.length ≤ sizeofPre

/-- The `memcpy` of `drain_cap_out`. -/
def Prefix.add (p : Prefix) (chunk : List UInt8) : Prefix where
  bytes := p.bytes ++ chunk.take (sizeofPre - p.bytes.length)
  fits := by
    have := p.fits
    simp only [List.length_append, List.length_take]
    omega

/-- The prefix keeps what it has room for. -/
theorem Prefix.add_bytes {p : Prefix} {bytes : List UInt8} (h : p.bytes = bytes.take sizeofPre)
    (chunk : List UInt8) : (p.add chunk).bytes = (bytes ++ chunk).take sizeofPre := by
  change p.bytes ++ chunk.take (sizeofPre - p.bytes.length) = _
  rw [h, List.take_append, List.length_take]
  congr 2
  omega

/-! ## Terminal queries -/

/-- The byte ends a control sequence. -/
def isFinal (c : UInt8) : Bool := 0x40 ≤ c && c ≤ 0x7e

/-- The loop of `scrub_queries`, for `n` turns. -/
def scrubLoop : Nat → List UInt8 → List UInt8
  | 0, _ => []
  | _ + 1, [] => []
  | n + 1, c :: s =>
    if c = 0x1b ∧ s.head? = some '['.toUInt8 then
      let params := s.tail.takeWhile (!isFinal ·)
      match s.tail.dropWhile (!isFinal ·) with
      | [] => c :: '['.toUInt8 :: params
      | f :: rest =>
        if f = 'n'.toUInt8 ∨ f = 'c'.toUInt8 then scrubLoop n rest
        else c :: '['.toUInt8 :: params ++ f :: scrubLoop n rest
    else c :: scrubLoop n s

/-- `scrub_queries`. -/
def scrubQueries (bytes : List UInt8) : List UInt8 := scrubLoop bytes.length bytes

/-! ## The task -/

/-- `struct basht_cap`, the fields of the hand-off, and the bytes in the queue of the out
pty. -/
structure Cap where
  lb : LineBuf
  unread : List UInt8
  mOut : Bool
  pid : Int32
  lines : Nat
  windowed : Bool
  wWas : Bool
  wUp : Bool
  wHinted : Bool
  nfilt : Nat
  nbytes : Nat
  pre : Prefix

/-- After `basht_fork_done`. -/
def Cap.start (pid : Int32) : Cap :=
  ⟨.zeroed, [], true, pid, 0, false, false, false, false, 0, 0, ⟨[], by decide⟩⟩

/-- What is written by the task, put through its filter, and written to its window; and the
length of the prefix when the window reports in. -/
inductive Out where
  | written (bytes : List UInt8)
  | filtered (bytes : List UInt8)
  | window (bytes : List UInt8)
  | moved (prelen : Nat)

/-- The step is not possible, or writes outside of the line buffer. -/
inductive Stuck where
  | disabled
  | fault (e : StoreFault)

namespace Cap

/-- `basht_filter_bytes` on `cp->out`: the task after it, the number of bytes consumed, and
whether it has returned on a trigger. -/
def filterBytes (cp : Cap) (trigger : Bool) (buf : List UInt8) :
    Except Stuck (Cap × Nat × Bool) :=
  match filterLoop trigger cp.lb buf with
  | .error e => .error (.fault e)
  | .ok (s, lines) => .ok ({ cp with lb := s.lb, lines := cp.lines + lines.length }, s.i, s.returned)

/-- `window_try`. `launches` says that there is a terminal and that all calls to start it
succeed. -/
def windowTry (cp : Cap) (launches : Bool) : Option Cap :=
  if cp.windowed ∨ cp.wHinted ∨ cp.pid ≤ 0 then none
  else if cp.nbytes > sizeofPre ∨ cp.lines ≠ 0 then none
  else if launches then some { cp with windowed := true }
  else none

/-- The hint about windows, given once. -/
def hint (cp : Cap) : Cap :=
  if cp.wHinted then cp else { cp with wHinted := true, lines := cp.lines + 1 }

/-- The inner loop of `drain_cap_out`, for `n` turns. -/
def drainLoop (launches : Bool) : Nat → Cap → List UInt8 → Except Stuck (Cap × List Out)
  | 0, cp, _ => .ok (cp, [])
  | _ + 1, cp, [] => .ok (cp, [])
  | n + 1, cp, c :: buf =>
    match cp.filterBytes true (c :: buf) with
    | .error e => .error e
    | .ok (cp, took, trig) =>
      let cp := { cp with nfilt := cp.nfilt + took }
      let out := Out.filtered ((c :: buf).take took)
      if trig then
        match cp.windowTry launches with
        | some cp => .ok (cp, [out])
        | none => Fallible.andThen (.ok (cp.hint, [out])) fun cp =>
            drainLoop launches n cp ((c :: buf).drop took)
      else Fallible.andThen (.ok (cp, [out])) fun cp =>
        drainLoop launches n cp ((c :: buf).drop took)

end Cap

/-- What happens to the stdout of a task. -/
inductive Event where
  /-- the task writes -/
  | write (bytes : List UInt8)
  /-- `drain_cap_out` reads `n` bytes -/
  | read (n : Nat) (launches : Bool)
  /-- `drain_cap_out` reads the end of the stream -/
  | eof
  /-- `drain_cap_in` shows what it has read -/
  | echo (bytes : List UInt8)
  /-- lines of the task's stderr are displayed -/
  | errLines (n : Nat)
  /-- `shuttle_windowed` reads a report of the window's size -/
  | report
  /-- the deadline has passed -/
  | deadline
  /-- the window has been closed -/
  | closed
  /-- `shuttle_windowed` reads `n` bytes of stdout -/
  | shuttle (n : Nat)
  /-- `shuttle_windowed` reads the end of stdout -/
  | shuttleEof

/-- One event. -/
def Cap.step (cp : Cap) : Event → Except Stuck (Cap × List Out)
  | .write bytes =>
    if cp.mOut then .ok ({ cp with unread := cp.unread ++ bytes }, [.written bytes])
    else .error .disabled
  | .read n launches =>
    if cp.mOut ∧ cp.windowed = false ∧ 0 < n ∧ n ≤ sizeofDrainBuf ∧ n ≤ cp.unread.length then
      drainLoop launches n
        { cp with
          unread := cp.unread.drop n
          pre := cp.pre.add (cp.unread.take n)
          nbytes := cp.nbytes + n } (cp.unread.take n)
    else .error .disabled
  | .eof =>
    if cp.mOut ∧ cp.windowed = false ∧ cp.unread = [] then
      .ok ({ cp with
        lb := cp.lb.flush.1
        lines := cp.lines + cp.lb.flush.2.length
        mOut := false }, [])
    else .error .disabled
  | .echo bytes =>
    if cp.windowed then .error .disabled
    else
      match cp.filterBytes false bytes with
      | .error e => .error e
      | .ok (cp, _, _) => .ok (cp, [])
  | .errLines n => .ok ({ cp with lines := cp.lines + n }, [])
  | .report =>
    if cp.windowed then
      if cp.wUp then .ok (cp, [])
      else
        .ok ({ cp with wUp := true, wWas := true, lines := cp.lines + 1 },
          [.window (scrubQueries cp.pre.bytes), .moved cp.pre.bytes.length])
    else .error .disabled
  | .deadline =>
    if cp.windowed ∧ cp.wUp = false then
      match filterBytes
        { cp with windowed := false, wHinted := true, lines := cp.lines + 1 } false
        (cp.pre.bytes.drop cp.nfilt) with
      | .error e => .error e
      | .ok (cp', took, _) => .ok (cp', [.filtered ((cp.pre.bytes.drop cp.nfilt).take took)])
    else .error .disabled
  | .closed =>
    if cp.windowed ∧ cp.wUp then
      .ok ({ cp with windowed := false, lines := cp.lines + 1 }, [])
    else .error .disabled
  | .shuttle n =>
    if cp.windowed ∧ cp.wUp ∧ cp.mOut ∧ 0 < n ∧ n ≤ sizeofShuttleBuf ∧ n ≤ cp.unread.length then
      .ok ({ cp with unread := cp.unread.drop n }, [.window (cp.unread.take n)])
    else .error .disabled
  | .shuttleEof =>
    if cp.windowed ∧ cp.wUp ∧ cp.mOut ∧ cp.unread = [] then .ok ({ cp with mOut := false }, [])
    else .error .disabled

/-! ## The filter -/

theorem exec_turn_returned {trigger : Bool} {s s' : Filter.Loop} {buf : List UInt8}
    {lines : List Filter.Line} (h : s.returned = true)
    (hrun : Fallible.exec (Filter.Loop.turn trigger) s buf = .ok (s', lines)) : s' = s := by
  induction buf generalizing lines with
  | nil =>
    cases hrun
    rfl
  | cons c buf ih =>
    rw [Fallible.exec_cons, Filter.Loop.turn, if_pos h, Fallible.andThen_ok_nil] at hrun
    exact ih hrun

/-- The bytes consumed: all of them if the loop has not returned, and one at least. -/
theorem exec_turn_took {trigger : Bool} {s s' : Filter.Loop} {buf : List UInt8}
    {lines : List Filter.Line} (h : s.returned = false)
    (hrun : Fallible.exec (Filter.Loop.turn trigger) s buf = .ok (s', lines)) :
    s.i ≤ s'.i ∧ s'.i ≤ s.i + buf.length ∧ (buf ≠ [] → s.i < s'.i) ∧
      (s'.returned = false → s'.i = s.i + buf.length) ∧
      (trigger = false → s'.returned = false) := by
  induction buf generalizing s lines with
  | nil =>
    cases hrun
    exact ⟨Nat.le_refl _, Nat.le_refl _, fun hne => absurd rfl hne, fun _ => rfl, fun _ => h⟩
  | cons c buf ih =>
    obtain ⟨t, ls, u, ls', hturn, hrest, hr⟩ := Fallible.andThen_eq_ok.mp hrun
    cases hr
    rw [Filter.Loop.turn, if_neg (by simp [h])] at hturn
    split at hturn
    · cases hturn
    · cases hturn
      simp only [List.length_cons]
      cases hret : trigger && s.lb.fullScreen c with
      | true =>
        obtain rfl := exec_turn_returned hret hrest
        refine ⟨Nat.le_succ _, by simp only; omega, fun _ => Nat.lt_succ_self _, fun hr => ?_,
          fun ht => ?_⟩
        · rw [hret] at hr
          cases hr
        · rw [ht] at hret
          cases hret
      | false =>
        obtain ⟨hge, hle, -, hall, htrigger⟩ := ih hret hrest
        simp only at hge hle hall
        exact ⟨by omega, by omega, fun _ => hge, fun hr => by rw [hall hr]; omega, htrigger⟩

namespace Cap

variable {cp cp' : Cap} {outs : List Out}

/-- A call of the filter changes the line buffer and adds lines. -/
theorem filterBytes_cases {trigger trig : Bool} {buf : List UInt8} {took : Nat}
    (h : cp.filterBytes trigger buf = .ok (cp', took, trig)) :
    (∃ lb k, cp' = { cp with lb := lb, lines := cp.lines + k }) ∧ took ≤ buf.length ∧
      (buf ≠ [] → 0 < took) ∧ (trig = false → took = buf.length) ∧
      (trigger = false → trig = false) := by
  unfold filterBytes at h
  split at h
  · cases h
  · rename_i hloop
    cases h
    obtain ⟨-, hle, hpos, hall, htrigger⟩ := exec_turn_took rfl hloop
    simp only [Nat.zero_add] at hle hall hpos
    exact ⟨⟨_, _, rfl⟩, hle, hpos, hall, htrigger⟩

/-- The bytes of each kind. -/
def writtenBytes (outs : List Out) : List UInt8 :=
  outs.flatMap fun
    | .written bytes => bytes
    | .filtered _ | .window _ | .moved _ => []

def filteredBytes (outs : List Out) : List UInt8 :=
  outs.flatMap fun
    | .filtered bytes => bytes
    | .written _ | .window _ | .moved _ => []

def windowBytes (outs : List Out) : List UInt8 :=
  outs.flatMap fun
    | .window bytes => bytes
    | .written _ | .filtered _ | .moved _ => []

/-- The lengths of the prefixes that have been replayed. -/
def moves (outs : List Out) : List Nat :=
  outs.filterMap fun
    | .moved prelen => some prelen
    | .written _ | .filtered _ | .window _ => none

@[simp] theorem writtenBytes_append (outs outs' : List Out) :
    writtenBytes (outs ++ outs') = writtenBytes outs ++ writtenBytes outs' := List.flatMap_append

@[simp] theorem filteredBytes_append (outs outs' : List Out) :
    filteredBytes (outs ++ outs') = filteredBytes outs ++ filteredBytes outs' :=
  List.flatMap_append

@[simp] theorem windowBytes_append (outs outs' : List Out) :
    windowBytes (outs ++ outs') = windowBytes outs ++ windowBytes outs' := List.flatMap_append

@[simp] theorem moves_append (outs outs' : List Out) :
    moves (outs ++ outs') = moves outs ++ moves outs' := List.filterMap_append

/-- The turns emit nothing but bytes that were filtered. -/
def OnlyFiltered (outs : List Out) (bytes : List UInt8) : Prop :=
  filteredBytes outs = bytes ∧ writtenBytes outs = [] ∧ windowBytes outs = [] ∧ moves outs = []

theorem onlyFiltered_nil : OnlyFiltered [] [] := ⟨rfl, rfl, rfl, rfl⟩

theorem OnlyFiltered.cons (bytes : List UInt8) {bytes' : List UInt8}
    (h : OnlyFiltered outs bytes') :
    OnlyFiltered (.filtered bytes :: outs) (bytes ++ bytes') := by
  obtain ⟨hf, hw, hv, hm⟩ := h
  exact ⟨congrArg (bytes ++ ·) hf, hw, hv, hm⟩

theorem windowTry_cases {launches : Bool} (h : cp.windowTry launches = some cp') :
    cp' = { cp with windowed := true } ∧ cp.wHinted = false ∧ cp.nbytes ≤ sizeofPre ∧
      cp.lines = 0 := by
  unfold windowTry at h
  split_ifs at h with h₁ h₂
  cases h
  simp only [not_or] at h₁ h₂
  exact ⟨rfl, eq_false_of_ne_true h₁.2.1, Nat.le_of_not_gt h₂.1, not_not.mp h₂.2⟩

theorem drainLoop_nil (launches : Bool) (n : Nat) (cp : Cap) :
    drainLoop launches n cp [] = .ok (cp, []) := by
  cases n <;> rfl

theorem hint_cases (cp : Cap) : ∃ k, cp.hint = { cp with wHinted := true, lines := cp.lines + k } := by
  unfold hint
  split
  · rename_i hhinted
    exact ⟨0, by rw [← hhinted]; rfl⟩
  · exact ⟨1, rfl⟩

/-- The inner loop of `drain_cap_out` filters the whole chunk, or a part of it in front of
which nothing was displayed, and the task is in a window then. -/
theorem drainLoop_cases {launches : Bool} {n : Nat} {buf : List UInt8} (hn : buf.length ≤ n)
    (h : drainLoop launches n cp buf = .ok (cp', outs)) :
    (∃ lb k hinted, (cp.wHinted = true → hinted = true) ∧ OnlyFiltered outs buf ∧
      cp' = { cp with
        lb := lb
        lines := cp.lines + k
        nfilt := cp.nfilt + buf.length
        wHinted := hinted }) ∨
    (∃ lb took, took ≤ buf.length ∧ OnlyFiltered outs (buf.take took) ∧ cp.wHinted = false ∧
      cp.nbytes ≤ sizeofPre ∧ cp.lines = 0 ∧
      cp' = { cp with lb := lb, nfilt := cp.nfilt + took, windowed := true }) := by
  induction n generalizing cp buf outs with
  | zero =>
    cases h
    obtain rfl := List.length_eq_zero_iff.mp (Nat.le_zero.mp hn)
    exact Or.inl ⟨_, 0, _, id, onlyFiltered_nil, rfl⟩
  | succ n ih =>
    cases buf with
    | nil =>
      cases h
      exact Or.inl ⟨_, 0, _, id, onlyFiltered_nil, rfl⟩
    | cons c buf =>
      rw [drainLoop] at h
      split at h
      · cases h
      · rename_i cp₁ took trig hfilter
        obtain ⟨⟨lb, k, rfl⟩, hle, hpos, hall, -⟩ := filterBytes_cases hfilter
        have hpos := hpos (by simp)
        cases trig with
        | false =>
          rw [if_neg (by simp), hall rfl, List.take_length, List.drop_length] at h
          simp only [drainLoop_nil, Fallible.andThen, List.append_nil] at h
          cases h
          refine Or.inl ⟨lb, k, cp.wHinted, id, ?_, rfl⟩
          simpa only [List.append_nil] using onlyFiltered_nil.cons _
        | true =>
          rw [if_pos rfl] at h
          split at h
          · rename_i cp₂ htry
            cases h
            obtain ⟨rfl, hhinted, hbytes, hlines⟩ := windowTry_cases htry
            refine Or.inr ⟨lb, took, hle, ?_, hhinted, hbytes, ?_, ?_⟩
            · simpa only [List.append_nil] using onlyFiltered_nil.cons _
            · simp only at hlines
              omega
            · simp only at hlines
              obtain rfl : k = 0 := by omega
              rfl
          · obtain ⟨cp₂, outs₁, cp₃, outs₂, hfirst, hrest, hr⟩ := Fallible.andThen_eq_ok.mp h
            cases hfirst
            cases hr
            obtain ⟨k', hhint⟩ := hint_cases { cp with
              lb := lb, lines := cp.lines + k, nfilt := cp.nfilt + took }
            simp only [hhint] at hrest
            have hshort : ((c :: buf).drop took).length ≤ n := by
              simp only [List.length_drop, List.length_cons] at hn ⊢
              omega
            rcases ih hshort hrest with
              ⟨lb', k'', hinted, hkeep, hout, rfl⟩ | ⟨-, -, -, -, hfalse, -⟩
            · refine Or.inl ⟨lb', k + k' + k'', hinted, fun _ => hkeep rfl, ?_, ?_⟩
              · have := hout.cons ((c :: buf).take took)
                rwa [List.take_append_drop] at this
              · simp only [List.length_drop, Nat.add_assoc, Nat.add_sub_cancel' hle]
            · cases hfalse

/-! ## The phases of a hand-off -/

/-- The task has not been in a window, or has been given back by one that never reported in.
Until the hint is given, the counters and the prefix are up to date. -/
structure Console (outs : List Out) (cp : Cap) : Prop where
  windowed : cp.windowed = false
  wUp : cp.wUp = false
  bytes : filteredBytes outs ++ cp.unread = writtenBytes outs
  counted : cp.wHinted = false → cp.nfilt = (filteredBytes outs).length ∧
    cp.nbytes = (filteredBytes outs).length ∧ cp.pre.bytes = (filteredBytes outs).take sizeofPre
  window : windowBytes outs = []
  moves : moves outs = []

/-- The window has not reported in. All that was read is in the prefix. -/
structure Waiting (outs : List Out) (cp : Cap) : Prop where
  windowed : cp.windowed = true
  wUp : cp.wUp = false
  bytes : cp.pre.bytes ++ cp.unread = writtenBytes outs
  filtered : filteredBytes outs = cp.pre.bytes.take cp.nfilt
  window : windowBytes outs = []
  moves : moves outs = []

/-- The window has reported in: it got the prefix `pre` without the queries, and then `rest`.
What was read after it was closed, `back`, went through the filter. -/
structure Moved (outs : List Out) (cp : Cap) (pre rest back : List UInt8) : Prop where
  wUp : cp.wUp = true
  lines : cp.lines ≠ 0
  bytes : pre ++ rest ++ back ++ cp.unread = writtenBytes outs
  window : windowBytes outs = scrubQueries pre ++ rest
  filtered : ∃ k, filteredBytes outs = pre.take k ++ back
  windowed : cp.windowed = true → back = []
  moves : moves outs = [pre.length]

/-- One of the three. -/
def Phase (outs : List Out) (cp : Cap) : Prop :=
  Console outs cp ∨ Waiting outs cp ∨ ∃ pre rest back, Moved outs cp pre rest back

variable {past : List Out}

theorem console_start (pid : Int32) : Console [] (start pid) :=
  ⟨rfl, rfl, rfl, fun _ => ⟨rfl, rfl, rfl⟩, rfl, rfl⟩

/-- What the phases do not depend on. -/
theorem Phase.frame (h : Phase past cp) (lb : LineBuf) (k : Nat) (mOut : Bool) :
    Phase past { cp with lb := lb, lines := cp.lines + k, mOut := mOut } := by
  rcases h with h | h | ⟨pre, rest, back, h⟩
  · exact Or.inl ⟨h.windowed, h.wUp, h.bytes, h.counted, h.window, h.moves⟩
  · exact Or.inr (Or.inl ⟨h.windowed, h.wUp, h.bytes, h.filtered, h.window, h.moves⟩)
  · refine Or.inr (Or.inr ⟨pre, rest, back, h.wUp, ?_, h.bytes, h.window, h.filtered, h.windowed,
      h.moves⟩)
    have := h.lines
    simp only
    omega

theorem Phase.write (h : Phase past cp) (bytes : List UInt8) :
    Phase (past ++ [.written bytes]) { cp with unread := cp.unread ++ bytes } := by
  have hwritten : writtenBytes (past ++ [.written bytes]) = writtenBytes past ++ bytes := by
    simp [writtenBytes]
  have hfiltered : filteredBytes (past ++ [.written bytes]) = filteredBytes past := by
    simp [filteredBytes]
  have hwindow : windowBytes (past ++ [.written bytes]) = windowBytes past := by
    simp [windowBytes]
  have hmoves : Cap.moves (past ++ [.written bytes]) = Cap.moves past := by
    simp [Cap.moves]
  rcases h with h | h | ⟨pre, rest, back, h⟩
  · refine Or.inl ⟨h.windowed, h.wUp, ?_, ?_, hwindow.trans h.window, hmoves.trans h.moves⟩
    · rw [hfiltered, hwritten, ← h.bytes, List.append_assoc]
    · rw [hfiltered]
      exact h.counted
  · refine Or.inr (Or.inl ⟨h.windowed, h.wUp, ?_, hfiltered.trans h.filtered,
      hwindow.trans h.window, hmoves.trans h.moves⟩)
    rw [hwritten, ← h.bytes, List.append_assoc]
  · refine Or.inr (Or.inr ⟨pre, rest, back, h.wUp, h.lines, ?_, hwindow.trans h.window, ?_,
      h.windowed, hmoves.trans h.moves⟩)
    · rw [hwritten, ← h.bytes, List.append_assoc _ cp.unread]
    · rw [hfiltered]
      exact h.filtered

theorem OnlyFiltered.append {bytes : List UInt8} (h : OnlyFiltered outs bytes)
    (past : List Out) :
    filteredBytes (past ++ outs) = filteredBytes past ++ bytes ∧
      writtenBytes (past ++ outs) = writtenBytes past ∧
      windowBytes (past ++ outs) = windowBytes past ∧ Cap.moves (past ++ outs) = Cap.moves past := by
  obtain ⟨hf, hw, hv, hm⟩ := h
  simp [hf, hw, hv, hm]

/-- A read of `drain_cap_out`. -/
theorem Phase.read (h : Phase past cp) {n : Nat} {launches : Bool} (hwindowed : cp.windowed = false)
    (hn : n ≤ cp.unread.length)
    (hrun : drainLoop launches n
      { cp with
        unread := cp.unread.drop n
        pre := cp.pre.add (cp.unread.take n)
        nbytes := cp.nbytes + n } (cp.unread.take n) = .ok (cp', outs)) :
    Phase (past ++ outs) cp' := by
  have hlength : (cp.unread.take n).length = n := by
    rw [List.length_take, Nat.min_eq_left hn]
  rcases h with h | h | ⟨pre, rest, back, h⟩
  · rcases drainLoop_cases (Nat.le_of_eq hlength) hrun with
      ⟨lb, k, hinted, hkeep, hout, rfl⟩ | ⟨lb, took, htook, hout, hhinted, hbytes, hlines, rfl⟩
    · obtain ⟨hf, hw, hv, hm⟩ := hout.append past
      refine Or.inl ⟨h.windowed, h.wUp, ?_, fun hh => ?_, hv.trans h.window, hm.trans h.moves⟩
      · rw [hf, hw, ← h.bytes, List.append_assoc, List.take_append_drop]
      · have hhinted : cp.wHinted = false := by
          cases hc : cp.wHinted with
          | false => rfl
          | true => exact absurd (hkeep hc) (by simpa using hh)
        obtain ⟨hnfilt, hnbytes, hpre⟩ := h.counted hhinted
        refine ⟨?_, ?_, ?_⟩
        · rw [hf, List.length_append, hnfilt]
        · rw [hf, List.length_append, hlength, hnbytes]
        · rw [hf]
          exact Prefix.add_bytes hpre _
    · obtain ⟨hf, hw, hv, hm⟩ := hout.append past
      obtain ⟨hnfilt, hnbytes, hpre⟩ := h.counted hhinted
      have hadd := Prefix.add_bytes hpre (cp.unread.take n)
      have hall : (cp.pre.add (cp.unread.take n)).bytes = filteredBytes past ++ cp.unread.take n := by
        rw [hadd, List.take_of_length_le]
        rw [List.length_append, hlength, ← hnbytes]
        exact hbytes
      refine Or.inr (Or.inl ⟨rfl, h.wUp, ?_, ?_, hv.trans h.window, hm.trans h.moves⟩)
      · rw [hw, ← h.bytes, hall, List.append_assoc, List.take_append_drop]
      · rw [hf, hall, hnfilt, List.take_length_add_append]
  · exact absurd (hwindowed.symm.trans h.windowed) (by simp)
  · rcases drainLoop_cases (Nat.le_of_eq hlength) hrun with
      ⟨lb, k, hinted, -, hout, rfl⟩ | ⟨-, -, -, -, -, -, hlines, -⟩
    · obtain ⟨hf, hw, hv, hm⟩ := hout.append past
      obtain ⟨j, hj⟩ := h.filtered
      refine Or.inr (Or.inr ⟨pre, rest, back ++ cp.unread.take n, h.wUp, ?_, ?_,
        hv.trans h.window, ⟨j, ?_⟩, ?_, hm.trans h.moves⟩)
      · have := h.lines
        simp only
        omega
      · rw [hw, ← h.bytes, ← List.append_assoc, List.append_assoc _ (cp.unread.take n),
          List.take_append_drop]
      · rw [hf, hj, List.append_assoc]
      · intro hh
        exact absurd (hwindowed.symm.trans hh) (by simp)
    · exact absurd hlines h.lines

/-- The first report. -/
theorem Phase.report (h : Phase past cp) (hwindowed : cp.windowed = true) (hup : cp.wUp = false) :
    Phase (past ++ [.window (scrubQueries cp.pre.bytes), .moved cp.pre.bytes.length])
      { cp with wUp := true, wWas := true, lines := cp.lines + 1 } := by
  rcases h with h | h | ⟨pre, rest, back, h⟩
  · exact absurd (h.windowed.symm.trans hwindowed) (by simp)
  · refine Or.inr (Or.inr ⟨cp.pre.bytes, [], [], rfl, Nat.succ_ne_zero _, ?_, ?_,
      ⟨cp.nfilt, ?_⟩, fun _ => rfl, ?_⟩)
    · simpa [writtenBytes] using h.bytes
    · rw [windowBytes_append, h.window]
      simp [windowBytes]
    · rw [filteredBytes_append, h.filtered]
      simp [filteredBytes]
    · rw [moves_append, h.moves]
      simp [Cap.moves]
  · exact absurd (hup.symm.trans h.wUp) (by simp)

/-- The window is given up: the rest of the prefix goes through the filter. -/
theorem Phase.deadline (h : Phase past cp) (hwindowed : cp.windowed = true) (hup : cp.wUp = false)
    {lb : LineBuf} {k : Nat} : Phase (past ++ [.filtered (cp.pre.bytes.drop cp.nfilt)])
      { cp with windowed := false, wHinted := true, lb := lb, lines := k } := by
  rcases h with h | h | ⟨pre, rest, back, h⟩
  · exact absurd (h.windowed.symm.trans hwindowed) (by simp)
  · have hout : OnlyFiltered [.filtered (cp.pre.bytes.drop cp.nfilt)]
        (cp.pre.bytes.drop cp.nfilt) := by
      simpa only [List.append_nil] using onlyFiltered_nil.cons _
    obtain ⟨hf, hw, hv, hm⟩ := hout.append past
    refine Or.inl ⟨rfl, h.wUp, ?_, nofun, hv.trans h.window, hm.trans h.moves⟩
    rw [hf, hw, h.filtered, List.take_append_drop]
    exact h.bytes
  · exact absurd (hup.symm.trans h.wUp) (by simp)

theorem Phase.closed (h : Phase past cp) (hup : cp.wUp = true) :
    Phase past { cp with windowed := false, lines := cp.lines + 1 } := by
  rcases h with h | h | ⟨pre, rest, back, h⟩
  · exact absurd (h.wUp.symm.trans hup) (by simp)
  · exact absurd (h.wUp.symm.trans hup) (by simp)
  · exact Or.inr (Or.inr ⟨pre, rest, back, h.wUp, Nat.succ_ne_zero _, h.bytes, h.window,
      h.filtered, nofun, h.moves⟩)

theorem Phase.shuttle (h : Phase past cp) (hwindowed : cp.windowed = true) (hup : cp.wUp = true)
    (n : Nat) : Phase (past ++ [.window (cp.unread.take n)]) { cp with unread := cp.unread.drop n } := by
  rcases h with h | h | ⟨pre, rest, back, h⟩
  · exact absurd (h.wUp.symm.trans hup) (by simp)
  · exact absurd (h.wUp.symm.trans hup) (by simp)
  · obtain rfl := h.windowed hwindowed
    obtain ⟨k, hk⟩ := h.filtered
    refine Or.inr (Or.inr ⟨pre, rest ++ cp.unread.take n, [], h.wUp, h.lines, ?_, ?_, ⟨k, ?_⟩,
      fun _ => rfl, ?_⟩)
    · have hbytes := h.bytes
      rw [List.append_nil] at hbytes
      rw [writtenBytes_append, ← hbytes]
      simp [writtenBytes]
    · rw [windowBytes_append, h.window]
      simp [windowBytes]
    · rw [filteredBytes_append, hk]
      simp [filteredBytes]
    · rw [moves_append, h.moves]
      simp [Cap.moves]

theorem Phase.step {e : Event} (h : Phase past cp) (hstep : cp.step e = .ok (cp', outs)) :
    Phase (past ++ outs) cp' := by
  cases e with
  | write bytes =>
    simp only [Cap.step] at hstep
    split at hstep
    · cases hstep
      exact h.write bytes
    · cases hstep
  | read n launches =>
    simp only [Cap.step] at hstep
    split at hstep
    · rename_i hread
      exact h.read hread.2.1 hread.2.2.2.2 hstep
    · cases hstep
  | eof =>
    simp only [Cap.step] at hstep
    split at hstep
    · cases hstep
      rw [List.append_nil]
      exact h.frame _ _ _
    · cases hstep
  | echo bytes =>
    simp only [Cap.step] at hstep
    split at hstep
    · cases hstep
    · split at hstep
      · cases hstep
      · rename_i hfilter
        cases hstep
        obtain ⟨⟨lb, k, rfl⟩, -⟩ := filterBytes_cases hfilter
        rw [List.append_nil]
        exact h.frame lb k cp.mOut
  | errLines n =>
    cases hstep
    rw [List.append_nil]
    exact h.frame cp.lb n cp.mOut
  | report =>
    simp only [Cap.step] at hstep
    split at hstep
    · rename_i hwindowed
      split at hstep
      · cases hstep
        rwa [List.append_nil]
      · rename_i hup
        cases hstep
        exact h.report hwindowed (eq_false_of_ne_true hup)
    · cases hstep
  | deadline =>
    simp only [Cap.step] at hstep
    split at hstep
    · rename_i hwindowed
      split at hstep
      · cases hstep
      · rename_i hfilter
        cases hstep
        obtain ⟨⟨lb, k, rfl⟩, -, -, hall, htrig⟩ := filterBytes_cases hfilter
        rw [hall (htrig rfl), List.take_length]
        exact h.deadline hwindowed.1 hwindowed.2
    · cases hstep
  | closed =>
    simp only [Cap.step] at hstep
    split at hstep
    · rename_i hup
      cases hstep
      rw [List.append_nil]
      exact h.closed hup.2
    · cases hstep
  | shuttle n =>
    simp only [Cap.step] at hstep
    split at hstep
    · rename_i hwindowed
      cases hstep
      exact h.shuttle hwindowed.1 hwindowed.2.1 n
    · cases hstep
  | shuttleEof =>
    simp only [Cap.step] at hstep
    split at hstep
    · cases hstep
      rw [List.append_nil]
      exact h.frame cp.lb 0 false
    · cases hstep

theorem phase_exec {pid : Int32} {events : List Event}
    (h : Fallible.exec step (start pid) events = .ok (cp, outs)) : Phase outs cp :=
  Fallible.exec_law (Q := fun cp outs cp' => ∀ past, Phase past cp → Phase (past ++ outs) cp')
    (fun _ _ h => by rwa [List.append_nil])
    (fun _ _ _ _ _ h h' past hp => by
      rw [← List.append_assoc]
      exact h' _ (h past hp))
    (fun _ _ _ _ _ hstep _ hp => hp.step hstep) h [] (Or.inl (console_start pid))

/-! ## The hand-off -/

/-- No window has reported in. All that was read went through the filter, but for the end of the
prefix while a window is awaited. -/
structure OnConsole (outs : List Out) (cp : Cap) : Prop where
  window : windowBytes outs = []
  filtered : cp.windowed = false → filteredBytes outs ++ cp.unread = writtenBytes outs
  waiting : cp.windowed = true →
    filteredBytes outs ++ cp.pre.bytes.drop cp.nfilt ++ cp.unread = writtenBytes outs

/-- A window has reported in when `prelen` bytes had been read. It got these without the queries
and then all that was read before it was closed; the rest went through the filter. -/
def InWindow (outs : List Out) (cp : Cap) (prelen : Nat) : Prop :=
  ∃ rest back, (writtenBytes outs).take prelen ++ rest ++ back ++ cp.unread = writtenBytes outs ∧
    windowBytes outs = scrubQueries ((writtenBytes outs).take prelen) ++ rest ∧
    (∃ k, filteredBytes outs = ((writtenBytes outs).take prelen).take k ++ back) ∧
    (cp.windowed = true → back = [])

/-- **The hand-off** loses and repeats nothing, whatever is written, however it is read, and
whether a window reports in or not. -/
theorem hand_off {pid : Int32} {events : List Event}
    (h : Fallible.exec step (start pid) events = .ok (cp, outs)) :
    (moves outs = [] ∧ OnConsole outs cp) ∨
      ∃ prelen, moves outs = [prelen] ∧ InWindow outs cp prelen := by
  rcases phase_exec h with h | h | ⟨pre, rest, back, h⟩
  · refine Or.inl ⟨h.moves, h.window, fun _ => h.bytes, fun hw => ?_⟩
    exact absurd (h.windowed.symm.trans hw) (by simp)
  · refine Or.inl ⟨h.moves, h.window, fun hw => ?_, fun _ => ?_⟩
    · exact absurd (h.windowed.symm.trans hw) (by simp)
    · rw [h.filtered, List.take_append_drop]
      exact h.bytes
  · have htake : (writtenBytes outs).take pre.length = pre := by
      rw [← h.bytes, List.append_assoc, List.append_assoc, List.take_left']
      rfl
    refine Or.inr ⟨pre.length, h.moves, rest, back, ?_⟩
    rw [htake]
    exact ⟨h.bytes, h.window, h.filtered, h.windowed⟩

/-- A task asks for the alternate screen, and its window reports in. -/
def fullScreen : List Event :=
  [.write ("\x1b[?1049hA".toList.map Char.toUInt8), .read 9 true, .report, .write [66], .shuttle 1]

theorem hand_off_fullScreen : ∃ cp outs, Fallible.exec step (start 100) fullScreen = .ok (cp, outs) ∧
    moves outs = [9] ∧ InWindow outs cp 9 := by
  have h : ∃ cp outs, Fallible.exec step (start 100) fullScreen = .ok (cp, outs) ∧
      moves outs = [9] := ⟨_, _, rfl, rfl⟩
  obtain ⟨cp, outs, hrun, hmoves⟩ := h
  rcases hand_off hrun with ⟨hnone, -⟩ | ⟨prelen, hmoved, hin⟩
  · rw [hmoves] at hnone
    cases hnone
  · rw [hmoves] at hmoved
    cases hmoved
    exact ⟨cp, outs, hrun, hmoves, hin⟩

end Cap

end Basht.Window
