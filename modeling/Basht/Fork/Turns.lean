import Basht.Fork.Processes
import Basht.Display.Transcript

/-!
# What the processes do

* `Proc.Still`: operations that change neither the streams nor the chunks;
* `Turn`: what the shell does between two of its states, while it alone displays: what it
  reads goes through its filter in order, and what it writes are the lines completed;
* `Progress`: what a step does, which composes to runs (`Progress.exec`).
-/

namespace Basht.Fork

open Basht.Filter (Call)
open Basht.Display (Console Ident Write textsOf textsOf_append)
open Basht.Display.Console (Built Wrote)
open Basht.Tasks (MAX_CAPS Pty ForkFlags Opened)

/-! ## What is observed -/

namespace Out

/-- The bytes taken from the master. -/
def taken (m : Master) : Out → List UInt8
  | read _ m' bytes => if m' = m then bytes else []
  | drop _ t bytes => if Master.cap t .mIn = m then bytes else []
  | wrote .. | call .. | write .. => []

/-- The bytes taken from the master to be displayed. -/
def shown (m : Master) : Out → List UInt8
  | read _ m' bytes => if m' = m then bytes else []
  | drop .. | wrote .. | call .. | write .. => []

/-- The bytes written to the slave. -/
def sent (m : Master) : Out → List UInt8
  | wrote m' bytes => if m' = m then bytes else []
  | read .. | drop .. | call .. | write .. => []

/-- The bytes from the master that the shell gives to its filter. -/
def given (m : Master) : Out → List UInt8
  | call p m' (.bytes bytes _) => if p = SHELL ∧ m' = m then bytes else []
  | call _ _ .flush | read .. | drop .. | wrote .. | write .. => []

/-- A call that the shell makes on the stream. -/
def callOn (h : Handle) : Out → Option Call
  | call p m c => if p = SHELL ∧ m.stream = h then some c else none
  | read .. | drop .. | wrote .. | write .. => none

/-- A write to the terminal. -/
def toWrite : Out → Option (Write Handle)
  | write _ w => some w
  | read .. | drop .. | wrote .. | call .. => none

/-- The output is of the process `p`. -/
def By (p : Nat) : Out → Prop
  | read q .. | drop q .. | call q .. | write q _ => q = p
  | wrote .. => False

/-- A read of a master or a write to the terminal is the shell's. -/
def ByShell : Out → Prop
  | read p .. | drop p .. | write p _ => p = SHELL
  | wrote .. | call .. => True

theorem byShell_of_by {o : Out} (h : o.By SHELL) : o.ByShell := by
  cases o with
  | wrote m bytes => exact h.elim
  | call p m c => trivial
  | _ => exact h

/-- Only bytes of an in pty are dropped. -/
theorem shown_eq_taken {m : Master} (hm : ∀ t, m ≠ .cap t .mIn) (o : Out) :
    o.shown m = o.taken m := by
  cases o with
  | drop p t bytes => exact (if_neg (Ne.symm (hm t))).symm
  | _ => rfl

/-- A subshell that neither reads nor writes shows nothing. -/
theorem eq_call_of_byShell {p : Nat} (hp : p ≠ SHELL) {o : Out} (hby : o.By p)
    (hshell : o.ByShell) : ∃ m c, o = call p m c := by
  cases o with
  | wrote m bytes => exact hby.elim
  | call q m c => exact ⟨m, c, by rw [show q = p from hby]⟩
  | read q m bytes => exact (hp ((show q = p from hby).symm.trans hshell)).elim
  | drop q t bytes => exact (hp ((show q = p from hby).symm.trans hshell)).elim
  | write q w => exact (hp ((show q = p from hby).symm.trans hshell)).elim

end Out

/-- The writes to the terminal. -/
def writesOf (outs : List Out) : List (Write Handle) := outs.filterMap Out.toWrite

/-- The bytes that the shell's pump has read and the shell has not displayed. -/
def Proc.pending (s : Proc) (m : Master) : List UInt8 :=
  if m = .self then s.chunks.flatten else []

/-! ## Operations that show nothing -/

/-- Streams, counters, chunks and the pump stay as they are. -/
structure Proc.Still (s s' : Proc) : Prop where
  stream : s'.console.stream = s.console.stream
  counter : s'.console.counter = s.console.counter
  tagfmt : s'.console.tagfmt = s.console.tagfmt
  chunks : s'.chunks = s.chunks
  pumpLive : s'.pumpLive = s.pumpLive

namespace Proc

theorem still_rfl (s : Proc) : Still s s := ⟨rfl, rfl, rfl, rfl, rfl⟩

theorem Still.trans {s t u : Proc} (h : Still s t) (h' : Still t u) : Still s u :=
  ⟨h'.stream.trans h.stream, h'.counter.trans h.counter, h'.tagfmt.trans h.tagfmt,
    h'.chunks.trans h.chunks, h'.pumpLive.trans h.pumpLive⟩

theorem still_capFree (s : Proc) (i : Fin MAX_CAPS) : Still s (s.capFree i) := by
  unfold capFree
  split
  · exact still_rfl s
  · exact ⟨rfl, rfl, rfl, rfl, rfl⟩

theorem still_dropPending (s : Proc) : Still s s.dropPending := by
  unfold dropPending
  split
  · exact still_rfl s
  · rename_i i _
    have h := still_capFree s i
    exact ⟨h.stream, h.counter, h.tagfmt, h.chunks, h.pumpLive⟩

theorem still_forkPrepare (s : Proc) (flags : ForkFlags) (opened : Opened) (t : Nat) :
    Still s (s.forkPrepare flags opened t) := by
  have h := still_dropPending s
  unfold forkPrepare
  dsimp only
  split
  · exact h
  · split
    · exact h
    · split
      · exact h
      · exact ⟨h.stream, h.counter, h.tagfmt, h.chunks, h.pumpLive⟩

theorem still_forkDone (s : Proc) (forked : Bool) : Still s (s.forkDone forked) := by
  unfold forkDone
  split
  · exact ⟨rfl, rfl, rfl, rfl, rfl⟩
  · exact still_dropPending s

theorem still_setDefault (s : Proc) (dflt : Option Handle) :
    Still s { s with console := s.console.setDefault dflt } := by
  unfold Console.setDefault
  split
  · exact still_rfl s
  · exact ⟨rfl, rfl, rfl, rfl, rfl⟩

/-- The pump does not survive a fork. -/
theorem child_pumpLive (s : Proc) : s.atforkChild.childStdio.pumpLive = false := by
  have h : s.atforkChild.pumpLive = false := by
    unfold atforkChild
    split
    · rfl
    · rename_i hlive
      exact Bool.eq_false_iff.mpr hlive
  unfold childStdio
  split
  · exact h
  · exact h

theorem child_chunks {s : Proc} (hs : s.pumpLive = false → s.chunks = []) :
    s.atforkChild.childStdio.chunks = [] := by
  have h : s.atforkChild.chunks = [] := by
    unfold atforkChild
    split
    · rfl
    · rename_i hlive
      exact hs (Bool.eq_false_iff.mpr hlive)
  unfold childStdio
  split
  · exact h
  · exact h

theorem child_console (s : Proc) : s.atforkChild.childStdio.console = s.console := by
  have h : s.atforkChild.console = s.console := by
    unfold atforkChild
    split <;> rfl
  unfold childStdio
  split
  · exact h
  · exact h

theorem append_eq (s : Proc) (full : Bool) (bytes : List UInt8) :
    (s.append full bytes).console = s.console ∧
      (s.append full bytes).pumpLive = s.pumpLive ∧
      (s.append full bytes).chunks.flatten = s.chunks.flatten ++ bytes := by
  unfold append
  split
  · rename_i hlast
    rw [List.getLast?_eq_none_iff.mp hlast]
    simp
  · rename_i tail hlast
    split
    · simp
    · obtain ⟨init, hinit⟩ := List.getLast?_eq_some_iff.mp hlast
      simp [hinit]

end Proc

/-! ## The processes of a run -/

namespace World

theorem proc_shell (w : World) : w.proc SHELL = some w.shell := if_pos rfl

theorem proc_setProc (w : World) (p : Nat) (s : Proc) (q : Nat) :
    (w.setProc p s).proc q = if q = p then some s else w.proc q := by
  unfold setProc proc
  by_cases hp : p = SHELL
  · by_cases hq : q = SHELL
    · simp [hp, hq]
    · simp [hp, hq]
  · by_cases hq : q = SHELL
    · simp [hp, hq, Ne.symm hp]
    · by_cases hqp : q = p <;> simp [hp, hq, hqp]

@[simp] theorem queue_setProc (w : World) (p : Nat) (s : Proc) :
    (w.setProc p s).queue = w.queue := by
  unfold setProc
  split <;> rfl

theorem queue_setQueue (w : World) (m : Master) (bytes : List UInt8) :
    (w.setQueue m bytes).queue = Function.update w.queue m bytes := rfl

@[simp] theorem forks_setProc (w : World) (p : Nat) (s : Proc) :
    (w.setProc p s).forks = w.forks := by
  unfold setProc
  split <;> rfl

theorem shell_setProc_shell (w : World) (s : Proc) : (w.setProc SHELL s).shell = s := by
  unfold setProc
  rw [if_pos rfl]

theorem shell_setProc_of_ne (w : World) {p : Nat} (hp : p ≠ SHELL) (s : Proc) :
    (w.setProc p s).shell = w.shell := by
  unfold setProc
  rw [if_neg hp]

end World

section Run

variable (ident : Handle → Ident)

/-- What all states of the process `p` have in common. -/
structure Proc.Sound (p : Nat) (s : Proc) : Prop where
  built : s.console.Built ident Handle.lines
  pump : p ≠ SHELL → s.pumpLive = false
  chunks : s.pumpLive = false → s.chunks = []

/-- What all states of a run have in common. -/
structure World.Sound (w : World) : Prop where
  forks : w.forks ≠ SHELL
  proc : ∀ p s, w.proc p = some s → s.Sound ident p

variable {ident}

theorem Proc.Sound.still {p : Nat} {s s' : Proc} (hs : s.Sound ident p) (h : Still s s') :
    s'.Sound ident p := by
  refine ⟨⟨h.tagfmt.trans hs.built.tagfmt, ?_, ?_⟩, fun hp => h.pumpLive.trans (hs.pump hp),
    fun hlive => h.chunks.trans (hs.chunks (h.pumpLive.symm.trans hlive))⟩
  · rw [h.stream]
    exact hs.built.ident
  · rw [h.stream]
    exact hs.built.lines

theorem Proc.Sound.child {p q : Nat} {s : Proc} (hs : s.Sound ident p) :
    s.atforkChild.childStdio.Sound ident q := by
  refine ⟨?_, fun _ => child_pumpLive s, fun _ => child_chunks hs.chunks⟩
  rw [child_console]
  exact hs.built

theorem World.Sound.setProc {w : World} (hw : w.Sound ident) {p : Nat} {s : Proc}
    (hs : s.Sound ident p) : (w.setProc p s).Sound ident := by
  refine ⟨?_, fun q t ht => ?_⟩
  · rw [forks_setProc]
    exact hw.forks
  · rw [proc_setProc] at ht
    split_ifs at ht with hq
    · cases ht
      rw [hq]
      exact hs
    · exact hw.proc q t ht

theorem World.Sound.setQueue {w : World} (hw : w.Sound ident) (m : Master)
    (bytes : List UInt8) : (w.setQueue m bytes).Sound ident :=
  ⟨hw.forks, hw.proc⟩

theorem World.sound_start (ident : Handle → Ident) (pumpLive : Bool) :
    (World.start ident pumpLive).Sound ident := by
  refine ⟨by simp [World.start, SHELL], fun p s hs => ?_⟩
  unfold World.proc World.start at hs
  split_ifs at hs with hp
  · cases hs
    exact ⟨Console.built_start ident Handle.lines (some .self), fun h => (h hp).elim,
      fun _ => rfl⟩

/-! ## Turns -/

@[simp] theorem writesOf_append (outs outs' : List Out) :
    writesOf (outs ++ outs') = writesOf outs ++ writesOf outs' := List.filterMap_append

variable (ident) in
/-- What the shell does between two of its states, while it alone displays. -/
structure Turn (s : Proc) (outs : List Out) (s' : Proc) : Prop where
  shown : ∀ m, outs.flatMap (Out.given m) ++ s'.pending m
    = s.pending m ++ outs.flatMap (Out.shown m)
  wrote : Wrote ident Handle.lines s.console (writesOf outs) s'.console
  calls : ∀ h, Fallible.exec Call.run (s.console.stream h).lb (outs.filterMap (Out.callOn h))
    = .ok ((s'.console.stream h).lb, textsOf h (writesOf outs))

theorem Turn.append {s t u : Proc} {outs outs' : List Out} (h : Turn ident s outs t)
    (h' : Turn ident t outs' u) : Turn ident s (outs ++ outs') u := by
  refine ⟨fun m => ?_, ?_, fun k => ?_⟩
  · rw [List.flatMap_append, List.flatMap_append, List.append_assoc, h'.shown m,
      ← List.append_assoc, h.shown m, List.append_assoc]
  · rw [writesOf_append]
    exact h.wrote.append h'.wrote
  · rw [List.filterMap_append, Fallible.exec_append, h.calls k, writesOf_append, textsOf_append]
    simp only [Fallible.andThen, h'.calls k]

/-- Outputs that say nothing about what the shell displays. -/
structure Out.Silent (o : Out) : Prop where
  given : ∀ m, o.given m = []
  shown : ∀ m, o.shown m = []
  toWrite : o.toWrite = none
  callOn : ∀ h, o.callOn h = none

theorem Out.silent_call {p : Nat} (hp : p ≠ SHELL) (m : Master) (c : Call) :
    (Out.call p m c).Silent := by
  refine ⟨fun m' => ?_, fun _ => rfl, rfl, fun h => if_neg fun hc => hp hc.1⟩
  cases c with
  | bytes bytes trigger => exact if_neg fun hc => hp hc.1
  | flush => rfl

theorem Turn.silent {s s' : Proc} {outs : List Out} (hs : s.console.Built ident Handle.lines)
    (h : Proc.Still s s') (houts : ∀ o ∈ outs, o.Silent) : Turn ident s outs s' := by
  have hwrites : writesOf outs = [] :=
    List.filterMap_eq_nil_iff.mpr fun o ho => (houts o ho).toWrite
  refine ⟨fun m => ?_, ?_, fun k => ?_⟩
  · rw [List.flatMap_eq_nil_iff.mpr fun o ho => (houts o ho).given m,
      List.flatMap_eq_nil_iff.mpr fun o ho => (houts o ho).shown m, List.append_nil,
      List.nil_append, Proc.pending, Proc.pending, h.chunks]
  · rw [hwrites]
    refine Console.wrote_of_record_eq_none ⟨h.tagfmt.trans hs.tagfmt, ?_, ?_⟩ h.counter
      (by simp) (by simp)
    · rw [h.stream]
      exact hs.ident
    · rw [h.stream]
      exact hs.lines
  · rw [hwrites, List.filterMap_eq_nil_iff.mpr fun o ho => (houts o ho).callOn k, h.stream]
    rfl

/-- An operation on the console of the shell. -/
theorem Turn.op {s s' : Proc} {outs : List Out} {op : Display.Op Handle}
    {ws : List (Write Handle)} (hs : s.console.Built ident Handle.lines)
    (h : s.console.step op = .ok (s'.console, ws)) (hwrites : writesOf outs = ws)
    (hcalls : ∀ k, outs.filterMap (Out.callOn k) = (op.callOn k).toList)
    (hshown : ∀ m, outs.flatMap (Out.given m) ++ s'.pending m
      = s.pending m ++ outs.flatMap (Out.shown m)) : Turn ident s outs s' := by
  subst hwrites
  refine ⟨hshown, hs.wrote_step h, fun k => ?_⟩
  rw [hcalls k]
  exact Console.exec_callOn k h

/-! ## The filter in a process -/

section Writes

variable (p : Nat) (ws : List (Write Handle))

@[simp] theorem writesOf_write : writesOf (ws.map (Out.write p)) = ws := by
  rw [writesOf, List.filterMap_map]
  exact List.filterMap_some

@[simp] theorem filterMap_callOn_write (h : Handle) :
    (ws.map (Out.write p)).filterMap (Out.callOn h) = [] :=
  List.filterMap_eq_nil_iff.mpr fun o ho => by
    obtain ⟨w, -, rfl⟩ := List.mem_map.mp ho
    rfl

theorem flatMap_write {f : Out → List UInt8} (hf : ∀ w, f (.write p w) = []) :
    (ws.map (Out.write p)).flatMap f = [] :=
  List.flatMap_eq_nil_iff.mpr fun o ho => by
    obtain ⟨w, -, rfl⟩ := List.mem_map.mp ho
    exact hf w

@[simp] theorem flatMap_given_write (m : Master) :
    (ws.map (Out.write p)).flatMap (Out.given m) = [] := flatMap_write p ws fun _ => rfl

@[simp] theorem flatMap_shown_write (m : Master) :
    (ws.map (Out.write p)).flatMap (Out.shown m) = [] := flatMap_write p ws fun _ => rfl

@[simp] theorem flatMap_taken_write (m : Master) :
    (ws.map (Out.write p)).flatMap (Out.taken m) = [] := flatMap_write p ws fun _ => rfl

@[simp] theorem flatMap_sent_write (m : Master) :
    (ws.map (Out.write p)).flatMap (Out.sent m) = [] := flatMap_write p ws fun _ => rfl

end Writes

theorem Proc.filter_eq_ok {p : Nat} {m : Master} {s s' : Proc} {call : Call} {outs : List Out}
    (h : s.filter p m call = .ok (s', outs)) :
    ∃ c ws, s.console.filterCall m.stream call = .ok (c, ws) ∧ s' = { s with console := c } ∧
      outs = .call p m call :: ws.map (.write p) := by
  unfold filter at h
  split at h
  · cases h
  · rename_i c ws hcall
    cases h
    exact ⟨c, ws, hcall, rfl, rfl⟩

theorem Proc.Sound.filter {p q : Nat} {m : Master} {s s' : Proc} {call : Call}
    {outs : List Out} (hs : s.Sound ident q) (h : s.filter p m call = .ok (s', outs)) :
    s'.Sound ident q := by
  obtain ⟨c, ws, hcall, rfl, -⟩ := filter_eq_ok h
  exact ⟨(hs.built.wrote_filterCall hcall).built, hs.pump, hs.chunks⟩

theorem Proc.filter_by {p : Nat} {m : Master} {s s' : Proc} {call : Call} {outs : List Out}
    (h : s.filter p m call = .ok (s', outs)) : ∀ o ∈ outs, o.By p := by
  obtain ⟨c, ws, -, -, rfl⟩ := filter_eq_ok h
  intro o ho
  rcases List.mem_cons.mp ho with rfl | ho
  · rfl
  · obtain ⟨w, -, rfl⟩ := List.mem_map.mp ho
    rfl

/-- The filter takes nothing from a master and sends nothing. -/
theorem Proc.filter_taken {p : Nat} {m : Master} {s s' : Proc} {call : Call} {outs : List Out}
    (h : s.filter p m call = .ok (s', outs)) (m' : Master) :
    outs.flatMap (Out.taken m') = [] ∧ outs.flatMap (Out.sent m') = [] := by
  obtain ⟨c, ws, -, -, rfl⟩ := filter_eq_ok h
  constructor <;> simp [Out.taken, Out.sent]

/-- The shell reads bytes and gives them to its filter. -/
theorem Turn.read {m : Master} {s s' : Proc} {bytes : List UInt8} {outs : List Out}
    (hs : s.console.Built ident Handle.lines) (hm : s.pending m = [])
    (h : s.filter SHELL m (.bytes bytes false) = .ok (s', outs)) :
    Turn ident s (.read SHELL m bytes :: outs) s' := by
  obtain ⟨c, ws, hcall, rfl, rfl⟩ := Proc.filter_eq_ok h
  have hstep : s.console.step (.filter m.stream (.bytes bytes false)) = .ok (c, ws) := hcall
  refine Turn.op hs hstep (writesOf_write SHELL ws) (fun k => ?_) (fun m' => ?_)
  · by_cases hk : m.stream = k <;>
      simp [List.filterMap_cons, Out.callOn, Display.Op.callOn, hk]
  · by_cases hm' : m = m'
    · subst hm'
      have hpending : ({ s with console := c } : Proc).pending m = [] := hm
      rw [hpending, hm]
      simp [Out.given, Out.shown]
    · simp [Out.given, Out.shown, Proc.pending, hm']

/-- The shell flushes a stream. -/
theorem Turn.flush {m : Master} {s s' : Proc} {outs : List Out}
    (hs : s.console.Built ident Handle.lines) (h : s.filter SHELL m .flush = .ok (s', outs)) :
    Turn ident s outs s' := by
  obtain ⟨c, ws, hcall, rfl, rfl⟩ := Proc.filter_eq_ok h
  have hstep : s.console.step (.filter m.stream .flush) = .ok (c, ws) := hcall
  refine Turn.op hs hstep (writesOf_write SHELL ws) (fun k => ?_) (fun m' => ?_)
  · by_cases hk : m.stream = k <;> simp [Out.callOn, Display.Op.callOn, hk]
  · simp [Out.given, Out.shown, Proc.pending]

/-- The shell displays the first of its chunks. -/
theorem Turn.chunk {s s' : Proc} {chunk : List UInt8} (chunks : List (List UInt8))
    {outs : List Out} (hs : s.console.Built ident Handle.lines)
    (h : s.filter SHELL .self (.bytes chunk false) = .ok (s', outs)) :
    Turn ident { s with chunks := chunk :: chunks } outs { s' with chunks := chunks } := by
  obtain ⟨c, ws, hcall, rfl, rfl⟩ := Proc.filter_eq_ok h
  have hstep : s.console.step (.filter Master.self.stream (.bytes chunk false)) = .ok (c, ws) :=
    hcall
  refine Turn.op hs hstep (writesOf_write SHELL ws) (fun k => ?_) (fun m' => ?_)
  · by_cases hk : Master.self.stream = k <;> simp [Out.callOn, Display.Op.callOn, hk]
  · by_cases hm' : m' = .self
    · simp [Out.given, Out.shown, Proc.pending, hm']
    · simp [Out.given, Out.shown, Proc.pending, hm', Ne.symm hm']

/-- The shell displays all its chunks. -/
theorem Turn.chunks {s s' : Proc} {chunks : List (List UInt8)} {outs : List Out}
    (hs : s.console.Built ident Handle.lines)
    (h : Fallible.exec (Proc.filter SHELL .self) { s with chunks := [] }
      (chunks.map (Call.bytes · false)) = .ok (s', outs)) :
    Turn ident { s with chunks := chunks } outs s' := by
  induction chunks generalizing s outs with
  | nil =>
    cases h
    exact Turn.silent hs (Proc.still_rfl _) (by simp)
  | cons chunk chunks ih =>
    obtain ⟨t, us, u, vs, hfirst, hrest, hr⟩ := Fallible.andThen_eq_ok.mp h
    cases hr
    have hchunk := Turn.chunk (s := { s with chunks := [] }) chunks hs hfirst
    obtain ⟨c, ws, hcall, rfl, rfl⟩ := Proc.filter_eq_ok hfirst
    exact hchunk.append (ih (hs.wrote_filterCall hcall).built hrest)

theorem Proc.Sound.exec_filter {p q : Nat} {m : Master} {s s' : Proc} {calls : List Call}
    {outs : List Out} (hs : s.Sound ident q)
    (h : Fallible.exec (Proc.filter p m) s calls = .ok (s', outs)) : s'.Sound ident q :=
  Fallible.exec_invariant (I := Proc.Sound ident q) (fun _ _ _ _ hs h => hs.filter h) hs h

theorem Proc.exec_filter_by {p : Nat} {m : Master} {s s' : Proc} {calls : List Call}
    {outs : List Out} (h : Fallible.exec (Proc.filter p m) s calls = .ok (s', outs)) :
    ∀ o ∈ outs, o.By p := by
  refine Fallible.exec_law (Q := fun _ outs _ => ∀ o ∈ outs, o.By p) (by simp) ?_
    (fun _ _ _ _ _ hfilter => filter_by hfilter) h
  intro _ us _ us' _ hus hus'
  exact List.forall_mem_append.mpr ⟨hus, hus'⟩

theorem Proc.exec_filter_taken {p : Nat} {m : Master} {s s' : Proc} {calls : List Call}
    {outs : List Out} (h : Fallible.exec (Proc.filter p m) s calls = .ok (s', outs))
    (m' : Master) : outs.flatMap (Out.taken m') = [] ∧ outs.flatMap (Out.sent m') = [] := by
  refine Fallible.exec_law
    (Q := fun _ outs _ => outs.flatMap (Out.taken m') = [] ∧ outs.flatMap (Out.sent m') = [])
    (by simp) ?_ (fun _ _ _ _ _ hfilter => filter_taken hfilter m') h
  intro _ us _ us' _ hus hus'
  simp [List.flatMap_append, hus, hus']

/-! ## Steps -/

theorem World.take_append_setQueue (w : World) (m m' : Master) (n : Nat) :
    (if m = m' then (w.queue m).take n else []) ++
      (w.setQueue m ((w.queue m).drop n)).queue m' = w.queue m' := by
  rw [queue_setQueue]
  by_cases hm : m = m'
  · subst hm
    rw [if_pos rfl, Function.update_self, List.take_append_drop]
  · rw [if_neg hm, Function.update_of_ne (Ne.symm hm), List.nil_append]

variable (ident) in
/-- What a step does, and what composes to runs. -/
structure Progress (w : World) (outs : List Out) (w' : World) : Prop where
  sound : w'.Sound ident
  once : ∀ m, outs.flatMap (Out.taken m) ++ w'.queue m
    = w.queue m ++ outs.flatMap (Out.sent m)
  turn : (∀ o ∈ outs, o.ByShell) → Turn ident w.shell outs w'.shell

theorem World.Sound.shell {w : World} (hw : w.Sound ident) : w.shell.Sound ident SHELL :=
  hw.proc SHELL w.shell w.proc_shell

namespace Progress

variable {w v u : World} {p : Nat} {s s' : Proc} {outs outs' : List Out}

theorem append (h : Progress ident w outs v) (h' : Progress ident v outs' u) :
    Progress ident w (outs ++ outs') u := by
  refine ⟨h'.sound, fun m => ?_, fun hby => ?_⟩
  · rw [List.flatMap_append, List.flatMap_append, List.append_assoc, h'.once m,
      ← List.append_assoc, h.once m, List.append_assoc]
  · obtain ⟨hby, hby'⟩ := List.forall_mem_append.mp hby
    exact (h.turn hby).append (h'.turn hby')

/-- A step of the kernel, or a step that does nothing. -/
theorem kernel (hw : w.Sound ident) (hv : v.Sound ident) (hshell : v.shell = w.shell)
    (houts : ∀ o ∈ outs, o.Silent)
    (honce : ∀ m, outs.flatMap (Out.taken m) ++ v.queue m
      = w.queue m ++ outs.flatMap (Out.sent m)) : Progress ident w outs v := by
  refine ⟨hv, honce, fun _ => ?_⟩
  rw [hshell]
  exact Turn.silent hw.shell.built (Proc.still_rfl _) houts

theorem nothing (hw : w.Sound ident) : Progress ident w [] w :=
  kernel hw hw rfl (by simp) (by simp)

/-- A step of the process `p`. -/
theorem setProc (hw : w.Sound ident) (hv : v.Sound ident) (hshell : v.shell = w.shell)
    (hproc : w.proc p = some s) (hs' : s'.Sound ident p) (hby : ∀ o ∈ outs, o.By p)
    (honce : ∀ m, outs.flatMap (Out.taken m) ++ v.queue m
      = w.queue m ++ outs.flatMap (Out.sent m))
    (hturn : p = SHELL → Turn ident s outs s') : Progress ident w outs (v.setProc p s') := by
  refine ⟨hv.setProc hs', fun m => ?_, fun halone => ?_⟩
  · rw [World.queue_setProc]
    exact honce m
  · by_cases hp : p = SHELL
    · subst hp
      rw [World.proc_shell] at hproc
      cases hproc
      rw [World.shell_setProc_shell]
      exact hturn rfl
    · rw [World.shell_setProc_of_ne _ hp, hshell]
      refine Turn.silent hw.shell.built (Proc.still_rfl _) fun o ho => ?_
      obtain ⟨m, c, rfl⟩ := Out.eq_call_of_byShell hp (hby o ho) (halone o ho)
      exact Out.silent_call hp m c

/-- A step of the process `p` that shows nothing. -/
theorem still (hw : w.Sound ident) (hproc : w.proc p = some s) (h : Proc.Still s s') :
    Progress ident w [] (w.setProc p s') :=
  setProc hw hw rfl hproc ((hw.proc p s hproc).still h) (by simp) (by simp)
    fun _ => Turn.silent (hw.proc p s hproc).built h (by simp)

theorem fork (hw : w.Sound ident) (hproc : w.proc p = some s) (flags : ForkFlags)
    (opened : Opened) (forked : Bool) :
    Progress ident w [] (w.fork p s flags opened forked) := by
  have hs := hw.proc p s hproc
  have hprepare := s.still_forkPrepare flags opened w.forks
  have hdone := hprepare.trans (Proc.still_forkDone _ forked)
  have hcount : ({ w with forks := w.forks + 1 } : World).Sound ident :=
    ⟨Nat.succ_ne_zero _, hw.proc⟩
  have hparent : Progress ident w [] (({ w with forks := w.forks + 1 } : World).setProc p
      ((s.forkPrepare flags opened w.forks).forkDone forked)) :=
    setProc hw hcount rfl hproc (hs.still hdone) (by simp) (by simp)
      fun _ => Turn.silent hs.built hdone (by simp)
  unfold World.fork
  dsimp only
  split
  · refine ⟨hparent.sound.setProc (hs.still hprepare).child, fun m => ?_, fun halone => ?_⟩
    · rw [World.queue_setProc]
      exact hparent.once m
    · rw [World.shell_setProc_of_ne _ hw.forks]
      exact hparent.turn halone
  · exact hparent

theorem read {m : Master} {n : Nat} (hw : w.Sound ident) (hproc : w.proc p = some s)
    (hm : p = SHELL → s.pending m = []) (h : w.read p s m n = .ok (v, outs)) :
    Progress ident w outs v := by
  unfold World.read at h
  dsimp only at h
  split at h
  · cases h
  · rename_i t us hfilter
    cases h
    have hs := hw.proc p s hproc
    refine setProc hw (hw.setQueue m _) rfl hproc (hs.filter hfilter) ?_ (fun m' => ?_) ?_
    · exact List.forall_mem_cons.mpr ⟨rfl, Proc.filter_by hfilter⟩
    · obtain ⟨htaken, hsent⟩ := Proc.filter_taken hfilter m'
      rw [List.flatMap_cons, List.flatMap_cons, htaken, hsent, List.append_nil]
      exact (w.take_append_setQueue m m' (n + 1)).trans (List.append_nil _).symm
    · rintro rfl
      exact Turn.read hs.built (hm rfl) hfilter

theorem takeChunks (hw : w.Sound ident) (hproc : w.proc p = some s)
    (hp : s.pumpLive = true) (h : w.takeChunks p s = .ok (v, outs)) :
    Progress ident w outs v := by
  have hshell : p = SHELL := by
    by_contra hne
    rw [(hw.proc p s hproc).pump hne] at hp
    cases hp
  subst hshell
  unfold World.takeChunks at h
  split at h
  · cases h
  · rename_i t _ hexec
    cases h
    have hs := hw.proc SHELL s hproc
    have hs₀ : ({ s with chunks := [] } : Proc).Sound ident SHELL :=
      ⟨hs.built, hs.pump, fun _ => rfl⟩
    have hquiet := Proc.exec_filter_taken hexec
    refine setProc hw hw rfl hproc (hs₀.exec_filter hexec) (Proc.exec_filter_by hexec)
      (fun m => ?_) fun _ => ?_
    · rw [(hquiet m).1, (hquiet m).2, List.nil_append, List.append_nil]
    · exact Turn.chunks hs.built hexec

theorem drainSelf {n : Nat} (hw : w.Sound ident) (hproc : w.proc p = some s)
    (h : w.drainSelf p s n = .ok (v, outs)) : Progress ident w outs v := by
  unfold World.drainSelf at h
  split at h
  · rename_i hlive
    exact takeChunks hw hproc hlive h
  · rename_i hlive
    split at h
    · cases h
      exact nothing hw
    · refine read hw hproc (fun _ => ?_) h
      rw [Proc.pending, if_pos rfl,
        (hw.proc p s hproc).chunks (Bool.eq_false_iff.mpr hlive), List.flatten_nil]

theorem drainCap {i : Fin MAX_CAPS} {pty : Pty} {n : Nat} {hidden : Bool} (hw : w.Sound ident)
    (hproc : w.proc p = some s) (h : w.drainCap p s i pty n hidden = .ok (v, outs)) :
    Progress ident w outs v := by
  unfold World.drainCap at h
  dsimp only at h
  split at h
  · cases h
    exact nothing hw
  · rename_i cp _
    split_ifs at h with hclosed hqueue hhidden hended
    · cases h
      exact nothing hw
    · cases h
      obtain ⟨rfl, -⟩ := hhidden
      refine kernel hw (hw.setQueue _ _) rfl ?_ fun m => ?_
      · exact List.forall_mem_singleton.mpr ⟨fun _ => rfl, fun _ => rfl, rfl, fun _ => rfl⟩
      · rw [List.flatMap_singleton, List.flatMap_singleton]
        exact (w.take_append_setQueue (.cap cp.task .mIn) m (n + 1)).trans
          (List.append_nil _).symm
    · exact read hw hproc (fun _ => if_neg (by simp)) h
    · split at h
      · cases h
      · rename_i t _ hfilter
        cases h
        have hs := hw.proc p s hproc
        have ht := hs.filter hfilter
        refine setProc hw hw rfl hproc ⟨ht.built, ht.pump, ht.chunks⟩ (Proc.filter_by hfilter)
          (fun m => ?_) ?_
        · obtain ⟨htaken, hsent⟩ := Proc.filter_taken hfilter m
          rw [htaken, hsent, List.nil_append, List.append_nil]
        · rintro rfl
          have hturn := Turn.flush hs.built hfilter
          exact ⟨hturn.shown, hturn.wrote, hturn.calls⟩
    · cases h
      exact nothing hw

theorem sync {wsCol : Option Nat} (hw : w.Sound ident) (hproc : w.proc p = some s)
    (h : w.sync p s wsCol = .ok (v, outs)) : Progress ident w outs v := by
  unfold World.sync at h
  split at h
  · cases h
  · rename_i c ws hsync
    cases h
    have hs := hw.proc p s hproc
    have hstep : s.console.step (.sync wsCol) = .ok (c, ws) := hsync
    refine setProc hw hw rfl hproc ⟨(hs.built.wrote_step hstep).built, hs.pump, hs.chunks⟩ ?_
      (by simp) fun hp => ?_
    · intro o ho
      obtain ⟨_, -, rfl⟩ := List.mem_map.mp ho
      rfl
    · exact Turn.op hs.built hstep (writesOf_write p ws)
        (filterMap_callOn_write p ws) (by simp [Proc.pending])

theorem release (hw : w.Sound ident) (hproc : w.proc p = some s) (i : Fin MAX_CAPS) :
    Progress ident w [] (w.release p s i) := by
  unfold World.release
  split
  · exact nothing hw
  · split
    · exact still hw hproc (s.still_capFree i)
    · exact nothing hw

theorem pump {n : Nat} {full : Bool} (hw : w.Sound ident) (hlive : w.shell.pumpLive = true) :
    Progress ident w [.read SHELL .self ((w.queue .self).take (n + 1))]
      ((w.setQueue .self ((w.queue .self).drop (n + 1))).setProc SHELL
        (w.shell.append full ((w.queue .self).take (n + 1)))) := by
  obtain ⟨hconsole, hpump, hchunks⟩ := w.shell.append_eq full ((w.queue .self).take (n + 1))
  have hsilent : Turn ident w.shell [] w.shell :=
    Turn.silent hw.shell.built (Proc.still_rfl _) (by simp)
  refine setProc hw (hw.setQueue _ _) rfl w.proc_shell ⟨?_, fun h => (h rfl).elim, fun h => ?_⟩
    (by simp [Out.By]) (fun m => ?_) fun _ => ⟨fun m => ?_, ?_, fun k => ?_⟩
  · rw [hconsole]
    exact hw.shell.built
  · rw [hpump, hlive] at h
    cases h
  · rw [List.flatMap_singleton, List.flatMap_singleton]
    exact (w.take_append_setQueue .self m (n + 1)).trans (List.append_nil _).symm
  · by_cases hm : m = .self
    · simp [Out.given, Out.shown, Proc.pending, hm, hchunks]
    · simp [Out.given, Out.shown, Proc.pending, hm, Ne.symm hm]
  · rw [hconsole]
    exact hsilent.wrote
  · rw [hconsole]
    exact hsilent.calls k

theorem active {k : Proc → Except Stuck (World × List Out)} (hw : w.Sound ident)
    (hk : ∀ s, w.proc p = some s → k s = .ok (v, outs) → Progress ident w outs v)
    (h : w.active p k = .ok (v, outs)) : Progress ident w outs v := by
  unfold World.active at h
  split at h
  · cases h
  · rename_i s hproc
    split at h
    · exact hk s hproc h
    · cases h
      exact nothing hw

/-- What one step does. -/
theorem step {a : Act} (hw : w.Sound ident) (h : w.step a = .ok (v, outs)) :
    Progress ident w outs v := by
  cases a with
  | fork p flags opened forked =>
    simp only [World.step] at h
    split at h
    · cases h
    · rename_i hproc
      cases h
      exact fork hw hproc flags opened forked
  | write m bytes =>
    simp only [World.step] at h
    split at h
    · cases h
    · cases h
      refine kernel hw (hw.setQueue _ _) rfl ?_ fun m' => ?_
      · exact List.forall_mem_singleton.mpr ⟨fun _ => rfl, fun _ => rfl, rfl, fun _ => rfl⟩
      · rw [World.queue_setQueue]
        by_cases hm : m' = m
        · simp [Out.taken, Out.sent, hm]
        · simp [Out.taken, Out.sent, hm, Ne.symm hm]
  | close m =>
    cases h
    exact kernel hw ⟨hw.forks, hw.proc⟩ rfl (by simp) (by simp)
  | pump n full =>
    simp only [World.step] at h
    split at h
    · cases h
    · rename_i hlive
      cases h
      exact pump hw (Bool.eq_true_of_not_eq_false fun h => hlive (Or.inl h))
  | drainSelf p n => exact active hw (fun s hproc h => drainSelf hw hproc h) h
  | drainCap p i pty n hidden => exact active hw (fun s hproc h => drainCap hw hproc h) h
  | release p i =>
    refine active hw (fun s hproc h => ?_) h
    cases h
    exact release hw hproc i
  | sync p wsCol => exact active hw (fun s hproc h => sync hw hproc h) h
  | setDefault p dflt =>
    refine active hw (fun s hproc h => ?_) h
    cases h
    exact still hw hproc (s.still_setDefault _)

/-- What a run does. -/
theorem exec {acts : List Act} (hw : w.Sound ident)
    (h : Fallible.exec World.step w acts = .ok (v, outs)) : Progress ident w outs v :=
  Fallible.exec_law (Q := fun w outs v => w.Sound ident → Progress ident w outs v)
    (fun _ hw => nothing hw)
    (fun _ _ _ _ _ hfirst hrest hw => (hfirst hw).append (hrest (hfirst hw).sound))
    (fun _ _ _ _ _ hstep hw => step hw hstep) h hw

end Progress

end Run

end Basht.Fork
