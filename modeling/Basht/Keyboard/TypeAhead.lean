import Basht.Keyboard.Keys

/-!
# What has been typed at the end of an episode

During a foreground episode keys go to the foreground task, or to the shell's type-ahead line. A
ledger keeps the characters in the order in which they are typed, until they are shipped or
erased; at the end readline is handed what it holds (`handed_over_iff`), if the queue of readline
has room and the classes of the ledger, which the code queues one after the other, read as in
that order.
-/

namespace Basht.Keyboard

open Basht.Filter Basht.Tasks

/-! ## The ledger -/

/-- A character is in a line of the shell that has been entered, in the task's line or in the
shell's line. -/
inductive Class where
  | entered
  | task
  | shell
deriving DecidableEq, Repr

/-- The typed characters that are neither shipped nor erased, in the order of typing, with a
newline for each line that has been entered; and what has been shipped. -/
structure Ledger where
  items : List (Class × UInt8)
  shipped : List UInt8

namespace Ledger

def empty : Ledger := ⟨[], []⟩

/-- The characters of a class. -/
def bytesOf (k : Class) (items : List (Class × UInt8)) : List UInt8 :=
  (items.filter fun t => t.1 = k).map Prod.snd

/-- Without the last character of a class. -/
def eraseLast (k : Class) (items : List (Class × UInt8)) : List (Class × UInt8) :=
  (items.reverse.eraseP fun t => t.1 = k).reverse

/-- The shell's line is entered. -/
def enter (t : Class × UInt8) : Class × UInt8 := if t.1 = .shell then (.entered, t.2) else t

/-- A key that is typed for the task or for the shell. -/
def key (k : Class) (l : Ledger) : Key → Ledger
  | .char c _ => { l with items := l.items ++ [(k, c)] }
  | .erase _ _ => { l with items := eraseLast k l.items }
  | .enter _ _ =>
    if k = .task then
      ⟨l.items.filter fun t => t.1 ≠ .task, l.shipped ++ (bytesOf .task l.items ++ [0x0a])⟩
    else { l with items := l.items.map enter ++ [(.entered, 0x0a)] }
  | .cycle _ => l

/-- All characters, as they are typed. -/
def bytes (l : Ledger) : List UInt8 := l.items.map Prod.snd

/-- The classes one after the other read as the characters do in the order of typing. -/
def InOrder (l : Ledger) : Prop :=
  l.bytes = bytesOf .entered l.items ++ bytesOf .task l.items ++ bytesOf .shell l.items

/-- The shell's line has been typed after the lines that have been entered. -/
def Sorted (items : List (Class × UInt8)) : Prop :=
  items.Pairwise fun t t' => ¬(t.1 = .shell ∧ t'.1 = .entered)

/-! ## The classes of the ledger -/

variable {k k' : Class} {items : List (Class × UInt8)}

theorem bytesOf_cons (t : Class × UInt8) :
    bytesOf k (t :: items) = if t.1 = k then t.2 :: bytesOf k items else bytesOf k items := by
  simp only [bytesOf, List.filter_cons]
  split <;> simp_all

theorem bytesOf_append (items items' : List (Class × UInt8)) :
    bytesOf k (items ++ items') = bytesOf k items ++ bytesOf k items' := by
  rw [bytesOf, List.filter_append, List.map_append]
  rfl

theorem bytesOf_single_self (c : UInt8) : bytesOf k [(k, c)] = [c] := by
  rw [bytesOf_cons, if_pos rfl]
  rfl

theorem bytesOf_single_ne (h : k' ≠ k) (c : UInt8) : bytesOf k [(k', c)] = [] := by
  rw [bytesOf_cons, if_neg h]
  rfl

theorem reverse_bytesOf : (bytesOf k items).reverse = bytesOf k items.reverse := by
  rw [bytesOf, bytesOf, List.filter_reverse, List.map_reverse]

theorem bytesOf_eraseP_self (l : List (Class × UInt8)) :
    bytesOf k (l.eraseP fun t => t.1 = k) = (bytesOf k l).tail := by
  induction l with
  | nil => rfl
  | cons t l ih =>
    by_cases ht : t.1 = k
    · rw [List.eraseP_cons_of_pos (by simpa using ht), bytesOf_cons, if_pos ht, List.tail_cons]
    · rw [List.eraseP_cons_of_neg (by simpa using ht), bytesOf_cons, bytesOf_cons, if_neg ht,
        if_neg ht, ih]

theorem bytesOf_eraseP_ne (h : k' ≠ k) (l : List (Class × UInt8)) :
    bytesOf k (l.eraseP fun t => t.1 = k') = bytesOf k l := by
  induction l with
  | nil => rfl
  | cons t l ih =>
    by_cases ht : t.1 = k'
    · rw [List.eraseP_cons_of_pos (by simpa using ht), bytesOf_cons, if_neg (ht ▸ h)]
    · rw [List.eraseP_cons_of_neg (by simpa using ht), bytesOf_cons, bytesOf_cons, ih]

/-- Erasing takes the last character of its class. -/
theorem bytesOf_eraseLast_self : bytesOf k (eraseLast k items) = (bytesOf k items).dropLast := by
  rw [eraseLast, ← reverse_bytesOf, bytesOf_eraseP_self, ← reverse_bytesOf, List.tail_reverse,
    List.reverse_reverse]

theorem bytesOf_eraseLast_ne (h : k' ≠ k) : bytesOf k (eraseLast k' items) = bytesOf k items := by
  rw [eraseLast, ← reverse_bytesOf, bytesOf_eraseP_ne h, ← reverse_bytesOf, List.reverse_reverse]

theorem eraseLast_sublist : (eraseLast k items).Sublist items := by
  have hsub := (List.eraseP_sublist (p := fun t => t.1 = k) (l := items.reverse)).reverse
  rwa [List.reverse_reverse] at hsub

theorem bytesOf_ship_task : bytesOf .task (items.filter fun t => t.1 ≠ .task) = [] := by
  simp [bytesOf, List.filter_filter]

theorem bytesOf_ship_ne (h : k ≠ .task) :
    bytesOf k (items.filter fun t => t.1 ≠ .task) = bytesOf k items := by
  rw [bytesOf, List.filter_filter]
  congr 1
  apply List.filter_congr
  intro t _
  by_cases ht : t.1 = k
  · simp [ht, h]
  · simp [ht]

theorem bytesOf_enter_shell : bytesOf .shell (items.map enter) = [] := by
  induction items with
  | nil => rfl
  | cons t items ih =>
    rw [List.map_cons, bytesOf_cons, ih, enter]
    split <;> simp_all

theorem bytesOf_enter_task : bytesOf .task (items.map enter) = bytesOf .task items := by
  induction items with
  | nil => rfl
  | cons t items ih =>
    rw [List.map_cons, bytesOf_cons, bytesOf_cons, ih, enter]
    split <;> simp_all

theorem bytesOf_eq_nil (h : ∀ t ∈ items, t.1 ≠ k) : bytesOf k items = [] := by
  simpa [bytesOf] using h

/-- The lines that have been entered are followed by the one that is entered now. -/
theorem bytesOf_enter_entered (h : Sorted items) :
    bytesOf .entered (items.map enter) = bytesOf .entered items ++ bytesOf .shell items := by
  induction items with
  | nil => rfl
  | cons t items ih =>
    obtain ⟨hfirst, hrest⟩ := List.pairwise_cons.mp h
    rw [List.map_cons, bytesOf_cons, bytesOf_cons, bytesOf_cons, ih hrest]
    rcases t with ⟨k, c⟩
    cases k with
    | entered => rfl
    | task => rfl
    | shell =>
      have hnil : bytesOf .entered items = [] := by
        apply bytesOf_eq_nil
        intro t' ht' heq
        exact hfirst t' ht' ⟨rfl, heq⟩
      rw [hnil]
      rfl

/-! ## The ledger stays sorted -/

theorem Sorted.append_single (h : Sorted items) (hk : k ≠ .entered) (c : UInt8) :
    Sorted (items ++ [(k, c)]) := by
  apply List.pairwise_append.mpr
  refine ⟨h, List.pairwise_singleton _ _, ?_⟩
  rintro t - t' ht' ⟨-, hentered⟩
  rw [List.mem_singleton.mp ht'] at hentered
  exact hk hentered

theorem sorted_enter (items : List (Class × UInt8)) :
    Sorted (items.map enter ++ [(.entered, 0x0a)]) := by
  have hno : ∀ t ∈ items.map enter ++ [(Class.entered, (0x0a : UInt8))], t.1 ≠ .shell := by
    intro t ht
    rcases List.mem_append.mp ht with ht | ht
    · obtain ⟨t', -, rfl⟩ := List.mem_map.mp ht
      rw [enter]
      split
      · nofun
      · assumption
    · rw [List.mem_singleton.mp ht]
      nofun
  apply List.pairwise_of_forall_mem_list
  rintro t ht - - ⟨hshell, -⟩
  exact hno t ht hshell

theorem Sorted.key {l : Ledger} (h : Sorted l.items) (hk : k ≠ .entered) (e : Key) :
    Sorted (l.key k e).items := by
  cases e with
  | char c hc => exact h.append_single hk c
  | erase c hc => exact h.sublist eraseLast_sublist
  | enter c hc =>
    simp only [Ledger.key]
    split
    · exact h.sublist List.filter_sublist
    · exact sorted_enter l.items
  | cycle d => exact h

end Ledger

/-! ## An episode -/

/-- What happens during an episode: a read of the keyboard, what the tasks do meanwhile (their
slots, and the owner of the bottom line), and the foreground task's coming to be in a window. -/
inductive Event where
  | read (keys : List Key)
  | tasks (slots : Fin MAX_CAPS → Slot) (bot : Option Owner)
  | standDown

/-- The class of the characters that are typed, for the targets of the ledger. -/
def Pump.Sink.class : Pump.Sink → Option Class
  | .line _ .fg => some .task
  | .typeAhead => some .shell
  | .line _ .prompt | .raw _ => none

def Ledger.read (l : Ledger) (k : Pump.Sink) (keys : List Key) : Ledger :=
  match k.class with
  | none => l
  | some k => keys.foldl (Ledger.key k) l

/-- The keyboard with the ledger of what is typed. -/
def episode : Transducer (Pump × Ledger) Event Out where
  step x e :=
    match e with
    | .read keys =>
      match x.1.fgCap with
      | none => (x, [])
      | some c =>
        let r := x.1.fgRead c (keys.flatMap Key.bytes)
        ((r.1, x.2.read (x.1.fgArrive c).2.1 keys), r.2)
    | .tasks slots bot => (({ x.1 with slots := slots, bot := bot }, x.2), [])
    | .standDown => ((x.1.standDown, x.2), [])

/-- The bytes that are sent to tasks. -/
def sent (out : List Out) : List UInt8 :=
  out.filterMap fun o =>
    match o with
    | .key _ _ b => some b
    | .signal _ _ | .insert _ | .getc _ | .cycle _ => none

/-- The keys are read for the foreground task, in line mode and with its keyboard open, or for
the shell. -/
def Typing (x : Pump × Ledger) : Event → Prop
  | .read _ => x.1.InFg ∧ ∃ c, x.1.fgCap = some c ∧ (x.1.slots c).cap.mIn = true ∧
      ((x.1.fgArrive c).2.1 = .line c .fg ∨ (x.1.fgArrive c).2.1 = .typeAhead)
  | .tasks _ _ | .standDown => True

/-- The readers of a read, key by key. -/
def keyReader (k : Pump.Sink) : Transducer Pump Key Out where
  step s e := s.feed e.bytes k

/-- A character finds room in its line. -/
def FindsRoom (k : Pump.Sink) (s : Pump) : Key → Prop
  | .char _ _ =>
    match k with
    | .line i r => (relayPrefix (s.slots i) (s.rly r)).text.length < CAP - 2
    | .typeAhead => s.taRly.text.length < CAP - 2
    | .raw _ => True
  | .erase _ _ | .enter _ _ | .cycle _ => True

/-- Every character finds room in its line, and the foreground task does not come to be in a
window while there is a typed line for it. -/
def Roomy (x : Pump × Ledger) : Event → Prop
  | .read keys => ∀ c, x.1.fgCap = some c →
      (keyReader (x.1.fgArrive c).2.1).Along (FindsRoom (x.1.fgArrive c).2.1) (x.1.fgArrive c).1
        keys
  | .tasks _ _ => True
  | .standDown => x.1.fgRly.typed = []

/-- At the end of the episode readline gets the characters of the ledger in their order, and what
has been shipped has been sent to tasks. -/
def HandedOver (s : Pump) (es : List Event) : Prop :=
  let x := episode.final (s, .empty) es
  x.1.fgEnd.ibuffer.takeAll IBUFFER_LEN = x.2.bytes ∧
    sent (episode.output (s, .empty) es) = x.2.shipped

/-! ## What is kept -/

/-- The relays hold what the ledger says. -/
structure Kept (s : Pump) (l : Ledger) : Prop where
  esc : s.fgRly.esc = .normal
  taEsc : s.taEsc = .normal
  task : s.fgRly.typed = Ledger.bytesOf .task l.items
  shell : s.taRly.text = Ledger.bytesOf .shell l.items
  queue : s.ibuffer.toList = (Ledger.bytesOf .entered l.items).take IBUFFER_LEN
  sorted : Ledger.Sorted l.items

variable {s : Pump} {l : Ledger} {i : Fin MAX_CAPS}

theorem relayPrefix_typed (sl : Slot) (r : Relay) : (relayPrefix sl r).typed = r.typed := by
  unfold relayPrefix
  split
  · rfl
  · rename_i htext
    have htyped : r.typed = [] := (List.append_eq_nil_iff.mp (not_not.mp htext)).2
    rw [htyped]
    split
    · rfl
    · split
      · rfl
      · exact htyped

theorem relayPrefix_esc (sl : Slot) (r : Relay) : (relayPrefix sl r).esc = r.esc := by
  unfold relayPrefix
  split
  · rfl
  · split
    · rfl
    · split <;> rfl

theorem sent_write (sl : Slot) (bytes : List UInt8) (h : sl.keyFd.isSome) :
    sent (sl.write i bytes) = bytes := by
  obtain ⟨p, hp⟩ := Option.isSome_iff_exists.mp h
  rw [Slot.write, hp]
  simp only [sent, List.filterMap_map]
  exact List.filterMap_some

theorem completeLine_fgRly (c : Console) : (c.completeLine i).fgRly = c.fgRly := by
  unfold Console.completeLine
  split
  · rfl
  · split <;> rfl

theorem completeLine_taRly (c : Console) : (c.completeLine i).taRly = c.taRly := by
  unfold Console.completeLine
  split
  · rfl
  · split <;> rfl

theorem completeLine_keyFd (c : Console) :
    ((c.completeLine i).slots i).keyFd = (c.slots i).keyFd := by
  unfold Console.completeLine
  split
  · exact (congrArg Slot.keyFd (Function.update_self i _ c.slots)).trans rfl
  · split
    · exact (congrArg Slot.keyFd (Function.update_self i _ c.slots)).trans rfl
    · rfl

theorem cycleOwner_eq (d : Dir) (c : Console) : ∃ m p b, Console.cycleOwner d c =
    { c with manualSel := m, manualSelPid := p, bot := b } := by
  unfold Console.cycleOwner
  split
  · exact ⟨_, _, _, rfl⟩
  · exact ⟨_, _, _, rfl⟩

/-- The keys of a task's line leave the shell's line alone. -/
theorem Kept.line (h : Kept s l) {c : Console} {e : Key} (hesc : c.fgRly.esc = .normal)
    (hta : c.taRly = s.taRly)
    (htyped : c.fgRly.typed = Ledger.bytesOf .task (l.key .task e).items) :
    Kept (s.setConsole c) (l.key .task e) := by
  have hother : ∀ k, k ≠ .task →
      Ledger.bytesOf k (l.key .task e).items = Ledger.bytesOf k l.items := by
    intro k hk
    cases e with
    | char c hc => simp only [Ledger.key, Ledger.bytesOf_append,
        Ledger.bytesOf_single_ne hk.symm, List.append_nil]
    | erase c hc => exact Ledger.bytesOf_eraseLast_ne hk.symm
    | enter c hc => exact Ledger.bytesOf_ship_ne hk
    | cycle d => rfl
  refine ⟨hesc, h.taEsc, htyped, ?_, ?_, h.sorted.key (by decide) e⟩
  · rw [hother .shell (by decide), ← h.shell]
    exact congrArg Relay.text hta
  · rw [hother .entered (by decide)]
    exact h.queue

theorem keyReader_line (e : Key) :
    (keyReader (.line i .fg)).step s e =
      ((Pump.lineReader i .fg).final s e.bytes, (Pump.lineReader i .fg).output s e.bytes) := rfl

/-- A key in the line of the foreground task. -/
theorem Kept.step_line (h : Kept s l) (hopen : (s.slots i).keyFd.isSome) {e : Key}
    (hroom : FindsRoom (.line i .fg) s e) :
    Kept ((keyReader (.line i .fg)).step s e).1 (l.key .task e) ∧
      (((keyReader (.line i .fg)).step s e).1.slots i).keyFd = (s.slots i).keyFd ∧
      (l.key .task e).shipped = l.shipped ++ sent ((keyReader (.line i .fg)).step s e).2 := by
  have hesc : (s.rly .fg).esc = .normal := h.esc
  rw [keyReader_line]
  cases e with
  | char c hc =>
    have hchar := Console.relayChar_char (i := i) hesc hc
    simp only [Key.bytes, Transducer.final_cons, Transducer.final_nil, Transducer.output_cons,
      Transducer.output_nil, Pump.lineReader, hchar, List.append_nil]
    have hfits : (relayPrefix (s.slots i) s.fgRly).text.length < CAP - 2 := hroom
    have hfg : (s.relayType i .fg c).fgRly = { relayPrefix (s.slots i) s.fgRly with
        typed := (relayPrefix (s.slots i) s.fgRly).typed ++ [c] } := if_pos hfits
    refine ⟨h.line ?_ rfl ?_, rfl, (List.append_nil _).symm⟩
    · rw [hfg]
      exact (relayPrefix_esc _ _).trans h.esc
    · rw [hfg]
      simp only [Ledger.key, Ledger.bytesOf_append, Ledger.bytesOf_single_self,
        relayPrefix_typed, h.task]
  | erase c hc =>
    have hchar := Console.relayChar_erase (i := i) hesc hc
    simp only [Key.bytes, Transducer.final_cons, Transducer.final_nil, Transducer.output_cons,
      Transducer.output_nil, Pump.lineReader, hchar, List.append_nil]
    refine ⟨h.line h.esc rfl ?_, rfl, (List.append_nil _).symm⟩
    exact (congrArg List.dropLast h.task).trans Ledger.bytesOf_eraseLast_self.symm
  | enter c hc =>
    have hchar := Console.relayChar_enter (i := i) hesc hc
    simp only [Key.bytes, Transducer.final_cons, Transducer.final_nil, Transducer.output_cons,
      Transducer.output_nil, Pump.lineReader, hchar, List.append_nil]
    refine ⟨h.line ?_ ?_ ?_, ?_, ?_⟩
    · rw [Console.relayEnter, completeLine_fgRly]
      exact (relayPrefix_esc _ _).trans h.esc
    · rw [Console.relayEnter, completeLine_taRly]
      rfl
    · rw [Console.relayEnter, completeLine_fgRly]
      exact Ledger.bytesOf_ship_task.symm
    · exact completeLine_keyFd _
    · have htyped : (relayPrefix (s.slots i) s.fgRly).typed = Ledger.bytesOf .task l.items :=
        (relayPrefix_typed _ _).trans h.task
      simp only [Console.relayEnter, Console.rly, htyped, sent_write _ _ hopen]
      rfl
  | cycle d =>
    obtain ⟨hfinal, hout⟩ := Pump.lineReader_cycle (i := i) hesc d
    obtain ⟨m, p, b, hcycle⟩ := cycleOwner_eq d s.toConsole
    simp only [Key.bytes, hfinal, hout, hcycle]
    exact ⟨h.line h.esc rfl h.task, rfl, (List.append_nil _).symm⟩

/-- The keys of the shell's line leave the task's line alone. -/
theorem Kept.shell_line (h : Kept s l) {s' : Pump} {e : Key} (hfg : s'.fgRly = s.fgRly)
    (hesc : s'.taEsc = .normal)
    (hta : s'.taRly.text = Ledger.bytesOf .shell (l.key .shell e).items)
    (hqueue : s'.ibuffer.toList =
      (Ledger.bytesOf .entered (l.key .shell e).items).take IBUFFER_LEN) :
    Kept s' (l.key .shell e) := by
  have htask : Ledger.bytesOf .task (l.key .shell e).items = Ledger.bytesOf .task l.items := by
    cases e with
    | char c hc => simp only [Ledger.key, Ledger.bytesOf_append,
        Ledger.bytesOf_single_ne (show Class.shell ≠ .task by decide), List.append_nil]
    | erase c hc => exact Ledger.bytesOf_eraseLast_ne (by decide)
    | enter c hc =>
      have hnot : Class.shell ≠ .task := by decide
      simp only [Ledger.key, if_neg hnot, Ledger.bytesOf_append, Ledger.bytesOf_enter_task,
        Ledger.bytesOf_single_ne (show Class.entered ≠ .task by decide), List.append_nil]
    | cycle d => rfl
  refine ⟨?_, hesc, ?_, hta, hqueue, h.sorted.key (by decide) e⟩
  · rw [hfg]
    exact h.esc
  · rw [hfg, htask]
    exact h.task

theorem text_setTypeAhead (line : List UInt8) : (s.setTypeAhead line).taRly.text = line := rfl

theorem keyReader_typeAhead (e : Key) :
    (keyReader .typeAhead).step s e =
      (Pump.typeAheadReader.final s e.bytes, Pump.typeAheadReader.output s e.bytes) := rfl

/-- A key in the line of the shell. -/
theorem Kept.step_typeAhead (h : Kept s l) {e : Key} (hroom : FindsRoom .typeAhead s e) :
    Kept ((keyReader .typeAhead).step s e).1 (l.key .shell e) ∧
      (l.key .shell e).shipped = l.shipped ++ sent ((keyReader .typeAhead).step s e).2 := by
  rw [keyReader_typeAhead]
  cases e with
  | char c hc =>
    have hchar := Pump.typeAheadChar_char h.taEsc hc hroom
    simp only [Key.bytes, Transducer.final_cons, Transducer.final_nil, Transducer.output_cons,
      Transducer.output_nil, Pump.typeAheadReader, hchar, List.append_nil]
    refine ⟨h.shell_line rfl h.taEsc ?_ ?_, (List.append_nil _).symm⟩
    · rw [text_setTypeAhead, h.shell, Ledger.key, Ledger.bytesOf_append,
        Ledger.bytesOf_single_self]
    · rw [Ledger.key, Ledger.bytesOf_append,
        Ledger.bytesOf_single_ne (show Class.shell ≠ .entered by decide), List.append_nil]
      exact h.queue
  | erase c hc =>
    have hchar := Pump.typeAheadChar_erase h.taEsc hc
    simp only [Key.bytes, Transducer.final_cons, Transducer.final_nil, Transducer.output_cons,
      Transducer.output_nil, Pump.typeAheadReader, hchar, List.append_nil]
    refine ⟨h.shell_line rfl h.taEsc ?_ ?_, (List.append_nil _).symm⟩
    · rw [text_setTypeAhead, h.shell]
      exact Ledger.bytesOf_eraseLast_self.symm
    · rw [Ledger.key, Ledger.bytesOf_eraseLast_ne (show Class.shell ≠ .entered by decide)]
      exact h.queue
  | enter c hc =>
    have hchar := Pump.typeAheadChar_enter h.taEsc hc
    have hnot : Class.shell ≠ .task := by decide
    simp only [Key.bytes, Transducer.final_cons, Transducer.final_nil, Transducer.output_cons,
      Transducer.output_nil, Pump.typeAheadReader, hchar, List.append_nil]
    refine ⟨h.shell_line rfl h.taEsc ?_ ?_, ?_⟩
    · simp only [Ledger.key, if_neg hnot, Ledger.bytesOf_append, Ledger.bytesOf_enter_shell,
        Ledger.bytesOf_single_ne (show Class.entered ≠ .shell by decide), List.append_nil]
      rfl
    · have hqueue : s.typeAheadEnter.ibuffer =
          (s.ibuffer.stuffAll s.taRly.text).stuffAll [0x0a] := rfl
      rw [hqueue, ← RingBuffer.stuffAll_append, RingBuffer.toList_stuffAll_take h.queue, h.shell]
      simp only [Ledger.key, if_neg hnot, Ledger.bytesOf_append,
        Ledger.bytesOf_enter_entered h.sorted, Ledger.bytesOf_single_self, List.append_assoc]
    · simp only [Ledger.key, if_neg hnot]
      exact (List.append_nil _).symm
  | cycle d =>
    obtain ⟨hfinal, hout⟩ := Pump.typeAheadReader_cycle h.taEsc d
    obtain ⟨m, p, b, hcycle⟩ := cycleOwner_eq d s.toConsole
    simp only [Key.bytes, hfinal, hout, hcycle]
    exact ⟨h.shell_line rfl h.taEsc h.shell h.queue, (List.append_nil _).symm⟩

/-! ## Reads -/

theorem sent_append (out out' : List Out) : sent (out ++ out') = sent out ++ sent out' :=
  List.filterMap_append

theorem Kept.keys_line (h : Kept s l) (hopen : (s.slots i).keyFd.isSome) {keys : List Key}
    (hroom : (keyReader (.line i .fg)).Along (FindsRoom (.line i .fg)) s keys) :
    Kept ((keyReader (.line i .fg)).final s keys) (keys.foldl (Ledger.key .task) l) ∧
      (keys.foldl (Ledger.key .task) l).shipped =
        l.shipped ++ sent ((keyReader (.line i .fg)).output s keys) := by
  induction keys generalizing s l with
  | nil => exact ⟨h, (List.append_nil _).symm⟩
  | cons e keys ih =>
    obtain ⟨hkept, hslot, hsent⟩ := h.step_line hopen hroom.1
    rw [← hslot] at hopen
    obtain ⟨hrest, hsent'⟩ := ih hkept hopen hroom.2
    refine ⟨hrest, ?_⟩
    rw [List.foldl_cons, hsent', hsent, Transducer.output_cons, sent_append, List.append_assoc]

theorem Kept.keys_typeAhead (h : Kept s l) {keys : List Key}
    (hroom : (keyReader .typeAhead).Along (FindsRoom .typeAhead) s keys) :
    Kept ((keyReader .typeAhead).final s keys) (keys.foldl (Ledger.key .shell) l) ∧
      (keys.foldl (Ledger.key .shell) l).shipped =
        l.shipped ++ sent ((keyReader .typeAhead).output s keys) := by
  induction keys generalizing s l with
  | nil => exact ⟨h, (List.append_nil _).symm⟩
  | cons e keys ih =>
    obtain ⟨hkept, hsent⟩ := h.step_typeAhead hroom.1
    obtain ⟨hrest, hsent'⟩ := ih hkept hroom.2
    refine ⟨hrest, ?_⟩
    rw [List.foldl_cons, hsent', hsent, Transducer.output_cons, sent_append, List.append_assoc]

/-- A read of keys is read key by key. -/
theorem feed_line (r : Rly) (keys : List Key) : s.feed (keys.flatMap Key.bytes) (.line i r) =
    ((keyReader (.line i r)).final s keys, (keyReader (.line i r)).output s keys) := by
  induction keys generalizing s with
  | nil => rfl
  | cons e keys ih =>
    have hrest := ih (s := ((keyReader (.line i r)).step s e).1)
    simp only [Pump.feed, Prod.mk.injEq] at hrest
    simp only [Pump.feed, List.flatMap_cons, Transducer.final_append, Transducer.output_append,
      Transducer.final_cons, Transducer.output_cons, Prod.mk.injEq]
    exact ⟨hrest.1, congrArg _ hrest.2⟩

theorem feed_typeAhead (keys : List Key) : s.feed (keys.flatMap Key.bytes) .typeAhead =
    ((keyReader .typeAhead).final s keys, (keyReader .typeAhead).output s keys) := by
  induction keys generalizing s with
  | nil => rfl
  | cons e keys ih =>
    have hrest := ih (s := ((keyReader .typeAhead).step s e).1)
    simp only [Pump.feed, Prod.mk.injEq] at hrest
    simp only [Pump.feed, List.flatMap_cons, Transducer.final_append, Transducer.output_append,
      Transducer.final_cons, Transducer.output_cons, Prod.mk.injEq]
    exact ⟨hrest.1, congrArg _ hrest.2⟩

theorem fgTarget_fst (c : Fin MAX_CAPS) (t : Console) :
    (t.fgTarget c).1 = t ∨ (t.fgTarget c).1 = { t with manualSel := none } := by
  unfold Console.fgTarget
  split
  · exact Or.inl rfl
  · split
    · exact Or.inl rfl
    · split
      · exact Or.inl rfl
      · exact Or.inr rfl

theorem Kept.fgTarget (h : Kept s l) (c : Fin MAX_CAPS) :
    Kept (s.setConsole (s.fgTarget c).1) l ∧ (s.fgTarget c).1.slots = s.slots := by
  rcases fgTarget_fst c s.toConsole with hself | hnone
  · rw [hself]
    exact ⟨h, rfl⟩
  · rw [hnone]
    exact ⟨⟨h.esc, h.taEsc, h.task, h.shell, h.queue, h.sorted⟩, rfl⟩

/-- A read for one of the two lines begins with the choice of the target alone. -/
theorem fgArrive_eq {c : Fin MAX_CAPS}
    (hk : (s.fgArrive c).2.1 = .line c .fg ∨ (s.fgArrive c).2.1 = .typeAhead) :
    (s.fgArrive c).1 = s.setConsole (s.fgTarget c).1 ∧ (s.fgArrive c).2.2 = [] := by
  cases ht : (s.fgTarget c).2 with
  | none => constructor <;> simp only [Pump.fgArrive, ht]
  | some i =>
    simp only [Pump.fgArrive, ht] at hk ⊢
    by_cases hraw : ((s.setConsole (s.fgTarget c).1).slots i).raw = true
    · rw [if_pos hraw] at hk
      split at hk <;> rcases hk with hk | hk <;> cases hk
    · rw [if_neg hraw] at hk ⊢
      by_cases hic : i = c
      · rw [if_pos hic]
        exact ⟨rfl, rfl⟩
      · rw [if_neg hic] at hk
        rcases hk with hk | hk <;> cases hk

/-! ## The run -/

theorem Kept.read (h : Kept s l) {keys : List Key} (ht : Typing (s, l) (.read keys))
    (hr : Roomy (s, l) (.read keys)) :
    Kept (episode.step (s, l) (.read keys)).1.1 (episode.step (s, l) (.read keys)).1.2 ∧
      (episode.step (s, l) (.read keys)).1.2.shipped =
        l.shipped ++ sent (episode.step (s, l) (.read keys)).2 := by
  obtain ⟨-, c, hc, hopen, hk⟩ := ht
  have hroom := hr c hc
  obtain ⟨harrive, hout⟩ := fgArrive_eq hk
  obtain ⟨hkept, hslots⟩ := h.fgTarget c
  have hstep : episode.step (s, l) (.read keys) =
      (((s.fgRead c (keys.flatMap Key.bytes)).1, l.read (s.fgArrive c).2.1 keys),
        (s.fgRead c (keys.flatMap Key.bytes)).2) := by
    simp only [episode, hc]
  rw [hstep]
  simp only [Pump.fgRead, hout, List.nil_append]
  rw [harrive] at hroom ⊢
  rcases hk with hk | hk
  · rw [hk] at hroom ⊢
    rw [feed_line]
    have hopen' : ((s.setConsole (s.fgTarget c).1).slots c).keyFd.isSome := by
      change (((s.fgTarget c).1.slots c).keyFd).isSome
      rw [hslots]
      exact Cap.keyFd_isSome _ hopen
    exact hkept.keys_line hopen' hroom
  · rw [hk] at hroom ⊢
    rw [feed_typeAhead]
    exact hkept.keys_typeAhead hroom

theorem Kept.tasks (h : Kept s l) (slots : Fin MAX_CAPS → Slot) (bot : Option Owner) :
    Kept { s with slots := slots, bot := bot } l :=
  ⟨h.esc, h.taEsc, h.task, h.shell, h.queue, h.sorted⟩

theorem Kept.standDown (h : Kept s l) (htyped : s.fgRly.typed = []) : Kept s.standDown l := by
  refine ⟨h.esc, h.taEsc, ?_, h.shell, h.queue, h.sorted⟩
  rw [← h.task, htyped]
  rfl

theorem Kept.event (h : Kept s l) {e : Event} (ht : Typing (s, l) e) (hr : Roomy (s, l) e) :
    Kept (episode.step (s, l) e).1.1 (episode.step (s, l) e).1.2 ∧
      (episode.step (s, l) e).1.2.shipped = l.shipped ++ sent (episode.step (s, l) e).2 := by
  cases e with
  | read keys => exact h.read ht hr
  | tasks slots bot => exact ⟨h.tasks slots bot, (List.append_nil _).symm⟩
  | standDown => exact ⟨h.standDown hr, (List.append_nil _).symm⟩

theorem Kept.run {x : Pump × Ledger} (h : Kept x.1 x.2) {es : List Event}
    (ht : episode.Along Typing x es) (hr : episode.Along Roomy x es) :
    Kept (episode.final x es).1 (episode.final x es).2 ∧
      (episode.final x es).2.shipped = x.2.shipped ++ sent (episode.output x es) := by
  induction es generalizing x with
  | nil => exact ⟨h, (List.append_nil _).symm⟩
  | cons e es ih =>
    obtain ⟨hkept, hsent⟩ := h.event ht.1 hr.1
    obtain ⟨hrest, hsent'⟩ := ih hkept ht.2 hr.2
    refine ⟨hrest, ?_⟩
    rw [Transducer.final_cons, hsent', hsent, Transducer.output_cons, sent_append,
      List.append_assoc]

/-- What readline gets at the end. -/
theorem Kept.queued (h : Kept s l) : s.fgEnd.ibuffer.takeAll IBUFFER_LEN =
    (Ledger.bytesOf .entered l.items ++ Ledger.bytesOf .task l.items ++
      Ledger.bytesOf .shell l.items).take IBUFFER_LEN := by
  have hqueue : s.fgEnd.ibuffer =
      (s.ibuffer.stuffAll s.fgRly.typed).stuffAll s.taRly.text := rfl
  rw [RingBuffer.takeAll_eq, hqueue, ← RingBuffer.stuffAll_append,
    RingBuffer.toList_stuffAll_take h.queue, List.take_take, Nat.min_self, h.task, h.shell,
    List.append_assoc]

theorem Ledger.length_classes (items : List (Class × UInt8)) :
    (bytesOf .entered items ++ bytesOf .task items ++ bytesOf .shell items).length =
      items.length := by
  induction items with
  | nil => rfl
  | cons t items ih =>
    rw [List.length_cons, ← ih]
    rcases t with ⟨k, c⟩
    cases k <;> simp [bytesOf_cons] <;> omega

/-- Readline is handed the characters exactly when they fit into its queue and are in order. -/
theorem Ledger.handed_over {l : Ledger} {n : Nat} :
    (bytesOf .entered l.items ++ bytesOf .task l.items ++ bytesOf .shell l.items).take n =
      l.bytes ↔ l.bytes.length ≤ n ∧ l.InOrder := by
  have hlen : l.bytes.length = l.items.length := List.length_map _
  constructor
  · intro h
    have hle : l.bytes.length ≤ n := by
      rw [← h]
      exact List.length_take_le _ _
    refine ⟨hle, ?_⟩
    rw [List.take_of_length_le (by rw [Ledger.length_classes]; omega)] at h
    exact h.symm
  · rintro ⟨hle, horder⟩
    rw [List.take_of_length_le (by rw [Ledger.length_classes]; omega)]
    exact horder.symm

theorem kept_fgBegin (s : Pump) (c : Fin MAX_CAPS) (hempty : s.ibuffer.toList = []) :
    Kept (s.fgBegin c) .empty :=
  ⟨rfl, rfl, rfl, rfl, hempty, List.Pairwise.nil⟩

/-- **The end of an episode.** In every episode in which each character finds room in its line,
and no typed line is stood down with its task, readline is handed the characters that have been
neither shipped nor erased, in their order, exactly when they fit into its queue and the lines
that have been entered, the task's text and the shell's text have been typed in this order. -/
theorem handed_over_iff (s : Pump) (c : Fin MAX_CAPS) (hempty : s.ibuffer.toList = [])
    (es : List Event) (ht : episode.Along Typing (s.fgBegin c, .empty) es)
    (hr : episode.Along Roomy (s.fgBegin c, .empty) es) :
    HandedOver (s.fgBegin c) es ↔
      (episode.final (s.fgBegin c, .empty) es).2.bytes.length ≤ IBUFFER_LEN ∧
        (episode.final (s.fgBegin c, .empty) es).2.InOrder := by
  have hbegin := kept_fgBegin s c hempty
  obtain ⟨hkept, hsent⟩ := Kept.run (x := (s.fgBegin c, .empty)) hbegin ht hr
  rw [HandedOver, hkept.queued, Ledger.handed_over, hsent]
  exact and_iff_left rfl

/-! ## A foreground task in line mode -/

/-- The keys go to the line of the foreground task. -/
structure AtTask (s : Pump) (c : Fin MAX_CAPS) : Prop where
  fg : s.InFg
  cap : s.fgCap = some c
  mIn : (s.slots c).cap.mIn = true
  line : (s.slots c).raw = false
  sel : s.manualSel = none
  esc : s.fgRly.esc = .normal

theorem AtTask.fgArrive {c : Fin MAX_CAPS} (h : AtTask s c) :
    s.fgArrive c = (s, .line c .fg, []) := by
  have htarget : s.toConsole.fgTarget c = (s.toConsole, some c) := if_pos h.sel
  have hraw : ¬((s.setConsole s.toConsole).slots c).raw = true := by simp [Pump.setConsole, h.line]
  simp only [Pump.fgArrive, htarget]
  rw [if_neg hraw, if_pos trivial]
  rfl

/-- A character goes into the line, and the next key will go there too. -/
theorem AtTask.read_char {c : Fin MAX_CAPS} (h : AtTask s c) {b : UInt8}
    (hb : b = 0x09 ∨ 0x20 ≤ b ∧ b ≠ 0x7f) (l : Ledger) :
    AtTask (episode.step (s, l) (.read [.char b hb])).1.1 c ∧
      (episode.step (s, l) (.read [.char b hb])).1.2 = l.key .task (.char b hb) := by
  have hchar := Console.relayChar_char (s := s.toConsole) (i := c) (r := .fg) h.esc hb
  simp only [episode, h.cap, Pump.fgRead, h.fgArrive]
  refine ⟨?_, rfl⟩
  simp only [List.flatMap_cons, List.flatMap_nil, Key.bytes, List.append_nil, Pump.feed,
    Transducer.final_cons, Transducer.final_nil, Pump.lineReader, hchar]
  refine ⟨h.fg, h.cap, h.mIn, h.line, h.sel, ?_⟩
  simp only [Console.relayType]
  split
  · exact (relayPrefix_esc _ _).trans h.esc
  · exact (relayPrefix_esc _ _).trans h.esc

/-- One character after the other, each in a read of its own. -/
theorem AtTask.read_chars {c : Fin MAX_CAPS} (h : AtTask s c) {b : UInt8}
    (hb : b = 0x09 ∨ 0x20 ≤ b ∧ b ≠ 0x7f) (l : Ledger) (n : Nat) :
    episode.Along Typing (s, l) (List.replicate n (.read [.char b hb])) ∧
      (episode.final (s, l) (List.replicate n (.read [.char b hb]))).2.bytes.length =
        l.bytes.length + n := by
  induction n generalizing s l with
  | zero => exact ⟨trivial, rfl⟩
  | succ n ih =>
    obtain ⟨hnext, hledger⟩ := h.read_char hb l
    obtain ⟨hrest, hlength⟩ := ih hnext (l.key .task (.char b hb))
    have hone : (l.key .task (.char b hb)).bytes.length = l.bytes.length + 1 := by
      simp [Ledger.key, Ledger.bytes]
    rw [List.replicate_succ, Transducer.along_cons, Transducer.final_cons]
    have hpair : (episode.step (s, l) (.read [.char b hb])).1 =
        ((episode.step (s, l) (.read [.char b hb])).1.1, l.key .task (.char b hb)) := by
      rw [← hledger]
    rw [hpair]
    refine ⟨⟨⟨h.fg, c, h.cap, h.mIn, Or.inl ?_⟩, hrest⟩, by omega⟩
    exact congrArg (fun a => a.2.1) h.fgArrive

theorem atTask_oneTask : AtTask ((Pump.oneTask true).fgBegin 0) 0 where
  fg := show (0 : Int32) < 7 by decide
  cap := rfl
  mIn := rfl
  line := rfl
  sel := rfl
  esc := rfl

theorem handed_over_one :
    HandedOver ((Pump.oneTask true).fgBegin 0) [.read [.char 0x61 (by decide)]] := by
  have htyping := (atTask_oneTask.read_chars (b := 0x61) (by decide) .empty 1).1
  refine (handed_over_iff (Pump.oneTask true) 0 rfl _ htyping ⟨?_, trivial⟩).mpr ⟨?_, rfl⟩
  · intro c hc
    rw [atTask_oneTask.cap] at hc
    cases hc
    rw [atTask_oneTask.fgArrive]
    exact ⟨show 0 < 8190 by decide, trivial⟩
  · decide

/-- The 512th character does not fit into the queue of readline. -/
theorem queue_overflows :
    episode.Along Typing ((Pump.oneTask true).fgBegin 0, .empty)
      (List.replicate 512 (.read [.char 0x61 (by decide)])) ∧
    ¬HandedOver ((Pump.oneTask true).fgBegin 0)
      (List.replicate 512 (.read [.char 0x61 (by decide)])) := by
  obtain ⟨htyping, hlength⟩ := atTask_oneTask.read_chars (b := 0x61) (by decide) .empty 512
  refine ⟨htyping, fun h => ?_⟩
  have hle := congrArg List.length h.1
  rw [RingBuffer.takeAll_eq, hlength] at hle
  have htake := List.length_take_le IBUFFER_LEN
    (episode.final ((Pump.oneTask true).fgBegin 0, .empty)
      (List.replicate 512 (.read [.char 0x61 (by decide)]))).1.fgEnd.ibuffer.toList
  rw [hle] at htake
  exact absurd htake (by decide)

end Basht.Keyboard
