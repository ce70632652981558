import Basht.Input.Exec

/-!
# Reading the script

A character that `buffered_getchar` returns stands at the logical position of the input's open
file, and moves this position on by one. Over a run whose redirections are all allowed, the
positions of the characters that come from one open file increase strictly.
-/

namespace Basht.Input

open Descriptors Fallible

namespace State

variable {s s' t : State} {fd : Int} {bp : BufferedStream} {maxSize : Nat}

/-! ## `buffered_getchar` -/

/-- What a step reads. The characters are those of the files between the positions before and
after it. -/
structure Reads (s : State) (out : List Returned) (s' : State) : Prop where
  count : s.files.length ≤ s'.files.length
  text : ∀ f, f < s.files.length → (s'.file f).text = (s.file f).text
  position : ∀ f, s.position f ≤ s'.position f
  chars : ∀ c ∈ out, ∃ f p : Nat, c.place = some (f, (p : Int)) ∧ f < s'.files.length ∧
    (s'.file f).text[p]? = some c.char ∧ s.position f ≤ p ∧ p < s'.position f
  increasing : out.Pairwise fun c d => ∀ f p q, c.place = some (f, p) → d.place = some (f, q) → p < q

theorem Reads.refl (s : State) : Reads s [] s :=
  ⟨Nat.le_refl _, fun _ _ => rfl, fun _ => Int.le_refl _, by simp, .nil⟩

theorem Keeps.reads (h : Keeps s s') : Reads s [] s' where
  count := h.count
  text := h.text
  position f := Int.le_of_eq (h.position f).symm
  chars := by simp
  increasing := .nil

theorem Reads.append {out out' : List Returned} (h : Reads s out s') (h' : Reads s' out' t) :
    Reads s (out ++ out') t where
  count := Nat.le_trans h.count h'.count
  text f hf := (h'.text f (Nat.lt_of_lt_of_le hf h.count)).trans (h.text f hf)
  position f := Int.le_trans (h.position f) (h'.position f)
  chars c hc := by
    rcases List.mem_append.mp hc with hc | hc
    · obtain ⟨f, p, hplace, hf, htext, hlower, hupper⟩ := h.chars c hc
      exact ⟨f, p, hplace, Nat.lt_of_lt_of_le hf h'.count, by rw [h'.text f hf, htext], hlower,
        Int.lt_of_lt_of_le hupper (h'.position f)⟩
    · obtain ⟨f, p, hplace, hf, htext, hlower, hupper⟩ := h'.chars c hc
      exact ⟨f, p, hplace, hf, htext, Int.le_trans (h.position f) hlower, hupper⟩
  increasing := by
    refine List.pairwise_append.mpr ⟨h.increasing, h'.increasing, fun c hc d hd f p q hp hq => ?_⟩
    obtain ⟨f', p', hplace, -, -, -, hupper⟩ := h.chars c hc
    obtain ⟨g', q', hplace', -, -, hlower, -⟩ := h'.chars d hd
    cases hp.symm.trans hplace
    cases hq.symm.trans hplace'
    exact Int.lt_of_lt_of_le hupper hlower

theorem position_input {f : Nat} (hf : s.table.file s.bashInput = some f) :
    s.position f = (s.file f).offset - (s.unread : Int) := by
  unfold position
  rw [if_pos hf]

/-- The input's record and the offset of its file change, so that one character is returned. -/
theorem Good.reads_one (h : Good s) {f : Nat} (hf : s.table.file s.bashInput = some f)
    (hbp : s.buffers s.bashInput = some bp) {offset : Nat} {heap : Nat → Option (List UInt8)}
    {rec : BufferedStream} {c : UInt8} (hbuffer : rec.buffer = bp.buffer)
    (ht : t = { s.setOffset f offset with
      heap := heap, buffers := Function.update s.buffers s.bashInput (some rec) })
    (hlive : Live t rec) (hunread : bp.used - bp.inputp ≤ (s.file f).offset)
    (hposition : (offset : Int) - (rec.used - rec.inputp : Nat) =
      (s.file f).offset - (bp.used - bp.inputp : Nat) + 1)
    (hchar : (s.file f).text[(s.file f).offset - (bp.used - bp.inputp)]? = some c) :
    Good t ∧ Reads s [⟨s.place, c⟩] t := by
  subst ht
  have hlt := h.files _ f hf
  have hlength : (s.files.set f { s.file f with offset := offset }).length = s.files.length :=
    List.length_set
  have hself : Function.update s.buffers s.bashInput (some rec) s.bashInput = some rec :=
    Function.update_self ..
  have hother : ∀ q, q ≠ s.bashInput →
      Function.update s.buffers s.bashInput (some rec) q = s.buffers q := fun q hq =>
    Function.update_of_ne hq ..
  have hfile := s.file_setOffset hlt offset
  have htext : ∀ g, ((s.setOffset f offset).file g).text = (s.file g).text := by
    intro g
    rw [hfile]
    split
    · rename_i heq
      rw [heq]
    · rfl
  let t : State := { s.setOffset f offset with
    heap := heap, buffers := Function.update s.buffers s.bashInput (some rec) }
  have hgood : Good t := by
    refine ⟨fun q g hg => hlength ▸ h.files q g hg, fun q hq => ?_, fun q bp' hbp' => ?_,
      fun q bp' hbp' hq => h.shared q bp' ((hother q hq).symm.trans hbp') hq, fun bp' hbp' => ?_⟩
    · have hne : q ≠ s.bashInput := by
        rintro rfl
        cases hf.symm.trans hq
      exact (hother q hne).trans (h.records q hq)
    · by_cases heq : q = s.bashInput
      · rw [heq] at hbp'
        cases hself.symm.trans hbp'
        exact hbuffer ▸ h.allocated _ bp hbp
      · exact h.allocated q bp' ((hother q heq).symm.trans hbp')
    · cases hself.symm.trans hbp'
      exact hlive
  have hbefore : s.position f = (s.file f).offset - (bp.used - bp.inputp : Nat) := by
    rw [position_input hf, unread_of_buffers hbp]
  have hafter : t.position f = s.position f + 1 := by
    have hoffset : (t.file f).offset = offset := by
      change ((s.setOffset f offset).file f).offset = offset
      rw [hfile, if_pos rfl]
    have hunread' : t.unread = rec.used - rec.inputp := unread_of_buffers hself
    have ht : t.position f = (t.file f).offset - (t.unread : Int) := position_input hf
    rw [ht, hoffset, hunread', hposition, hbefore]
  have hkept : ∀ g, g ≠ f → t.position g = s.position g := by
    intro g hg
    have hsame : t.file g = s.file g := (hfile g).trans (if_neg hg)
    have hinput : ¬s.table.file s.bashInput = some g := fun hf' => by
      cases hf.symm.trans hf'
      exact hg rfl
    unfold position
    rw [hsame, if_neg hinput]
    exact congrArg _ (if_neg hinput)
  refine ⟨hgood, Nat.le_of_eq hlength.symm, fun g _ => htext g, fun g => ?_, fun d hd => ?_,
    List.pairwise_singleton _ _⟩
  · by_cases hg : g = f
    · rw [hg, hafter]
      omega
    · exact Int.le_of_eq (hkept g hg).symm
  · rw [List.mem_singleton.mp hd]
    refine ⟨f, (s.file f).offset - (bp.used - bp.inputp), ?_, hlength ▸ hlt, ?_, ?_, ?_⟩
    · unfold place
      rw [hf, unread_of_buffers hbp, Int.ofNat_sub hunread]
      rfl
    · exact (congrArg (·[_]?) (htext f)).trans hchar
    · rw [hbefore]
      omega
    · rw [hafter, hbefore]
      omega

theorem setOffset_self {f : Nat} (hf : f < s.files.length) :
    s.setOffset f (s.file f).offset = s := by
  have hsame : s.file f = s.files[f] := by
    unfold file
    rw [List.getD_eq_getElem?_getD, List.getElem?_eq_getElem hf]
    rfl
  unfold setOffset
  rw [hsame, List.set_getElem_self]

/-- The characters that `read` gives are those of the text from the offset on. -/
theorem getElem?_of_read {text chars : List UInt8} {offset size i : Nat}
    (hread : (text.drop offset).take size = chars) (hi : i < chars.length) :
    ∃ c, chars[i]? = some c ∧ text[offset + i]? = some c := by
  obtain ⟨c, hc⟩ : ∃ c, chars[i]? = some c := ⟨_, List.getElem?_eq_getElem hi⟩
  refine ⟨c, hc, ?_⟩
  rw [← hread, List.getElem?_take] at hc
  split at hc
  · rwa [List.getElem?_drop] at hc
  · cases hc

/-- A buffer without unread text is filled. -/
theorem Good.reads_fill (h : Good s) (hbp : s.buffers s.bashInput = some bp)
    (hempty : bp.inputp = bp.used) :
    ∃ s' out, s.bFillBuffer bp = .ok (s', out) ∧ Good s' ∧ Reads s out s' := by
  have hlive := h.input bp hbp
  have hzero : s.unread = 0 := by
    rw [unread_of_buffers hbp, hempty, Nat.sub_self]
  obtain ⟨data, hdata⟩ := Option.isSome_iff_exists.mp hlive.heap
  unfold bFillBuffer
  dsimp only
  split
  · exact ⟨s, [], rfl, h, (Keeps.refl h).reads⟩
  · rw [hdata]
    cases hf : s.table.file s.bashInput with
    | none => cases hbp.symm.trans (h.records _ hf)
    | some f =>
      dsimp only
      cases htext : ((s.file f).text.drop (s.file f).offset).take bp.size with
      | nil =>
        have hkeeps : Carries s ((s.setHeap bp.buffer (some (data.set 0 0))).setStream s.bashInput
            (some { bp with used := 0, inputp := 0 })) := by
          refine h.carries_setInput hzero (Nat.le_refl _) (fun hclosed => ?_) fun bp' hbp' => ?_
          · cases hf.symm.trans hclosed
          · cases hbp'
            exact ⟨h.allocated _ bp hbp, rfl, Option.isSome_iff_exists.mpr
              ⟨data.set 0 0, Function.update_self ..⟩⟩
        exact ⟨_, [], rfl, hkeeps.good, hkeeps.toKeeps.reads⟩
      | cons c rest =>
        have hget := fun i => getElem?_of_read (i := i) htext
        refine ⟨_, [⟨s.place, c⟩], rfl, ?_⟩
        refine h.reads_one hf hbp ?_ rfl ⟨?_, ?_, fun _ => ?_⟩ (by omega) ?_ ?_
        · rfl
        · exact Nat.succ_le_succ (Nat.zero_le _)
        · exact Option.isSome_iff_exists.mpr ⟨_, Function.update_self ..⟩
        · have hoffset : ((s.setOffset f ((s.file f).offset + (rest.length + 1))).file f) =
              { s.file f with offset := (s.file f).offset + (rest.length + 1) } :=
            (s.file_setOffset (h.files _ f hf) _ f).trans (if_pos rfl)
          refine ⟨f, _, hf, Function.update_self .., ?_, fun i _ hi => ?_⟩
          · exact hoffset ▸ Nat.le_add_left _ _
          · obtain ⟨d, hd, hget⟩ := hget i hi
            refine ⟨d, ?_, ?_⟩
            · rw [List.getElem?_append_left hi]
              exact hd
            · refine (congrArg (·[_]?) (congrArg OpenFile.text hoffset)).trans ?_
              have hplace : ((s.setOffset f ((s.file f).offset + (rest.length + 1))).file f).offset -
                  (rest.length + 1) + i = (s.file f).offset + i := by
                rw [hoffset, Nat.add_sub_cancel]
              exact hplace ▸ hget
        · dsimp only
          omega
        · obtain ⟨d, hd, htext⟩ := hget 0 (Nat.succ_pos _)
          cases hd
          rw [hempty, Nat.sub_self]
          exact htext

/-- `buffered_getchar`. -/
theorem Good.reads_getchar (h : Good s) :
    ∃ s' out, s.bufferedGetchar = .ok (s', out) ∧ Good s' ∧ Reads s out s' := by
  have hstays := (Keeps.refl h).reads
  unfold bufferedGetchar
  split
  · exact ⟨s, [], rfl, h, hstays⟩
  · cases hbp : s.buffers s.bashInput with
    | none => exact ⟨s, [], rfl, h, hstays⟩
    | some bp =>
      have hlive := h.input bp hbp
      have hle := hlive.inputp_le
      dsimp only
      split
      · exact h.reads_fill hbp (by omega)
      · obtain ⟨f, data, hf, hdata, hused, htext⟩ := hlive.text (by omega)
        obtain ⟨c, hc, hchar⟩ := htext bp.inputp (Nat.le_refl _) (by omega)
        rw [hdata]
        dsimp only
        rw [hc]
        refine ⟨_, [⟨s.place, c⟩], rfl, ?_⟩
        have hset : s.setStream s.bashInput (some { bp with inputp := bp.inputp + 1 }) =
            { s.setOffset f (s.file f).offset with
              heap := s.heap
              buffers := Function.update s.buffers s.bashInput
                (some { bp with inputp := bp.inputp + 1 }) } := by
          rw [setOffset_self (h.files _ f hf)]
          rfl
        refine h.reads_one hf hbp ?_ hset ⟨?_, hlive.heap, fun hlt => ?_⟩ (by omega) ?_ ?_
        · rfl
        · have hlt : bp.inputp < bp.used := by omega
          exact hlt
        · refine ⟨f, data, hf, hdata, hused, fun i hi hi' => htext i ?_ hi'⟩
          exact Nat.le_of_succ_le hi
        · dsimp only
          omega
        · have hplace : (s.file f).offset - (bp.used - bp.inputp) =
              (s.file f).offset - bp.used + bp.inputp := by omega
          rw [hplace]
          exact hchar

/-! ## Runs -/

/-- The state in which the input is opened: there are no streams yet. -/
structure Fresh (s : State) (fd : Int) : Prop where
  files : ∀ q f, s.table.file q = some f → f < s.files.length
  opened : (s.table.file fd).isSome
  buffers : ∀ q, s.buffers q = none

theorem Fresh.good (h : Fresh s fd) (maxSize : Nat) :
    Good (s.withInputFromBufferedStream maxSize fd) := by
  have hgood : Good { s with bashInput := fd } := by
    refine ⟨h.files, fun q _ => h.buffers q, fun q bp hbp => ?_, fun q bp hbp _ => ?_,
      fun bp hbp => ?_⟩
    · cases (h.buffers q).symm.trans hbp
    · cases (h.buffers q).symm.trans hbp
    · cases (h.buffers fd).symm.trans hbp
  have hzero : State.unread { s with bashInput := fd } = 0 := unread_of_none (h.buffers fd)
  unfold withInputFromBufferedStream
  obtain ⟨data, size, hfd⟩ := fdToBufferedStream_eq (s := { s with bashInput := fd }) maxSize h.opened
  rw [hfd]
  refine (hgood.carries_setInput hzero (Nat.le_succ _) (fun hclosed => ?_) fun bp hbp => ?_).good
  · have hopened := h.opened
    have hnone : s.table.file fd = none := hclosed
    rw [hnone] at hopened
    cases hopened
  · cases hbp
    exact ⟨Nat.lt_succ_self _, rfl, Option.isSome_iff_exists.mpr ⟨data, Function.update_self ..⟩⟩

end State

open State

/-- A redirection is allowed where `exec` handles the streams as it should. -/
def Op.Allowed (s : State) : Op → Prop
  | getchar => True
  | exec r => State.Allowed s r.toRedirect

/-- The characters stand where the input stood when they were returned, and the positions in an
open file increase strictly. -/
def InPlace (s : State) (out : List Returned) : Prop :=
  (∀ c ∈ out, ∃ f p : Nat, c.place = some (f, (p : Int)) ∧ (s.file f).text[p]? = some c.char) ∧
    out.Pairwise fun c d => ∀ f p q, c.place = some (f, p) → d.place = some (f, q) → p < q

theorem State.Good.reads_step {s : State} {op : Op} (h : Good s) (maxSize : Nat)
    (hallowed : op.Allowed s) :
    ∃ s' out, step maxSize s op = .ok (s', out) ∧ Good s' ∧ Reads s out s' := by
  cases op with
  | getchar => exact h.reads_getchar
  | exec r =>
    obtain ⟨s', hresult, hkeeps⟩ := h.execRedirect maxSize hallowed
    refine ⟨s', [], ?_, hkeeps.good, hkeeps.reads⟩
    change (State.execRedirect maxSize s r.toRedirect).map _ = _
    rw [hresult]
    rfl

/-- The redirections of the input neither lose nor repeat text, if they are allowed, and no
buffer is used or freed again after it has been freed. -/
theorem allowed_in_place {s : State} {fd : Int} {maxSize : Nat} {ops : List Op}
    (h : State.Fresh s fd)
    (hallowed : Meets (step maxSize) Op.Allowed (s.withInputFromBufferedStream maxSize fd) ops) :
    ∃ s' out, exec (step maxSize) (s.withInputFromBufferedStream maxSize fd) ops = .ok (s', out) ∧
      InPlace s' out := by
  obtain ⟨s', out, hrun, -, hreads⟩ := Meets.law (Q := State.Reads) State.Reads.refl
    (fun s ys t zs u h h' => h.append h') (fun s x hs hx => hs.reads_step maxSize hx)
    (h.good maxSize) hallowed
  refine ⟨s', out, hrun, fun c hc => ?_, hreads.increasing⟩
  obtain ⟨f, p, hplace, -, htext, -⟩ := hreads.chars c hc
  exact ⟨f, p, hplace, htext⟩

/-- The script `text` is open on `fd`, and nothing else is open. -/
def State.opening (limit : Nat) (fd : Int) (text : List UInt8) : State where
  table := Table.set ⟨limit, fun _ => none, fun _ h => absurd rfl h⟩ fd (some 0)
  clexec _ := false
  files := [⟨text, 0⟩]
  heap _ := none
  heapCount := 0
  buffers _ := none
  bashInput := -1
  undoList := []
  execUndoList := []

theorem State.fresh_opening {limit : Nat} {fd : Int} (h : 0 ≤ fd ∧ fd < limit) (text : List UInt8) :
    Fresh (opening limit fd text) fd := by
  refine ⟨fun q f hf => ?_, ?_, fun _ => rfl⟩
  · rcases Table.eq_some_of_set hf with ⟨-, hsome⟩ | hnone
    · cases hsome
      exact Nat.zero_lt_one
    · cases hnone
  · have hfile : (opening limit fd text).table.file fd = some 0 := Table.set_file_self h
    rw [hfile]
    rfl

/-- `exec 3<&0` and then reading on and `exec 10<FILE`. -/
theorem allowed_in_place_saved : ∃ s' out,
    exec (step 8172) ((opening 20 10 [97, 98, 10]).withInputFromBufferedStream 8172 10)
      [.exec (.duplicate 3 10), .getchar, .exec (.file 10 [99]), .getchar] = .ok (s', out) ∧
      InPlace s' out := by
  refine allowed_in_place (fresh_opening (by decide) _) ⟨?_, fun _ _ _ => ?_⟩
  · intro _
    rw [if_neg (by decide)]
    exact ⟨nofun, fun h => absurd h (by decide)⟩
  · exact ⟨trivial, fun _ _ _ => ⟨trivial, fun _ _ _ => ⟨trivial, fun _ _ _ => trivial⟩⟩⟩

/-- `exec 3<&0` and later `exec 0<&3`: the input goes on with the old copy of its stream, while
the offset has been set back. -/
theorem restored_input_repeats : ¬∀ (s : State) (fd : Int) (maxSize : Nat) (ops : List Op),
    State.Fresh s fd → ∃ s' out,
      exec (step maxSize) (s.withInputFromBufferedStream maxSize fd) ops = .ok (s', out) ∧
        InPlace s' out := by
  intro hall
  obtain ⟨s', out, hrun, hplace, -⟩ := hall (opening 20 0 [97, 98, 99, 100]) 0 8172
    [.getchar, .exec (.duplicate 3 0), .getchar, .exec (.duplicate 0 3), .getchar]
    (fresh_opening (by decide) _)
  have hout : (exec (step 8172)
      ((opening 20 0 [97, 98, 99, 100]).withInputFromBufferedStream 8172 0)
      [.getchar, .exec (.duplicate 3 0), .getchar, .exec (.duplicate 0 3), .getchar]).map Prod.snd =
      .ok [⟨some (0, 0), 97⟩, ⟨some (0, 1), 98⟩, ⟨some (0, -1), 98⟩] := by rfl
  rw [hrun] at hout
  cases hout
  obtain ⟨f, p, hnat, -⟩ := hplace ⟨some (0, -1), 98⟩ (by simp)
  cases hnat

end Basht.Input
