import Basht.Keyboard.Keys

/-!
# Reads of the keyboard

Bytes that are typed reach the routers in reads, and the target is chosen once for each read. The
reference (`byKey`) gives each key a read of its own: a whole cycle key to a task that reads
keystrokes, else a byte. Reads that are whole come to the same as the reference
(`reads_eq_byKey`).
-/

namespace Basht.Keyboard

open Basht.Tasks

/-! ## Keys of some bytes -/

def RawKey.bytes : RawKey → List UInt8
  | .cycle d => d.bytes
  | .byte b => [b]

theorem cycleKey?_bytes (d : Dir) (buf : List UInt8) : cycleKey? (d.bytes ++ buf) = some d := by
  cases d <;> rfl

theorem bytes_of_cycleKey? {c : UInt8} {buf : List UInt8} {d : Dir}
    (h : cycleKey? (c :: buf) = some d) : c :: buf = d.bytes ++ buf.drop 5 := by
  rcases buf with - | ⟨c₁, - | ⟨c₂, - | ⟨c₃, - | ⟨c₄, - | ⟨c₅, buf⟩⟩⟩⟩⟩
  · cases h
  · cases h
  · cases h
  · cases h
  · cases h
  · simp only [cycleKey?] at h
    split at h
    · rename_i hkey
      obtain ⟨rfl, rfl, rfl, rfl, rfl⟩ := hkey
      split at h
      · rename_i hc
        cases h
        rw [hc]
        rfl
      · split at h
        · rename_i hc
          cases h
          rw [hc]
          rfl
        · cases h
    · cases h

theorem rawKeys_nil : rawKeys [] = [] := by rw [rawKeys]

theorem rawKeys_of_cycleKey? {c : UInt8} {buf : List UInt8} {d : Dir}
    (h : cycleKey? (c :: buf) = some d) :
    rawKeys (c :: buf) = .cycle d :: rawKeys (buf.drop 5) := by
  rw [rawKeys, h]

theorem rawKeys_of_byte {c : UInt8} {buf : List UInt8} (h : cycleKey? (c :: buf) = none) :
    rawKeys (c :: buf) = .byte c :: rawKeys buf := by
  rw [rawKeys, h]

theorem rawKeys_bytes (u : RawKey) : rawKeys u.bytes = [u] := by
  cases u with
  | byte b => rw [RawKey.bytes, rawKeys_of_byte rfl, rawKeys_nil]
  | cycle d =>
    cases d <;> rw [RawKey.bytes, Dir.bytes, rawKeys_of_cycleKey? rfl] <;>
      exact congrArg _ rawKeys_nil

/-- Some bytes end inside a cycle key that others complete. -/
def Cut (r rest : List UInt8) : Prop :=
  ∃ p q d, p ≠ [] ∧ q ≠ [] ∧ p ++ q = Dir.bytes d ∧ p <:+ r ∧ q <+: rest

theorem Cut.of_suffix {r r' rest : List UInt8} (h : Cut r' rest) (hr : r' <:+ r) : Cut r rest := by
  obtain ⟨p, q, d, hp, hq, hpq, hr', hrest⟩ := h
  exact ⟨p, q, d, hp, hq, hpq, hr'.trans hr, hrest⟩

theorem cycleKey?_append {r : List UInt8} {d : Dir} (h : cycleKey? r = some d)
    (rest : List UInt8) : cycleKey? (r ++ rest) = some d := by
  cases r with
  | nil => cases h
  | cons c buf =>
    rw [bytes_of_cycleKey? h, List.append_assoc]
    exact cycleKey?_bytes d _

/-- A cycle key begins with the bytes, or is cut by their end. -/
theorem cycleKey?_append_none {c : UInt8} {r rest : List UInt8} (h : cycleKey? (c :: r) = none)
    (hcut : ¬Cut (c :: r) rest) : cycleKey? (c :: (r ++ rest)) = none := by
  cases hkey : cycleKey? (c :: (r ++ rest)) with
  | none => rfl
  | some d =>
    exfalso
    have hbytes : c :: r ++ rest = d.bytes ++ (r ++ rest).drop 5 := bytes_of_cycleKey? hkey
    rcases List.append_eq_append_iff.mp hbytes with ⟨q, hq, hrest⟩ | ⟨q, hq, -⟩
    · by_cases hnil : q = []
      · rw [hnil, List.append_nil] at hq
        have hfound := cycleKey?_bytes d []
        rw [List.append_nil, hq, h] at hfound
        cases hfound
      · apply hcut
        refine ⟨c :: r, q, d, List.cons_ne_nil _ _, hnil, hq.symm, List.suffix_rfl, ?_⟩
        rw [hrest]
        exact List.prefix_append _ _
    · rw [hq, cycleKey?_bytes] at h
      cases h

theorem drop_of_cycleKey? {c : UInt8} {buf : List UInt8} {d : Dir}
    (h : cycleKey? (c :: buf) = some d) (rest : List UInt8) :
    (buf ++ rest).drop 5 = buf.drop 5 ++ rest := by
  have hlen := congrArg List.length (bytes_of_cycleKey? h)
  have hkey : d.bytes.length = 6 := by cases d <;> rfl
  rw [List.length_cons, List.length_append, hkey] at hlen
  exact List.drop_append_of_le_length (by omega)

theorem rawKeys_append {r rest : List UInt8} (hcut : ¬Cut r rest) :
    rawKeys (r ++ rest) = rawKeys r ++ rawKeys rest := by
  induction r using rawKeys.induct with
  | case1 =>
    rw [rawKeys_nil]
    rfl
  | case2 c buf d h ih =>
    have hsuffix : buf.drop 5 <:+ c :: buf :=
      (List.drop_suffix 5 buf).trans (List.suffix_cons c buf)
    have hkey : cycleKey? (c :: (buf ++ rest)) = some d := cycleKey?_append h rest
    rw [rawKeys_of_cycleKey? h, List.cons_append, rawKeys_of_cycleKey? hkey]
    rw [drop_of_cycleKey? h, ih fun hbuf => hcut (hbuf.of_suffix hsuffix)]
    rfl
  | case3 c buf h ih =>
    rw [rawKeys_of_byte h, List.cons_append, rawKeys_of_byte (cycleKey?_append_none h hcut)]
    rw [ih fun hbuf => hcut (hbuf.of_suffix (List.suffix_cons c buf))]
    rfl

/-- The keys that a relay takes some bytes for; readline and the lines take them one by one. -/
def keysFor : Option Pump.Sink → List UInt8 → List RawKey
  | some (.raw _), buf => rawKeys buf
  | some (.line _ _), buf | some .typeAhead, buf | none, buf => buf.map .byte

/-- The first key, and the other bytes. -/
def nextKey (k : Option Pump.Sink) : List UInt8 → Option (RawKey × List UInt8)
  | [] => none
  | c :: buf =>
    match k with
    | some (.raw _) =>
      match cycleKey? (c :: buf) with
      | some d => some (.cycle d, buf.drop 5)
      | none => some (.byte c, buf)
    | some (.line _ _) | some .typeAhead | none => some (.byte c, buf)

theorem nextKey_cons (k : Option Pump.Sink) (c : UInt8) (buf : List UInt8) :
    ∃ u rest, nextKey k (c :: buf) = some (u, rest) ∧ c :: buf = u.bytes ++ rest ∧
      keysFor k (c :: buf) = u :: keysFor k rest := by
  have hbyte : ∀ k : Option Pump.Sink, (∀ buf, keysFor k buf = buf.map .byte) →
      keysFor k (c :: buf) = .byte c :: keysFor k buf := by
    intro k hk
    rw [hk, hk]
    rfl
  rcases k with - | (⟨i, r⟩ | i | -)
  · exact ⟨.byte c, buf, rfl, rfl, hbyte _ fun _ => rfl⟩
  · exact ⟨.byte c, buf, rfl, rfl, hbyte _ fun _ => rfl⟩
  · cases h : cycleKey? (c :: buf) with
    | some d =>
      refine ⟨.cycle d, buf.drop 5, ?_, bytes_of_cycleKey? h, rawKeys_of_cycleKey? h⟩
      simp only [nextKey, h]
    | none =>
      refine ⟨.byte c, buf, ?_, rfl, rawKeys_of_byte h⟩
      simp only [nextKey, h]
  · exact ⟨.byte c, buf, rfl, rfl, hbyte _ fun _ => rfl⟩

theorem nextKey_length {k : Option Pump.Sink} {buf rest : List UInt8} {u : RawKey}
    (h : nextKey k buf = some (u, rest)) : rest.length < buf.length := by
  cases buf with
  | nil => cases h
  | cons c buf =>
    obtain ⟨u', rest', hnext, hbytes, -⟩ := nextKey_cons k c buf
    rw [h] at hnext
    cases hnext
    have hlen := congrArg List.length hbytes
    have hpos : 0 < u.bytes.length := by
      cases u with
      | byte b => exact Nat.one_pos
      | cycle d => cases d <;> exact Nat.succ_pos 5
    rw [List.length_append] at hlen
    omega

/-- The first of the keys is the next one. -/
theorem nextKey_of_keysFor {k : Option Pump.Sink} {buf : List UInt8} {u : RawKey}
    {us : List RawKey} (h : keysFor k buf = u :: us) :
    ∃ rest, nextKey k buf = some (u, rest) ∧ buf = u.bytes ++ rest ∧ keysFor k rest = us := by
  cases buf with
  | nil =>
    rcases k with - | (⟨i, r⟩ | i | -)
    · cases h
    · cases h
    · rw [keysFor, rawKeys_nil] at h
      cases h
    · cases h
  | cons c buf =>
    obtain ⟨u', rest, hnext, hbytes, hkeys⟩ := nextKey_cons k c buf
    rw [h] at hkeys
    cases hkeys
    exact ⟨rest, hnext, hbytes, rfl⟩

theorem keysFor_bytes (k : Option Pump.Sink) (buf : List UInt8) :
    (keysFor k buf).flatMap RawKey.bytes = buf := by
  induction hn : buf.length using Nat.strongRecOn generalizing buf with
  | _ n ih =>
    cases buf with
    | nil => rcases k with - | (⟨i, r⟩ | i | -) <;> simp [keysFor, rawKeys_nil]
    | cons c buf =>
      obtain ⟨u, rest, hnext, hbytes, hkeys⟩ := nextKey_cons k c buf
      have hlen := nextKey_length hnext
      rw [hkeys, List.flatMap_cons, ih rest.length (hn ▸ hlen) rest rfl, ← hbytes]

theorem keysFor_append {k : Option Pump.Sink} {r rest : List UInt8}
    (h : ∀ i, k = some (.raw i) → ¬Cut r rest) :
    keysFor k (r ++ rest) = keysFor k r ++ keysFor k rest := by
  rcases k with - | (⟨i, rly⟩ | i | -)
  · exact List.map_append
  · exact List.map_append
  · exact rawKeys_append (h i rfl)
  · exact List.map_append

/-! ## Routing -/

/-- Where a read goes. In an episode without a foreground task at the console there are no reads. -/
def Pump.arrive (s : Pump) : Pump × Option Pump.Sink × List Out :=
  if s.InFg then
    match s.fgCap with
    | some c => ((s.fgArrive c).1, some (s.fgArrive c).2.1, (s.fgArrive c).2.2)
    | none => (s, none, [])
  else s.promptArrive

/-! ## What a read finds when it begins -/

namespace Console

/-- What `fg_target` returns for a selection that stands. -/
def fgSel (s : Console) (c : Fin MAX_CAPS) : Option Target :=
  if s.manualSel = none then some (some c)
  else if s.manualSel = some .self then some none
  else ((List.finRange MAX_CAPS).find? fun i => s.Selects c i).map some

theorem fgTarget_of_sel {s : Console} {c : Fin MAX_CAPS} {t : Target} (h : s.fgSel c = some t) :
    s.fgTarget c = (s, t) := by
  unfold fgSel at h
  unfold fgTarget
  split at h
  · rename_i hnone
    rw [if_pos hnone, ← Option.some.inj h]
  · rename_i hnone
    rw [if_neg hnone]
    split at h
    · rename_i hself
      rw [if_pos hself, ← Option.some.inj h]
    · rename_i hself
      rw [if_neg hself]
      obtain ⟨i, hfind, rfl⟩ := Option.map_eq_some_iff.mp h
      rw [hfind]

theorem fgTarget_of_none {s : Console} {c : Fin MAX_CAPS} (h : s.fgSel c = none) :
    s.fgTarget c = ({ s with manualSel := none }, some c) := by
  unfold fgSel at h
  unfold fgTarget
  split at h
  · cases h
  · rename_i hnone
    rw [if_neg hnone]
    split at h
    · cases h
    · rename_i hself
      rw [if_neg hself, Option.map_eq_none_iff.mp h]

end Console

namespace Pump

/-- The prompt's relay is bound to a slot. -/
def Bound (s : Pump) (i : Fin MAX_CAPS) : Prop :=
  s.rslot = some i ∧ s.promptRly.pid = (s.slots i).cap.pid

/-- A read that begins here goes to a line, and the relay is ready. -/
def Settled (s : Pump) : Sink → Prop
  | .typeAhead => s.InFg ∧ ∃ c, s.fgCap = some c ∧ s.fgSel c = some none
  | .line i .fg => s.InFg ∧ s.fgCap = some i ∧ s.fgSel i = some (some i) ∧
      (s.slots i).raw = false
  | .line i .prompt => (s.slots i).raw = false ∧ s.Bound i ∧
      ((s.InFg ∧ ∃ c, s.fgCap = some c ∧ i ≠ c ∧ s.fgSel c = some (some i)) ∨
        (¬s.InFg ∧ s.rslotDead = false ∧ s.promptTarget = some i))
  | .raw _ => True

theorem relayBind_of_bound {s : Pump} {i : Fin MAX_CAPS} (h : s.Bound i) :
    s.relayBind i = (s, []) := if_pos h

theorem arrive_of_settled {s : Pump} {k : Sink} (hk : ∀ i, k ≠ .raw i) (h : s.Settled k) :
    s.arrive = (s, some k, []) := by
  rcases k with ⟨i, - | -⟩ | i | -
  · obtain ⟨hfg, hc, hsel, hraw⟩ := h
    have htarget := Console.fgTarget_of_sel hsel
    have hnot : ¬((s.setConsole s.toConsole).slots i).raw = true := by
      change ¬(s.slots i).raw = true
      rw [hraw]
      nofun
    simp only [arrive, if_pos hfg, hc, fgArrive, htarget]
    rw [if_neg hnot, if_pos trivial]
    rfl
  · obtain ⟨hraw, hbound, ⟨hfg, c, hc, hne, hsel⟩ | ⟨hprompt, halive, htarget⟩⟩ := h
    · have htarget := Console.fgTarget_of_sel hsel
      have hnot : ¬((s.setConsole s.toConsole).slots i).raw = true := by
        change ¬(s.slots i).raw = true
        rw [hraw]
        nofun
      have hbind : (s.setConsole s.toConsole).relayBind i = (s, []) := relayBind_of_bound hbound
      simp only [arrive, if_pos hfg, hc, fgArrive, htarget]
      rw [if_neg hnot, if_neg hne, hbind]
    · have hexpire : s.expire = (s, []) := by
        rw [expire, halive, if_neg nofun]
      have hnot : ¬(s.slots i).raw = true := by
        rw [hraw]
        nofun
      simp only [arrive, if_neg hprompt, promptArrive, hexpire, htarget]
      rw [if_neg hnot, relayBind_of_bound hbound]
      rfl
  · exact absurd rfl (hk i)
  · obtain ⟨hfg, c, hc, hsel⟩ := h
    have htarget := Console.fgTarget_of_sel hsel
    simp only [arrive, if_pos hfg, hc, fgArrive, htarget]
    rfl

theorem relayBind_of_not_bound {s : Pump} {i : Fin MAX_CAPS} (h : ¬s.Bound i) :
    ∃ q, (s.relayBind i).1 = { s with
      promptRly := { Relay.zeroed with pid := (s.slots i).cap.pid, id := (s.slots i).cap.id }
      rslot := some i
      ibuffer := q } := by
  have hbind : s.relayBind i = _ := if_neg h
  rw [hbind, giveBack]
  split
  · exact ⟨_, rfl⟩
  · exact ⟨_, rfl⟩

theorem promptSlot_eq_some {s : Console} {i j : Fin MAX_CAPS} (h : s.promptSlot j = some i) :
    j = i ∧ (s.slots i).AtConsole ∧ (s.slots i).MidLine := by
  unfold Console.promptSlot at h
  split at h
  · rename_i hslot
    cases h
    exact ⟨rfl, hslot⟩
  · cases h

/-- The bottom line of the prompt's target is its own, or the relay's that is bound to it. -/
theorem promptTarget_eq_some {s : Pump} {i : Fin MAX_CAPS} (h : s.promptTarget = some i) :
    (s.slots i).AtConsole ∧ (s.slots i).MidLine ∧
      ((s.bot = some .promptRly ∧ s.Bound i) ∨ s.bot = some (.stream (.out i)) ∨
        s.bot = some (.stream (.err i))) := by
  unfold Console.promptTarget at h
  split at h
  · rename_i hbot
    split at h
    · cases h
    · rename_i j hrslot
      split at h
      · cases h
      · rename_i hsame
        obtain ⟨rfl, hat, hmid⟩ := promptSlot_eq_some h
        rw [not_or, not_not, not_not] at hsame
        exact ⟨hat, hmid, Or.inl ⟨hbot, hrslot, hsame.1.symm⟩⟩
  · rename_i j hbot
    obtain ⟨rfl, hat, hmid⟩ := promptSlot_eq_some h
    exact ⟨hat, hmid, Or.inr (Or.inl hbot)⟩
  · rename_i j hbot
    obtain ⟨rfl, hat, hmid⟩ := promptSlot_eq_some h
    exact ⟨hat, hmid, Or.inr (Or.inr hbot)⟩
  · cases h
  · cases h
  · cases h
  · cases h

theorem rslotDead_expire (s : Pump) : s.expire.1.rslotDead = false := by
  unfold expire
  split
  · rfl
  · rename_i halive
    exact Bool.eq_false_iff.mpr halive

/-- The relay of the prompt is ready when its task is the target. -/
theorem settled_bind_prompt {s : Pump} {i : Fin MAX_CAPS} (hprompt : ¬s.InFg)
    (halive : s.rslotDead = false) (htarget : s.promptTarget = some i)
    (hraw : (s.slots i).raw = false) : (s.relayBind i).1.Settled (.line i .prompt) := by
  by_cases hbound : s.Bound i
  · rw [relayBind_of_bound hbound]
    exact ⟨hraw, hbound, Or.inr ⟨hprompt, halive, htarget⟩⟩
  · obtain ⟨q, hq⟩ := relayBind_of_not_bound hbound
    rw [hq]
    obtain ⟨hat, hmid, hbot⟩ := promptTarget_eq_some htarget
    have hslot : s.promptSlot i = some i := if_pos ⟨hat, hmid⟩
    refine ⟨hraw, ⟨rfl, rfl⟩, Or.inr ⟨hprompt, ?_, ?_⟩⟩
    · have hline : ((s.slots i).out.isEmpty && (s.slots i).err.isEmpty) = false := by
        rcases hmid with hout | herr
        · rw [List.isEmpty_eq_false_iff.mpr hout, Bool.false_and]
        · rw [List.isEmpty_eq_false_iff.mpr herr, Bool.and_false]
      simp only [Console.rslotDead, hat.2.1, hline]
      simp
    · rcases hbot with ⟨-, hb⟩ | hbot | hbot
      · exact absurd hb hbound
      · unfold Console.promptTarget
        simp only [hbot]
        exact hslot
      · unfold Console.promptTarget
        simp only [hbot]
        exact hslot

/-- The relay of the prompt is ready when its task is selected in an episode. -/
theorem settled_bind_fg {s : Pump} {c i : Fin MAX_CAPS} (hfg : s.InFg) (hc : s.fgCap = some c)
    (hne : i ≠ c) (hsel : s.fgSel c = some (some i)) (hraw : (s.slots i).raw = false) :
    (s.relayBind i).1.Settled (.line i .prompt) := by
  by_cases hbound : s.Bound i
  · rw [relayBind_of_bound hbound]
    exact ⟨hraw, hbound, Or.inl ⟨hfg, c, hc, hne, hsel⟩⟩
  · obtain ⟨q, hq⟩ := relayBind_of_not_bound hbound
    rw [hq]
    exact ⟨hraw, ⟨rfl, rfl⟩, Or.inl ⟨hfg, c, hc, hne, hsel⟩⟩

theorem settled_fgArrive {s : Pump} {c : Fin MAX_CAPS} (hfg : s.InFg) (hc : s.fgCap = some c) :
    (s.fgArrive c).1.Settled (s.fgArrive c).2.1 := by
  cases hsel : s.fgSel c with
  | none =>
    simp only [fgArrive, Console.fgTarget_of_none hsel]
    split
    · rw [if_pos trivial]
      trivial
    · rename_i hraw
      rw [if_pos trivial]
      exact ⟨hfg, hc, if_pos rfl, Bool.eq_false_iff.mpr hraw⟩
  | some t =>
    simp only [fgArrive, Console.fgTarget_of_sel hsel]
    cases t with
    | none => exact ⟨hfg, c, hc, hsel⟩
    | some i =>
      simp only
      split
      · split <;> trivial
      · rename_i hraw
        split
        · rename_i hic
          subst hic
          exact ⟨hfg, hc, hsel, Bool.eq_false_iff.mpr hraw⟩
        · rename_i hic
          exact settled_bind_fg hfg hc hic hsel (Bool.eq_false_iff.mpr hraw)

theorem settled_promptArrive {s : Pump} (hprompt : ¬s.InFg) {k : Sink}
    (h : s.promptArrive.2.1 = some k) : s.promptArrive.1.Settled k := by
  have halive := s.rslotDead_expire
  have hexpire : ¬s.expire.1.InFg := by
    unfold expire
    split <;> exact hprompt
  cases htarget : s.expire.1.promptTarget with
  | none =>
    simp only [promptArrive, htarget] at h
    cases h
  | some i =>
    simp only [promptArrive, htarget] at h ⊢
    by_cases hraw : (s.expire.1.slots i).raw = true
    · rw [if_pos hraw] at h
      split at h <;> cases h <;> trivial
    · rw [if_neg hraw] at h ⊢
      cases h
      exact settled_bind_prompt hexpire halive htarget (Bool.eq_false_iff.mpr hraw)

/-- When a read has begun, the relay it goes to is ready. -/
theorem settled_arrive {s s' : Pump} {k : Sink} {out : List Out}
    (h : s.arrive = (s', some k, out)) : s'.Settled k := by
  unfold arrive at h
  split at h
  · rename_i hfg
    split at h
    · rename_i c hc
      cases h
      exact settled_fgArrive hfg hc
    · cases h
  · rename_i hprompt
    have hsettled := settled_promptArrive hprompt (k := k)
    rw [h] at hsettled
    exact hsettled rfl

/-- The state of the escape scanner has no part in where keys go. -/
theorem Settled.setEsc {s : Pump} {i : Fin MAX_CAPS} {r : Rly} (h : s.Settled (.line i r))
    (e : Esc) : (s.setConsole (s.setEsc r e)).Settled (.line i r) := by
  cases r <;> exact h

theorem Settled.setTaEsc {s : Pump} (h : s.Settled .typeAhead) (e : Esc) :
    (s.setTaEsc e).Settled .typeAhead := h

end Pump

section Routing

variable {R : Type} (rl : R → UInt8 → R × Option Dir)

/-- Bytes that `basht_getc` returns to readline, whose key bindings call `basht_cycle_owner`. -/
def readlineReader : Transducer (Pump × R) UInt8 Out where
  step x b :=
    match rl x.2 b with
    | (r, none) => ((x.1, r), [.getc b])
    | (r, some d) => ((x.1.setConsole (Console.cycleOwner d x.1.toConsole), r), [.getc b, .cycle d])

/-- The bytes of a read are served. -/
def serve (x : Pump × R) (buf : List UInt8) : Option Pump.Sink → (Pump × R) × List Out
  | none => ((readlineReader rl).final x buf, (readlineReader rl).output x buf)
  | some k => (((x.1.feed buf k).1, x.2), (x.1.feed buf k).2)

/-- A read of the keyboard. -/
def read (x : Pump × R) (buf : List UInt8) : (Pump × R) × List Out :=
  let a := x.1.arrive
  let f := serve rl (a.1, x.2) buf a.2.1
  (f.1, a.2.2 ++ f.2)

/-- Reads, one after the other. -/
def reads : Transducer (Pump × R) (List UInt8) Out := ⟨read rl⟩

/-- A relay serves one key. -/
def server (k : Option Pump.Sink) : Transducer (Pump × R) RawKey Out where
  step x u := serve rl x u.bytes k

/-- Each key is read by itself. -/
def byKey (x : Pump × R) (buf : List UInt8) : (Pump × R) × List Out :=
  match _ : nextKey x.1.arrive.2.1 buf with
  | none => (x, [])
  | some (u, rest) =>
    let r := read rl x u.bytes
    let t := byKey r.1 rest
    (t.1, r.2 ++ t.2)
termination_by buf.length
decreasing_by exact nextKey_length ‹_›

variable {rl} {x : Pump × R} {k : Option Pump.Sink}

theorem byKey_nil : byKey rl x [] = (x, []) := by
  rw [byKey]
  rfl

theorem byKey_next {buf rest : List UInt8} {u : RawKey}
    (h : nextKey x.1.arrive.2.1 buf = some (u, rest)) :
    byKey rl x buf = ((byKey rl (read rl x u.bytes).1 rest).1,
      (read rl x u.bytes).2 ++ (byKey rl (read rl x u.bytes).1 rest).2) := by
  rw [byKey]
  split
  · rename_i hnone
    rw [h] at hnone
    cases hnone
  · rename_i hsome
    rw [h] at hsome
    cases hsome
    rfl

/-! ## Reads by their keys -/

theorem serve_bytes (hk : ∀ buf, keysFor k buf = buf.map .byte)
    (hcons : ∀ (x : Pump × R) c buf, serve rl x (c :: buf) k =
      ((serve rl (serve rl x [c] k).1 buf k).1,
        (serve rl x [c] k).2 ++ (serve rl (serve rl x [c] k).1 buf k).2))
    (hnil : ∀ x : Pump × R, serve rl x [] k = (x, [])) (buf : List UInt8) :
    serve rl x buf k =
      ((server rl k).final x (keysFor k buf), (server rl k).output x (keysFor k buf)) := by
  induction buf generalizing x with
  | nil =>
    rw [hk, hnil]
    rfl
  | cons c buf ih =>
    rw [hcons, ih, hk, hk]
    rfl

variable (rl) in
theorem server_raw (i : Fin MAX_CAPS) (us : List RawKey) :
    (server rl (some (.raw i))).final x us = ((Pump.rawReader i).final x.1 us, x.2) ∧
      (server rl (some (.raw i))).output x us = (Pump.rawReader i).output x.1 us := by
  induction us generalizing x with
  | nil => exact ⟨rfl, rfl⟩
  | cons u us ih =>
    have hstep : (server rl (some (.raw i))).step x u =
        ((((Pump.rawReader i).step x.1 u).1, x.2), ((Pump.rawReader i).step x.1 u).2) := by
      simp only [server, serve, Pump.feed, rawKeys_bytes, Transducer.final_cons,
        Transducer.final_nil, Transducer.output_cons, Transducer.output_nil, List.append_nil]
    obtain ⟨hfinal, hout⟩ := ih (x := (((Pump.rawReader i).step x.1 u).1, x.2))
    simp only [Transducer.final_cons, Transducer.output_cons, hstep]
    exact ⟨hfinal, congrArg _ hout⟩

/-- A read is served key by key. -/
theorem serve_eq (x : Pump × R) (buf : List UInt8) (k : Option Pump.Sink) :
    serve rl x buf k =
      ((server rl k).final x (keysFor k buf), (server rl k).output x (keysFor k buf)) := by
  rcases k with - | (⟨i, r⟩ | i | -)
  · refine serve_bytes (fun _ => rfl) (fun x c buf => ?_) (fun _ => rfl) buf
    simp only [serve, Transducer.final_cons, Transducer.final_nil, Transducer.output_cons,
      Transducer.output_nil, List.append_nil]
  · refine serve_bytes (fun _ => rfl) (fun x c buf => ?_) (fun _ => rfl) buf
    simp only [serve, Pump.feed, Transducer.final_cons, Transducer.final_nil,
      Transducer.output_cons, Transducer.output_nil, List.append_nil]
  · obtain ⟨hfinal, hout⟩ := server_raw rl (x := x) i (rawKeys buf)
    rw [keysFor, hfinal, hout]
    rfl
  · refine serve_bytes (fun _ => rfl) (fun x c buf => ?_) (fun _ => rfl) buf
    simp only [serve, Pump.feed, Transducer.final_cons, Transducer.final_nil,
      Transducer.output_cons, Transducer.output_nil, List.append_nil]

/-! ## Whole reads -/

/-- A read that begins here goes to the relay and changes nothing on the way. -/
def Steady (k : Option Pump.Sink) (x : Pump × R) : Prop := x.1.arrive = (x.1, k, [])

variable (rl) in
/-- Every key of a read but the first is typed when a read of its own would go to the same relay,
and a read for a task that reads keystrokes does not end inside a cycle key. -/
structure Whole (x : Pump × R) (r rest : List UInt8) : Prop where
  steady : ∀ u us, keysFor x.1.arrive.2.1 r = u :: us →
    (server rl x.1.arrive.2.1).Along (fun y _ => Steady x.1.arrive.2.1 y)
      ((server rl x.1.arrive.2.1).step (x.1.arrive.1, x.2) u).1 us
  uncut : ∀ i, x.1.arrive.2.1 = some (.raw i) → ¬Cut r rest

variable (rl) in
/-- All reads are whole. -/
def AllWhole : Pump × R → List (List UInt8) → Prop
  | _, [] => True
  | x, r :: rs => Whole rl x r rs.flatten ∧ AllWhole (read rl x r).1 rs

theorem read_of_steady (h : Steady k x) (u : RawKey) :
    read rl x u.bytes = (server rl k).step x u := by
  unfold Steady at h
  simp only [read, h, server, List.nil_append]

/-- Keys that are served by one relay are read by themselves with the same effect. -/
theorem byKey_steady {us : List RawKey} {buf rest : List UInt8}
    (h : (server rl k).Along (fun y _ => Steady k y) x us)
    (hkeys : keysFor k buf = us ++ keysFor k rest) :
    byKey rl x buf = ((byKey rl ((server rl k).final x us) rest).1,
      (server rl k).output x us ++ (byKey rl ((server rl k).final x us) rest).2) := by
  induction us generalizing x buf with
  | nil =>
    have hbuf : buf = rest := by
      rw [← keysFor_bytes k buf, hkeys]
      exact keysFor_bytes k rest
    rw [hbuf]
    rfl
  | cons u us ih =>
    rw [List.cons_append] at hkeys
    obtain ⟨buf', hnext, -, hkeys'⟩ := nextKey_of_keysFor hkeys
    obtain ⟨hsteady, hrest⟩ := h
    have hnext' : nextKey x.1.arrive.2.1 buf = some (u, buf') := by
      rw [hsteady]
      exact hnext
    rw [byKey_next hnext', read_of_steady hsteady, ih hrest hkeys', Transducer.final_cons,
      Transducer.output_cons, List.append_assoc]

/-- A whole read comes to the same as its keys in reads of their own. -/
theorem byKey_of_whole {r rest : List UInt8} (hne : r ≠ []) (h : Whole rl x r rest) :
    byKey rl x (r ++ rest) = ((byKey rl (read rl x r).1 rest).1,
      (read rl x r).2 ++ (byKey rl (read rl x r).1 rest).2) := by
  obtain ⟨u, us, hkeys⟩ : ∃ u us, keysFor x.1.arrive.2.1 r = u :: us := by
    obtain ⟨c, buf, hr⟩ := List.exists_cons_of_ne_nil hne
    obtain ⟨u, tail, -, -, hkeys⟩ := nextKey_cons x.1.arrive.2.1 c buf
    exact ⟨u, _, hr ▸ hkeys⟩
  have hall := keysFor_append h.uncut
  rw [hkeys, List.cons_append] at hall
  obtain ⟨buf', hnext, -, hkeys'⟩ := nextKey_of_keysFor hall
  have hread : read rl x u.bytes =
      (((server rl x.1.arrive.2.1).step (x.1.arrive.1, x.2) u).1,
        x.1.arrive.2.2 ++ ((server rl x.1.arrive.2.1).step (x.1.arrive.1, x.2) u).2) := rfl
  rw [byKey_next hnext, hread, byKey_steady (h.steady u us hkeys) hkeys']
  simp only [read, serve_eq, hkeys, Transducer.final_cons, Transducer.output_cons,
    List.append_assoc]

/-- Whole reads come to the same as the keys in reads of their own. -/
theorem reads_eq_byKey {rs : List (List UInt8)} (hne : ∀ r ∈ rs, r ≠ []) (h : AllWhole rl x rs) :
    ((reads rl).final x rs, (reads rl).output x rs) = byKey rl x rs.flatten := by
  induction rs generalizing x with
  | nil =>
    rw [List.flatten_nil, byKey_nil]
    rfl
  | cons r rs ih =>
    obtain ⟨hr, hrs⟩ := List.forall_mem_cons.mp hne
    have hrest := ih hrs h.2
    rw [List.flatten_cons, byKey_of_whole hr h.1, ← hrest]
    rfl

/-! ## Cycle keys -/

/-- No escape sequence is pending where the bytes go. -/
def Pump.Fresh (s : Pump) : Sink → Prop
  | .line _ r => (s.rly r).esc = .normal
  | .typeAhead => s.taEsc = .normal
  | .raw _ => True

/-- A cycle key is not the end of another one. -/
theorem not_cut_bytes (d : Dir) (rest : List UInt8) : ¬Cut d.bytes rest := by
  rintro ⟨p, q, d', hp, hq, hpq, ⟨t, ht⟩, -⟩
  have hlen : ∀ d : Dir, d.bytes.length = 6 := by
    intro d
    cases d <;> rfl
  have hesc : ∀ d : Dir, d.bytes.head? = some 0x1b ∧ 0x1b ∉ d.bytes.tail := by
    intro d
    cases d <;> decide
  obtain ⟨b, p', rfl⟩ := List.exists_cons_of_ne_nil hp
  cases t with
  | nil =>
    have hqlen := congrArg List.length hpq
    have hplen := congrArg List.length ht
    rw [List.length_append, hlen] at hqlen
    rw [List.nil_append, hlen] at hplen
    exact hq (List.length_eq_zero_iff.mp (by omega))
  | cons a t =>
    have hb : b = 0x1b := by
      have hhead := (hesc d').1
      rw [← hpq] at hhead
      exact Option.some.inj hhead
    apply (hesc d).2
    rw [← ht, hb]
    simp

/-- While the bytes of a cycle key are scanned, nothing else changes. -/
theorem along_scan {σ : Type} {T : Transducer σ RawKey Out} {P : σ → Prop} (put : Esc → σ)
    (heat : ∀ e e' c, keyEscape true e c = (e', .eat) → T.step (put e) (.byte c) = (put e', []))
    (hput : ∀ e, P (put e)) (d : Dir) :
    T.Along (fun y _ => P y) (T.step (put .normal) (.byte 0x1b)).1 (d.bytes.tail.map .byte) := by
  have hesc := heat .normal .esc 0x1b rfl
  have hcsi := heat .esc (.csi 0 0 false) 0x5b rfl
  have hone := heat (.csi 0 0 false) (.csi 1 0 false) 0x31 rfl
  have hsemi := heat (.csi 1 0 false) (.csi 1 0 true) 0x3b rfl
  have hthree := heat (.csi 1 0 true) (.csi 1 3 true) 0x33 rfl
  cases d <;>
  · simp only [Dir.bytes, List.tail_cons, List.map_cons, List.map_nil, Transducer.along_cons,
      Transducer.along_nil, hesc, hcsi, hone, hsemi, hthree]
    exact ⟨hput _, hput _, hput _, hput _, hput _, trivial⟩

theorem server_line_eat {s : Pump} {i : Fin MAX_CAPS} {r : Rly} {ρ : R} {e e' : Esc} {c : UInt8}
    (h : keyEscape true e c = (e', .eat)) :
    (server rl (some (.line i r))).step (s.setConsole (s.setEsc r e), ρ) (.byte c) =
      ((s.setConsole (s.setEsc r e'), ρ), []) := by
  have hchar := Console.relayChar_eat (s := s.toConsole) (i := i) (r := r) h
  simp only [server, serve, Pump.feed, RawKey.bytes, Transducer.final_cons, Transducer.final_nil,
    Transducer.output_cons, Transducer.output_nil, Pump.lineReader, Pump.setConsole, hchar,
    List.append_nil]

theorem server_typeAhead_eat {s : Pump} {ρ : R} {e e' : Esc} {c : UInt8}
    (h : keyEscape true e c = (e', .eat)) :
    (server rl (some .typeAhead)).step (s.setTaEsc e, ρ) (.byte c) = ((s.setTaEsc e', ρ), []) := by
  simp only [server, serve, Pump.feed, RawKey.bytes, Transducer.final_cons, Transducer.final_nil,
    Transducer.output_cons, Transducer.output_nil, Pump.typeAheadReader, Pump.typeAheadChar,
    Pump.setTaEsc, h, List.append_nil]

/-- A cycle key is a whole read. -/
theorem whole_cycle {s' : Pump} {k : Pump.Sink} {out : List Out}
    (h : x.1.arrive = (s', some k, out)) (hfresh : s'.Fresh k) (d : Dir) (rest : List UInt8) :
    Whole rl x d.bytes rest := by
  refine ⟨?_, fun _ _ => not_cut_bytes d rest⟩
  have hsettled := Pump.settled_arrive h
  have hmap : d.bytes.map RawKey.byte = .byte 0x1b :: d.bytes.tail.map .byte := by
    cases d <;> rfl
  rw [h]
  intro u us hkeys
  rcases k with ⟨i, r⟩ | i | -
  · rw [keysFor, hmap] at hkeys
    cases hkeys
    have hself : s'.setConsole (s'.setEsc r .normal) = s' := by
      rw [Console.setEsc_self hfresh]
      rfl
    have hraw : ∀ j, Pump.Sink.line i r ≠ .raw j := by
      intro j h
      cases h
    have hscan := along_scan (T := server rl (some (.line i r))) (P := Steady (some (.line i r)))
      (fun e => (s'.setConsole (s'.setEsc r e), x.2)) (fun _ _ _ => server_line_eat)
      (fun e => Pump.arrive_of_settled hraw (hsettled.setEsc e)) d
    simp only [hself] at hscan
    exact hscan
  · have hone : rawKeys d.bytes = [.cycle d] := rawKeys_bytes (.cycle d)
    rw [keysFor, hone] at hkeys
    cases hkeys
    trivial
  · rw [keysFor, hmap] at hkeys
    cases hkeys
    have hself : s'.setTaEsc .normal = s' := by
      rw [Pump.setTaEsc, ← (show s'.taEsc = .normal from hfresh)]
    have hraw : ∀ j, Pump.Sink.typeAhead ≠ .raw j := by
      intro j h
      cases h
    have hscan := along_scan (T := server rl (some .typeAhead)) (P := Steady (some .typeAhead))
      (fun e => (s'.setTaEsc e, x.2)) (fun _ _ _ => server_typeAhead_eat)
      (fun e => Pump.arrive_of_settled hraw (hsettled.setTaEsc e)) d
    simp only [hself] at hscan
    exact hscan

/-- A cycle key is served by the cycle alone. -/
theorem read_cycle {s' : Pump} {k : Pump.Sink} {out : List Out}
    (h : x.1.arrive = (s', some k, out)) (hfresh : s'.Fresh k) (d : Dir) :
    read rl x d.bytes =
      ((s'.setConsole (Console.cycleOwner d s'.toConsole), x.2), out ++ [.cycle d]) := by
  simp only [read, h, serve]
  rcases k with ⟨i, r⟩ | i | -
  · obtain ⟨hfinal, hout⟩ := Pump.lineReader_cycle (i := i) hfresh d
    simp only [Pump.feed, hfinal, hout]
  · have hone : rawKeys d.bytes = [.cycle d] := rawKeys_bytes (.cycle d)
    simp only [Pump.feed, hone]
    rfl
  · obtain ⟨hfinal, hout⟩ := Pump.typeAheadReader_cycle hfresh d
    simp only [Pump.feed, hfinal, hout]

variable (rl) in
/-- In the reference, a cycle key that is typed for a task or for the type-ahead line while no
escape sequence is pending goes to no task: it selects the next candidate, and the keys after it
are routed from there. -/
def CyclesApart (x : Pump × R) : Prop :=
  ∀ s' k out d rest, x.1.arrive = (s', some k, out) → s'.Fresh k →
    byKey rl x (Dir.bytes d ++ rest) =
      ((byKey rl (s'.setConsole (Console.cycleOwner d s'.toConsole), x.2) rest).1,
        out ++ .cycle d ::
          (byKey rl (s'.setConsole (Console.cycleOwner d s'.toConsole), x.2) rest).2)

theorem cyclesApart (x : Pump × R) : CyclesApart rl x := by
  intro s' k out d rest h hfresh
  have hne : d.bytes ≠ [] := by cases d <;> nofun
  rw [byKey_of_whole hne (whole_cycle h hfresh d rest), read_cycle h hfresh, List.append_assoc]
  rfl

/-- **Keystroke routing.** Whole reads, however the bytes are split into them, come to the same
as the reference on all the bytes, and there a cycle key goes to no task and decides where the
next key goes. -/
theorem reads_routed {rs : List (List UInt8)} (hne : ∀ r ∈ rs, r ≠ []) (h : AllWhole rl x rs) :
    ((reads rl).final x rs, (reads rl).output x rs) = byKey rl x rs.flatten ∧
      ∀ y : Pump × R, CyclesApart rl y :=
  ⟨reads_eq_byKey hne h, cyclesApart⟩

end Routing

/-- A foreground task that reads keystrokes. -/
def Pump.rawTask : Pump × Unit := ((Pump.oneTask false).fgBegin 0, ())

/-- A readline without key bindings. -/
def unbound (_ : Unit) (_ : UInt8) : Unit × Option Dir := ((), none)

theorem arrive_rawTask : ∃ s', Pump.rawTask.1.arrive = (s', some (.raw 0), []) := ⟨_, rfl⟩

theorem reads_routed_cycle : ((reads unbound).final Pump.rawTask [Dir.bytes .left],
      (reads unbound).output Pump.rawTask [Dir.bytes .left]) =
        byKey unbound Pump.rawTask [Dir.bytes .left].flatten ∧
      ∀ y : Pump × Unit, CyclesApart unbound y := by
  obtain ⟨s', harrive⟩ := arrive_rawTask
  refine reads_routed ?_ ⟨whole_cycle harrive trivial .left _, trivial⟩
  rintro r hr rfl
  cases List.mem_singleton.mp hr

/-- Alt-left in one read cycles; in two reads it is delivered to the task. -/
theorem split_cycle_delivered :
    (reads unbound).output Pump.rawTask [Dir.bytes .left] = [.cycle .left] ∧
      .key 0 .mIn 0x1b ∈
        (reads unbound).output Pump.rawTask [[0x1b], [0x5b, 0x31, 0x3b, 0x33, 0x44]] := by
  obtain ⟨s', harrive⟩ := arrive_rawTask
  constructor
  · have hread : read unbound Pump.rawTask (Dir.bytes .left) = _ := read_cycle harrive trivial .left
    simp only [reads, Transducer.output_cons, Transducer.output_nil, hread]
    rfl
  · have hone : rawKeys [0x1b] = [.byte 0x1b] := rawKeys_bytes (.byte 0x1b)
    have hfeed : (Pump.rawTask.1.arrive.1.feed [0x1b] (.raw 0)).2 = [.key 0 .mIn 0x1b] := by
      simp only [Pump.feed, hone]
      rfl
    have hread : (read unbound Pump.rawTask [0x1b]).2 = [.key 0 .mIn 0x1b] := by
      change [] ++ (Pump.rawTask.1.arrive.1.feed [0x1b] (.raw 0)).2 = _
      rw [hfeed, List.nil_append]
    rw [Transducer.output_cons]
    apply List.mem_append_left
    change _ ∈ (read unbound Pump.rawTask [0x1b]).2
    rw [hread]
    exact List.mem_singleton_self _

end Basht.Keyboard
