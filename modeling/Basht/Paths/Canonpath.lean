import Basht.Library.Buffer
import Basht.Library.Paths

/-!
# Canonical paths (`lib/sh/pathcanon.c`)

`sh_canonpath` reads a path and writes the canonical path into the same bytes, with a pointer
`p` for reading and a pointer `q` for writing. It works in `strlen (path) + 1` bytes: in a copy
of the path, or with `PATH_NOALLOC` in the path itself. The flags that look at the file system
are not set.
-/

namespace Basht.Canonpath

open Paths

def DIRSEP : UInt8 := 47

def DOT : UInt8 := 46

/-- `PATHSEP`. -/
def pathsep (c : UInt8) : Bool := c = DIRSEP ∨ c = 0

inductive Fault where
  | store (fault : StoreFault)
  | fuel
  deriving DecidableEq

abbrev Bytes (n : Nat) := Buffer UInt8 (n + 1)

def byteAt {n : Nat} (buf : Bytes n) (i : Nat) : UInt8 := buf.cells.getD i 0

/-- The bytes, and the pointers of the loop. -/
structure Work (n : Nat) where
  buf : Bytes n
  p : Nat
  q : Nat
  dotdot : Nat

variable {n : Nat}

def store (buf : Bytes n) (offset : Nat) (chars : List UInt8) : Except Fault (Bytes n) :=
  (buf.write offset chars).mapError .store

namespace Work

/-- `*q++ = c`. -/
def put (w : Work n) (c : UInt8) : Except Fault (Work n) :=
  (store w.buf w.q [c]).map fun buf => { w with buf := buf, q := w.q + 1 }

/-- The separator in front of an element. -/
def putSeparator (base : Nat) (w : Work n) : Except Fault (Work n) :=
  if w.q ≠ base then w.put DIRSEP else .ok w

/-- `while (*p && (ISDIRSEP(*p) == 0)) *q++ = *p++`. -/
def copyElement : Nat → Work n → Except Fault (Work n)
  | 0, _ => .error .fuel
  | fuel + 1, w =>
    if byteAt w.buf w.p ≠ 0 ∧ byteAt w.buf w.p ≠ DIRSEP then do
      let w ← { w with p := w.p + 1 }.put (byteAt w.buf w.p)
      copyElement fuel w
    else .ok w

/-- `while (--q > dotdot && ISDIRSEP(*q) == 0)`. -/
def backtrack (buf : Bytes n) (dotdot : Nat) : Nat → Nat
  | 0 => 0
  | q + 1 => if dotdot < q ∧ byteAt buf q ≠ DIRSEP then backtrack buf dotdot q else q

/-- `..` -/
def parent (rooted : Bool) (base : Nat) (w : Work n) : Except Fault (Work n) :=
  if w.dotdot < w.q then .ok { w with q := backtrack w.buf w.dotdot w.q }
  else if rooted then .ok w
  else do
    let w ← w.putSeparator base
    let w ← w.put DOT
    let w ← w.put DOT
    return { w with dotdot := w.q }

/-- One round of the loop. -/
def element (rooted : Bool) (base : Nat) (w : Work n) : Except Fault (Work n) :=
  let c := byteAt w.buf w.p
  if c = DIRSEP then .ok { w with p := w.p + 1 }
  else if c = DOT ∧ pathsep (byteAt w.buf (w.p + 1)) then .ok { w with p := w.p + 1 }
  else if c = DOT ∧ byteAt w.buf (w.p + 1) = DOT ∧ pathsep (byteAt w.buf (w.p + 2)) then
    parent rooted base { w with p := w.p + 2 }
  else do
    let w ← w.putSeparator base
    copyElement (n + 1) w

/-- The empty string is really `.` or `/`. -/
def orStub (stubChar : UInt8) (w : Work n) : Except Fault (Work n) :=
  if w.q = 0 then w.put stubChar else .ok w

/-- `while (*p)`. -/
def elements (rooted : Bool) (base : Nat) : Nat → Work n → Except Fault (Work n)
  | 0, _ => .error .fuel
  | fuel + 1, w =>
    if byteAt w.buf w.p = 0 then .ok w
    else do
      let w ← w.element rooted base
      elements rooted base fuel w

end Work

/-- `DOUBLE_SLASH`. -/
def doubleSlash (buf : Bytes n) : Bool :=
  byteAt buf 0 = DIRSEP ∧ byteAt buf 1 = DIRSEP ∧ byteAt buf 2 ≠ DIRSEP

/-- The string that begins at `offset`. -/
def stringAt (buf : Bytes n) (offset : Nat) : List UInt8 :=
  (buf.cells.drop offset).takeWhile (· ≠ 0)

/-- The check at the end. -/
def turnDoubleSlash (double : Bool) (buf : Bytes n) : Except Fault (Bytes n) :=
  if doubleSlash buf ∧ ¬double then
    if byteAt buf 2 = 0 then store buf 1 [0] else store buf 0 (stringAt buf 1 ++ [0])
  else .ok buf

/-- `sh_canonpath`. -/
def shCanonpath (path : List UInt8) : Except Fault (List UInt8) := do
  let buf : Bytes path.length := ⟨path ++ [0], List.length_append⟩
  let rooted := byteAt buf 0 = DIRSEP
  let double := doubleSlash buf
  let stubChar := if rooted then DIRSEP else DOT
  let base := if rooted then 1 + double.toNat else 0
  let w ← Work.elements rooted base (path.length + 1) ⟨buf, base, base, base⟩
  let w ← w.orStub stubChar
  let buf ← store w.buf w.q [0]
  let buf ← turnDoubleSlash double buf
  return stringAt buf 0

example : shCanonpath [47, 97, 47, 46, 46, 47, 98, 47, 46] = .ok [47, 98] := by decide

/-! ## What the pointers see -/

/-- `out` has been written, and `rest` is still to be read. -/
structure Work.Holds (w : Work n) (out rest : List UInt8) : Prop where
  written : w.buf.upTo w.q = out
  length : out.length = w.q
  unread : w.buf.cells.drop w.p = rest ++ [0]
  le : w.q ≤ w.p

variable {w : Work n} {out rest e : List UInt8} {c : UInt8}

theorem byteAt_eq (buf : Bytes n) (i : Nat) : byteAt buf i = (buf.cells.drop i).headD 0 := by
  rw [byteAt, List.getD_eq_getElem?_getD, List.headD_eq_head?_getD, List.head?_drop]

namespace Work

theorem Holds.bound (h : w.Holds out rest) : w.p + rest.length = n := by
  have hlength := congrArg List.length h.unread
  rw [List.length_drop, w.buf.length_cells, List.length_append, List.length_singleton] at hlength
  omega

theorem Holds.byteAt_add (h : w.Holds out rest) (i : Nat) :
    byteAt w.buf (w.p + i) = (rest ++ [0]).getD i 0 := by
  rw [byteAt, List.getD_eq_getElem?_getD, List.getD_eq_getElem?_getD, ← h.unread,
    List.getElem?_drop]

theorem Holds.byteAt_written (h : w.Holds out rest) {i : Nat} (hi : i < w.q) :
    byteAt w.buf i = out.getD i 0 := by
  have htake : (w.buf.upTo w.q)[i]? = w.buf.cells[i]? := by
    rw [Buffer.upTo, List.getElem?_take, if_pos hi]
  rw [byteAt, List.getD_eq_getElem?_getD, List.getD_eq_getElem?_getD, ← h.written, htake]

/-- What has been read is passed over. -/
theorem Holds.skip (h : w.Holds out (e ++ rest)) :
    { w with p := w.p + e.length }.Holds out rest where
  written := h.written
  length := h.length
  unread := by
    change w.buf.cells.drop (w.p + e.length) = _
    rw [← List.drop_drop, h.unread, List.append_assoc, List.drop_left]
  le := Nat.le_trans h.le (Nat.le_add_right _ _)

theorem store_ok {buf : Bytes n} {offset : Nat} {chars : List UInt8}
    (h : offset + chars.length ≤ n + 1) :
    store buf offset chars = .ok (buf.overwrite offset chars h) := by
  unfold store
  rw [Buffer.write_of_le buf h]
  rfl

/-- A character is written where it has been read. -/
theorem Holds.put (h : w.Holds out rest) (hroom : w.q < w.p) (c : UInt8) :
    ∃ w', w.put c = .ok w' ∧ w'.Holds (out ++ [c]) rest ∧ w'.p = w.p ∧ w'.q = w.q + 1 ∧
      w'.dotdot = w.dotdot := by
  have hbound := h.bound
  have hfit : w.q + [c].length ≤ n + 1 := by
    rw [List.length_singleton]
    omega
  refine ⟨{ w with buf := w.buf.overwrite w.q [c] hfit, q := w.q + 1 }, ?_, ⟨?_, ?_, ?_, hroom⟩,
    rfl, rfl, rfl⟩
  · unfold Work.put
    rw [store_ok hfit]
    rfl
  · have happend := Buffer.upTo_append w.buf hfit
    rw [h.written] at happend
    exact happend
  · rw [List.length_append, List.length_singleton, h.length]
  · exact (Buffer.drop_overwrite w.buf hfit hroom).trans h.unread

/-- An element is copied up to a separator or the end of the path. -/
theorem Holds.copyElement (h : w.Holds out (e ++ rest)) (he : DIRSEP ∉ e) (hzero : 0 ∉ e)
    (hrest : rest.head? = none ∨ rest.head? = some DIRSEP) {fuel : Nat} (hfuel : e.length < fuel) :
    ∃ w', w.copyElement fuel = .ok w' ∧ w'.Holds (out ++ e) rest ∧ w'.p = w.p + e.length ∧
      w'.q = w.q + e.length ∧ w'.dotdot = w.dotdot := by
  induction e generalizing w out fuel with
  | nil =>
    obtain ⟨fuel, rfl⟩ : ∃ k, fuel = k + 1 := ⟨fuel - 1, by simp at hfuel; omega⟩
    have hat : byteAt w.buf w.p = 0 ∨ byteAt w.buf w.p = DIRSEP := by
      have hbyte := h.byteAt_add 0
      rw [Nat.add_zero, List.nil_append] at hbyte
      cases rest with
      | nil => exact Or.inl hbyte
      | cons a rest =>
        rcases hrest with hnone | hsep
        · cases hnone
        · cases hsep
          exact Or.inr hbyte
    refine ⟨w, if_neg fun hand => hat.elim hand.1 hand.2, ?_, rfl, rfl, rfl⟩
    rw [List.append_nil]
    exact h
  | cons a e ih =>
    obtain ⟨fuel, rfl⟩ : ∃ k, fuel = k + 1 := ⟨fuel - 1, by omega⟩
    have hat : byteAt w.buf w.p = a := h.byteAt_add 0
    obtain ⟨ha, he'⟩ := not_or.mp fun hor => he (List.mem_cons.mpr hor)
    obtain ⟨ha', hzero'⟩ := not_or.mp fun hor => hzero (List.mem_cons.mpr hor)
    have hskip := h.skip (e := [a])
    obtain ⟨w₁, hput, hholds, hp, hq, hdotdot⟩ := hskip.put (Nat.lt_succ_of_le h.le) a
    obtain ⟨w', hcopy, hholds', hp', hq', hdotdot'⟩ :=
      ih hholds he' hzero' (Nat.lt_of_succ_lt_succ hfuel)
    have hlength (i : Nat) : i + 1 + e.length = i + (a :: e).length := by
      rw [List.length_cons]
      omega
    refine ⟨w', ?_, ?_, ?_, ?_, hdotdot'.trans hdotdot⟩
    · unfold Work.copyElement
      rw [hat, if_pos ⟨Ne.symm ha', Ne.symm ha⟩]
      change (do
        let w ← Work.put { w with p := w.p + [a].length } a
        Work.copyElement fuel w) = _
      rw [hput]
      exact hcopy
    · rw [List.append_assoc] at hholds'
      exact hholds'
    · rw [hp', hp]
      exact hlength w.p
    · rw [hq', hq]
      exact hlength w.q

theorem backtrack_eq {buf : Bytes n} {dotdot k q : Nat} (hk : dotdot ≤ k) (hq : k < q)
    (hstop : k = dotdot ∨ byteAt buf k = DIRSEP)
    (hgo : ∀ i, k < i → i < q → byteAt buf i ≠ DIRSEP) : backtrack buf dotdot q = k := by
  induction q with
  | zero => cases hq
  | succ q ih =>
    unfold backtrack
    by_cases heq : k = q
    · rw [if_neg]
      · exact heq.symm
      · rintro ⟨hlt, hne⟩
        rcases hstop with rfl | hsep
        · exact Nat.lt_irrefl _ (heq ▸ hlt)
        · exact hne (heq ▸ hsep)
    · have hlt : k < q := by omega
      rw [if_pos ⟨by omega, hgo q hlt (Nat.lt_succ_self q)⟩]
      exact ih hlt fun i hi hi' => hgo i hi (by omega)

/-! ## The loop -/

/-- `stack` has been written behind `pre`, and the rest of the path makes `target` of it. -/
structure Inv (rooted : Bool) (pre : List UInt8) (target stack : List (List UInt8)) (w : Work n)
    (rest : List UInt8) : Prop where
  holds : w.Holds (pre ++ render DIRSEP stack) rest
  resolved : Resolved DOT DIRSEP rooted stack
  process : process DOT DIRSEP rooted stack rest = target
  dotdot : ∃ ords dots, stack = ords ++ dots ∧ (∀ e ∈ ords, e ≠ [DOT, DOT]) ∧
    (∀ e ∈ dots, e = [DOT, DOT]) ∧ w.dotdot = pre.length + (render DIRSEP dots).length
  room : stack ≠ [] → w.q < w.p ∨ rest.head? = none ∨ rest.head? = some DIRSEP
  zero : 0 ∉ rest

variable {rooted : Bool} {pre : List UInt8} {target stack : List (List UInt8)}

theorem DOT_ne : DOT ≠ DIRSEP := by decide

theorem pathsep_iff (h : 0 ∉ rest) :
    pathsep ((rest ++ [0]).getD 0 0) = true ↔ rest.head? = none ∨ rest.head? = some DIRSEP := by
  cases rest with
  | nil => simp [pathsep]
  | cons a rest =>
    have ha : a ≠ 0 := fun heq => h (heq ▸ List.mem_cons_self)
    simp [pathsep, ha]

theorem render_ne_nil (h : Resolved DOT DIRSEP rooted stack) (hstack : stack ≠ []) :
    render DIRSEP stack ≠ [] := by
  obtain ⟨a, ha, -⟩ := h.head_render DOT_ne hstack
  rintro hnil
  rw [hnil] at ha
  cases ha

theorem Inv.q_eq (h : Inv rooted pre target stack w rest) :
    w.q = pre.length + (render DIRSEP stack).length := by
  rw [← h.holds.length, List.length_append]

/-- The separator in front of an element. -/
theorem Holds.putSeparator (h : w.Holds (pre ++ render DIRSEP stack) rest)
    (hresolved : Resolved DOT DIRSEP rooted stack) (hroom : stack ≠ [] → w.q < w.p) :
    ∃ w' out, w.putSeparator pre.length = .ok w' ∧ w'.Holds out rest ∧
      (∀ e, out ++ e = pre ++ render DIRSEP (e :: stack)) ∧ w'.p = w.p ∧
      w'.q = w.q + (if stack = [] then 0 else 1) ∧ w'.dotdot = w.dotdot := by
  have hq : w.q = pre.length + (render DIRSEP stack).length := by
    rw [← h.length, List.length_append]
  unfold Work.putSeparator
  by_cases hnil : stack = []
  · rw [if_pos hnil, if_neg]
    · refine ⟨w, pre, rfl, ?_, fun e => ?_, rfl, rfl, rfl⟩
      · rw [hnil, render, List.append_nil] at h
        exact h
      · rw [hnil, render_singleton]
    · rw [hnil] at hq
      exact fun hne => hne hq
  · have hlength := List.length_pos_iff.mpr (render_ne_nil hresolved hnil)
    rw [if_neg hnil, if_pos (by omega)]
    obtain ⟨w', hput, hholds, hp, hq', hdotdot⟩ := h.put (hroom hnil) DIRSEP
    refine ⟨w', _, hput, hholds, fun e => ?_, hp, hq', hdotdot⟩
    rw [render_cons hnil, List.append_assoc, List.append_assoc, List.singleton_append]

/-- The element `e` has been read and comes onto the stack. -/
theorem Inv.pushed (h : Inv rooted pre target stack w (e ++ rest)) (he : DIRSEP ∉ e)
    (hrest : rest.head? = none ∨ rest.head? = some DIRSEP) {w' : Work n}
    (hholds : w'.Holds (pre ++ render DIRSEP (push DOT rooted stack e)) rest)
    (hdotdot : ∃ ords dots, push DOT rooted stack e = ords ++ dots ∧ (∀ e ∈ ords, e ≠ [DOT, DOT]) ∧
      (∀ e ∈ dots, e = [DOT, DOT]) ∧ w'.dotdot = pre.length + (render DIRSEP dots).length) :
    Inv rooted pre target (push DOT rooted stack e) w' rest where
  holds := hholds
  resolved := h.resolved.push he
  process := by rw [← process_element he hrest, h.process]
  dotdot := hdotdot
  room _ := Or.inr hrest
  zero hmem := h.zero (List.mem_append_right e hmem)

theorem Inv.separator (h : Inv rooted pre target stack w (DIRSEP :: rest)) :
    Inv rooted pre target stack { w with p := w.p + 1 } rest where
  holds := h.holds.skip (e := [DIRSEP])
  resolved := h.resolved
  process := by rw [← process_cons, h.process]
  dotdot := h.dotdot
  room _ := Or.inl (Nat.lt_succ_of_le h.holds.le)
  zero hmem := h.zero (List.mem_cons_of_mem _ hmem)

theorem Inv.dot (h : Inv rooted pre target stack w (DOT :: rest))
    (hrest : rest.head? = none ∨ rest.head? = some DIRSEP) :
    Inv rooted pre target stack { w with p := w.p + 1 } rest := by
  have hpush : push DOT rooted stack [DOT] = stack := push_dot
  have hpushed := @Inv.pushed _ _ _ [DOT] _ _ _ _ h (by decide) hrest { w with p := w.p + 1 }
  rw [hpush] at hpushed
  exact hpushed (h.holds.skip (e := [DOT])) h.dotdot

/-- An ordinary element is copied. -/
theorem Inv.ordinary (h : Inv rooted pre target stack w (e ++ rest)) (he : DIRSEP ∉ e)
    (hnil : e ≠ []) (hdot : e ≠ [DOT]) (hdotdot : e ≠ [DOT, DOT])
    (hrest : rest.head? = none ∨ rest.head? = some DIRSEP) :
    ∃ w', (do
      let w ← w.putSeparator pre.length
      Work.copyElement (n + 1) w) = Except.ok w' ∧
      Inv rooted pre target (e :: stack) w' rest := by
  have hhead : (e ++ rest).head? ≠ none ∧ (e ++ rest).head? ≠ some DIRSEP := by
    cases e with
    | nil => exact absurd rfl hnil
    | cons a e =>
      refine ⟨nofun, fun heq => he ?_⟩
      cases heq
      exact List.mem_cons_self
  have hroom : stack ≠ [] → w.q < w.p := fun hstack =>
    (h.room hstack).resolve_right fun hor => hor.elim hhead.1 hhead.2
  obtain ⟨w₁, out, hput, hholds, hout, hp, -, hdd⟩ := h.holds.putSeparator h.resolved hroom
  have hbound := hholds.bound
  have hfuel : e.length < n + 1 := by
    rw [List.length_append] at hbound
    omega
  obtain ⟨w', hcopy, hholds', -, -, hdd'⟩ := hholds.copyElement he
    (fun hmem => h.zero (List.mem_append_left rest hmem)) hrest hfuel
  have hpush : push DOT rooted stack e = e :: stack := push_ordinary hnil hdot hdotdot
  refine ⟨w', ?_, ?_⟩
  · rw [hput]
    exact hcopy
  · rw [← hpush]
    refine h.pushed he hrest ?_ ?_
    · rw [hpush, ← hout e]
      exact hholds'
    · obtain ⟨ords, dots, hstack, hords, hdots, hlength⟩ := h.dotdot
      refine ⟨e :: ords, dots, ?_, List.forall_mem_cons.mpr ⟨hdotdot, hords⟩, hdots, ?_⟩
      · rw [hpush, hstack, List.cons_append]
      · rw [hdd', hdd, hlength]

/-- Two dots that cannot backtrack: they are kept, or dropped at the root. -/
theorem Inv.keepDotdot (h : Inv rooted pre target stack w ([DOT, DOT] ++ rest))
    (hall : ∀ e ∈ stack, e = [DOT, DOT])
    (hrest : rest.head? = none ∨ rest.head? = some DIRSEP) :
    ∃ w', parent rooted pre.length { w with p := w.p + 2 } = .ok w' ∧
      Inv rooted pre target (push DOT rooted stack [DOT, DOT]) w' rest := by
  have hskip := h.holds.skip
  have hstart : w.dotdot = w.q := by
    obtain ⟨ords, dots, hstack, hords, hdots, hlength⟩ := h.dotdot
    cases ords with
    | nil =>
      rw [List.nil_append] at hstack
      rw [hlength, h.q_eq, hstack]
    | cons e ords =>
      have he : e ∈ stack := by
        rw [hstack]
        exact List.mem_cons_self
      exact absurd (hall e he) (hords e List.mem_cons_self)
  have hroom : stack ≠ [] → w.q < w.p := fun hstack =>
    (h.room hstack).resolve_right fun hor => hor.elim nofun (by simp [DOT_ne])
  unfold parent
  rw [if_neg (by exact hstart ▸ Nat.lt_irrefl _)]
  cases rooted with
  | true =>
    have hnil : stack = [] := by
      cases h.resolved with
      | nil => rfl
      | dotdot _ _ hrooted => cases hrooted
      | ordinary _ _ _ hne _ => exact absurd (hall _ List.mem_cons_self) hne
    subst hnil
    refine ⟨_, if_pos rfl, h.pushed (by decide) hrest ?_ ?_⟩
    · rw [push_dotdot_nil, if_pos rfl]
      exact hskip
    · rw [push_dotdot_nil, if_pos rfl]
      exact h.dotdot
  | false =>
    have hpush : push DOT false stack [DOT, DOT] = [DOT, DOT] :: stack := by
      cases stack with
      | nil => rw [push_dotdot_nil, if_neg Bool.false_ne_true]
      | cons top stack => rw [push_dotdot_cons, if_pos (hall top List.mem_cons_self)]
    obtain ⟨w₁, out, hput, hholds, hout, hp, hq, -⟩ := hskip.putSeparator h.resolved
      fun hstack => Nat.lt_add_right 2 (hroom hstack)
    have hle : w₁.q ≤ w.p := by
      rw [hq]
      change w.q + _ ≤ w.p
      split
      · exact h.holds.le
      · rename_i hstack
        exact hroom hstack
    have hp₁ : w₁.p = w.p + 2 := hp
    obtain ⟨w₂, hput₂, hholds₂, hp₂, hq₂, -⟩ := hholds.put (by omega) DOT
    obtain ⟨w₃, hput₃, hholds₃, -, hq₃, -⟩ := hholds₂.put (by omega) DOT
    have hwritten := hout [DOT, DOT]
    refine ⟨{ w₃ with dotdot := w₃.q }, ?_, h.pushed (by decide) hrest ?_ ?_⟩
    · rw [if_neg Bool.false_ne_true]
      change (do
        let w ← Work.putSeparator pre.length { w with p := w.p + [DOT, DOT].length }
        let w ← w.put DOT
        let w ← w.put DOT
        return { w with dotdot := w.q }) = _
      rw [hput]
      change (do
        let w ← w₁.put DOT
        let w ← w.put DOT
        return { w with dotdot := w.q }) = _
      rw [hput₂]
      change (do
        let w ← w₂.put DOT
        return { w with dotdot := w.q }) = _
      rw [hput₃]
      rfl
    · rw [hpush, ← hwritten]
      rw [List.append_assoc] at hholds₃
      exact ⟨hholds₃.written, hholds₃.length, hholds₃.unread, hholds₃.le⟩
    · refine ⟨[], [DOT, DOT] :: stack, hpush, by simp, ?_, ?_⟩
      · exact List.forall_mem_cons.mpr ⟨rfl, hall⟩
      · change w₃.q = _
        rw [← hholds₃.length, List.append_assoc, ← List.length_append, ← hwritten]
        rfl

/-- Two dots take an ordinary element away. -/
theorem Inv.backtrack {top : List UInt8} (h : Inv rooted pre target (top :: stack) w
    ([DOT, DOT] ++ rest)) (htop : top ≠ [DOT, DOT])
    (hrest : rest.head? = none ∨ rest.head? = some DIRSEP) :
    ∃ w', parent rooted pre.length { w with p := w.p + 2 } = .ok w' ∧
      Inv rooted pre target (push DOT rooted (top :: stack) [DOT, DOT]) w' rest := by
  have hpush : push DOT rooted (top :: stack) [DOT, DOT] = stack := by
    rw [push_dotdot_cons, if_neg htop]
  obtain ⟨hnil, hsep⟩ := h.resolved.ne_nil DOT_ne (e := top) List.mem_cons_self
  obtain ⟨ords, dots, hstack, hords, hdots, hlength⟩ := h.dotdot
  obtain ⟨ords, rfl⟩ : ∃ ords', ords = top :: ords' := by
    cases ords with
    | nil =>
      rw [List.nil_append] at hstack
      exact absurd (hdots top (hstack ▸ List.mem_cons_self)) htop
    | cons e ords => exact ⟨ords, by rw [(List.cons.inj hstack).1]⟩
  replace hstack : stack = ords ++ dots := (List.cons.inj hstack).2
  have hle : w.dotdot ≤ pre.length + (render DIRSEP stack).length := by
    have hrender := length_render_append DIRSEP ords dots
    rw [hlength, hstack]
    omega
  obtain ⟨tail, htail, hfirst, hafter⟩ : ∃ tail, render DIRSEP (top :: stack) =
      render DIRSEP stack ++ tail ∧ (stack = [] ∧ tail ≠ [] ∨ tail.head? = some DIRSEP) ∧
      ∀ i, 0 < i → i < tail.length → tail.getD i 0 ≠ DIRSEP := by
    have hmem : ∀ i, i < top.length → top.getD i 0 ≠ DIRSEP := by
      intro i hi heq
      rw [List.getD_eq_getElem?_getD, List.getElem?_eq_getElem hi, Option.getD_some] at heq
      exact hsep (heq ▸ List.getElem_mem hi)
    by_cases hempty : stack = []
    · rw [hempty]
      exact ⟨top, by rw [render_singleton, render, List.nil_append], Or.inl ⟨rfl, hnil⟩,
        fun i _ hi => hmem i hi⟩
    · refine ⟨DIRSEP :: top, render_cons hempty, Or.inr rfl, fun i hpos hi => ?_⟩
      obtain ⟨i, rfl⟩ : ∃ j, i = j + 1 := ⟨i - 1, by omega⟩
      exact hmem i (Nat.lt_of_succ_lt_succ hi)
  have hholds := h.holds
  rw [htail, ← List.append_assoc] at hholds
  have hq : w.q = pre.length + (render DIRSEP stack).length + tail.length := by
    rw [← hholds.length, List.length_append, List.length_append]
  have hbyte : ∀ i, i < tail.length →
      byteAt w.buf (pre.length + (render DIRSEP stack).length + i) = tail.getD i 0 := by
    intro i hi
    rw [hholds.byteAt_written (by omega), List.getD_eq_getElem?_getD,
      List.getElem?_append_right (by rw [List.length_append]; omega), List.length_append,
      Nat.add_sub_cancel_left, List.getD_eq_getElem?_getD]
  have hpos : 0 < tail.length := by
    rcases hfirst with ⟨-, hne⟩ | hhead
    · exact List.length_pos_iff.mpr hne
    · cases tail with
      | nil => cases hhead
      | cons a tail => exact Nat.succ_pos _
  have hback : Work.backtrack w.buf w.dotdot w.q =
      pre.length + (render DIRSEP stack).length := by
    refine backtrack_eq hle (by omega) ?_ fun i hi hi' => ?_
    · rcases hfirst with ⟨hempty, -⟩ | hhead
      · rw [hempty] at hle ⊢
        rw [hlength]
        rw [hempty] at hstack
        rw [(List.append_eq_nil_iff.mp hstack.symm).2]
        exact Or.inl rfl
      · right
        have hzero := hbyte 0 hpos
        rw [Nat.add_zero] at hzero
        rw [hzero, List.getD_eq_getElem?_getD, ← List.head?_eq_getElem?, hhead]
        rfl
    · have hat := hbyte (i - (pre.length + (render DIRSEP stack).length)) (by omega)
      rw [Nat.add_sub_cancel' (by omega)] at hat
      rw [hat]
      exact hafter _ (by omega) (by omega)
  have hkeep : (pre ++ render DIRSEP stack).length =
      pre.length + (render DIRSEP stack).length := List.length_append
  have hskip := hholds.skip
  refine ⟨{ w with p := w.p + 2, q := pre.length + (render DIRSEP stack).length }, ?_,
    h.pushed (by decide) hrest ?_ ?_⟩
  · unfold parent
    have hlt : w.dotdot < w.q := by omega
    rw [if_pos hlt]
    exact congrArg (fun q => Except.ok { w with p := w.p + 2, q := q }) hback
  · rw [hpush]
    refine ⟨?_, hkeep, hskip.unread, ?_⟩
    · have htake := Buffer.take_upTo w.buf (m := pre.length + (render DIRSEP stack).length)
        (n := w.q) (by omega)
      rw [hholds.written, ← hkeep, List.take_left] at htake
      rw [← hkeep]
      exact htake.symm
    · have hle' := hholds.le
      have hkept : pre.length + (render DIRSEP stack).length ≤ w.p + 2 := by omega
      exact hkept
  · rw [hpush]
    exact ⟨ords, dots, hstack, (List.forall_mem_cons.mp hords).2, hdots, hlength⟩

/-- One round reads something. -/
theorem Inv.element (h : Inv rooted pre target stack w (c :: rest)) :
    ∃ w' stack' rest', w.element rooted pre.length = .ok w' ∧
      Inv rooted pre target stack' w' rest' ∧ rest'.length ≤ rest.length := by
  have hat (i : Nat) := h.holds.byteAt_add i
  have hfirst : byteAt w.buf w.p = c := hat 0
  have hzero : 0 ∉ rest := fun hmem => h.zero (List.mem_cons_of_mem c hmem)
  have hsecond : pathsep (byteAt w.buf (w.p + 1)) = true ↔
      rest.head? = none ∨ rest.head? = some DIRSEP := by
    rw [hat 1]
    exact pathsep_iff hzero
  unfold Work.element
  dsimp only
  rw [hfirst]
  by_cases hsep : c = DIRSEP
  · subst hsep
    exact ⟨_, stack, rest, if_pos rfl, h.separator, Nat.le_refl _⟩
  rw [if_neg hsep]
  by_cases hdot : c = DOT ∧ pathsep (byteAt w.buf (w.p + 1))
  · obtain ⟨rfl, hend⟩ := hdot
    exact ⟨_, stack, rest, if_pos ⟨rfl, hend⟩, h.dot (hsecond.mp hend), Nat.le_refl _⟩
  rw [if_neg hdot]
  by_cases hdotdot : c = DOT ∧ byteAt w.buf (w.p + 1) = DOT ∧ pathsep (byteAt w.buf (w.p + 2))
  · rw [if_pos hdotdot]
    obtain ⟨rfl, hdot₂, hend⟩ := hdotdot
    cases rest with
    | nil =>
      rw [hat 1] at hdot₂
      cases hdot₂
    | cons d rest =>
      obtain rfl : d = DOT := (hat 1).symm.trans hdot₂
      have hrest : rest.head? = none ∨ rest.head? = some DIRSEP := by
        rw [hat 2] at hend
        exact (pathsep_iff fun hmem => hzero (List.mem_cons_of_mem DOT hmem)).mp hend
      cases stack with
      | nil =>
        obtain ⟨w', hparent, hinv⟩ := h.keepDotdot nofun hrest
        exact ⟨w', _, rest, hparent, hinv, Nat.le_succ _⟩
      | cons top stack =>
        by_cases htop : top = [DOT, DOT]
        · have hall : ∀ e ∈ top :: stack, e = [DOT, DOT] := by
            cases h.resolved with
            | dotdot _ hall _ => exact List.forall_mem_cons.mpr ⟨rfl, hall⟩
            | ordinary _ _ _ hne _ => exact absurd htop hne
          obtain ⟨w', hparent, hinv⟩ := h.keepDotdot hall hrest
          exact ⟨w', _, rest, hparent, hinv, Nat.le_succ _⟩
        · obtain ⟨w', hparent, hinv⟩ := h.backtrack htop hrest
          exact ⟨w', _, rest, hparent, hinv, Nat.le_succ _⟩
  · rw [if_neg hdotdot]
    obtain ⟨e, r, rfl, hmem, hend⟩ := exists_element DIRSEP rest
    have hnotdot : c :: e ≠ [DOT] := by
      intro heq
      cases heq
      exact hdot ⟨rfl, hsecond.mpr hend⟩
    have hnotdotdot : c :: e ≠ [DOT, DOT] := by
      intro heq
      cases heq
      refine hdotdot ⟨rfl, hat 1, ?_⟩
      rw [hat 2]
      exact (pathsep_iff fun hmem => hzero (List.mem_cons_of_mem DOT hmem)).mpr hend
    obtain ⟨w', hcopy, hinv⟩ := Inv.ordinary (e := c :: e) h
      (fun hor => (List.mem_cons.mp hor).elim (Ne.symm hsep) hmem) (List.cons_ne_nil c e)
      hnotdot hnotdotdot hend
    exact ⟨w', _, r, hcopy, hinv, by rw [List.length_append]; exact Nat.le_add_left _ _⟩

/-- The loop writes the stack of the path. -/
theorem Inv.elements (h : Inv rooted pre target stack w rest) {fuel : Nat}
    (hfuel : rest.length < fuel) :
    ∃ w', w.elements rooted pre.length fuel = .ok w' ∧ Inv rooted pre target target w' [] := by
  induction fuel generalizing w stack rest with
  | zero => cases hfuel
  | succ fuel ih =>
    have hat : byteAt w.buf w.p = (rest ++ [0]).getD 0 0 := h.holds.byteAt_add 0
    unfold Work.elements
    cases rest with
    | nil =>
      have htarget : stack = target := process_nil.symm.trans h.process
      exact ⟨w, if_pos hat, htarget ▸ h⟩
    | cons c rest =>
      have hc : byteAt w.buf w.p ≠ 0 := by
        rw [hat]
        exact fun heq => h.zero (heq ▸ List.mem_cons_self)
      obtain ⟨w₁, stack', rest', helement, hinv, hle⟩ := h.element
      obtain ⟨w', helements, hinv'⟩ := ih hinv (Nat.lt_of_le_of_lt hle (Nat.lt_of_succ_lt_succ hfuel))
      refine ⟨w', ?_, hinv'⟩
      rw [if_neg hc, helement]
      exact helements

end Work

/-! ## The whole path -/

theorem getD_append_zero (s : List UInt8) (i : Nat) : (s ++ [0]).getD i 0 = s.getD i 0 := by
  rw [List.getD_eq_getElem?_getD, List.getD_eq_getElem?_getD]
  rcases Nat.lt_trichotomy i s.length with hlt | rfl | hgt
  · rw [List.getElem?_append_left hlt]
  · rw [List.getElem?_concat_length, List.getElem?_eq_none (Nat.le_refl _)]
    rfl
  · rw [List.getElem?_eq_none (by rw [List.length_append, List.length_singleton]; omega),
      List.getElem?_eq_none (Nat.le_of_lt hgt)]

theorem getD_eq_DIRSEP (s : List UInt8) (i : Nat) : s.getD i 0 = DIRSEP ↔ s[i]? = some DIRSEP := by
  rw [List.getD_eq_getElem?_getD]
  cases s[i]? with
  | none => simp [DIRSEP]
  | some a => simp

/-- The separators at the beginning of the path. -/
theorem byteAt_path {path : List UInt8} {buf : Bytes n} (hbuf : buf.cells = path ++ [0]) (i : Nat) :
    byteAt buf i = DIRSEP ↔ path[i]? = some DIRSEP := by
  rw [byteAt, hbuf, getD_append_zero, getD_eq_DIRSEP]

theorem rooted_iff {path : List UInt8} {buf : Bytes n} (hbuf : buf.cells = path ++ [0]) :
    byteAt buf 0 = DIRSEP ↔ isRooted DIRSEP path = true := by
  rw [byteAt_path hbuf, isRooted_iff, List.head?_eq_getElem?]

theorem length_lead {path : List UInt8} {buf : Bytes n} (hbuf : buf.cells = path ++ [0]) :
    (lead DIRSEP path).length =
      if byteAt buf 0 = DIRSEP then 1 + (doubleSlash buf).toNat else 0 := by
  have hdouble : doubleSlash buf = true ↔
      path.head? = some DIRSEP ∧ path[1]? = some DIRSEP ∧ path[2]? ≠ some DIRSEP := by
    simp only [doubleSlash, decide_eq_true_eq, ne_eq, byteAt_path hbuf, List.head?_eq_getElem?]
  have hfirst : byteAt buf 0 = DIRSEP ↔ path.head? = some DIRSEP := by
    rw [byteAt_path hbuf, List.head?_eq_getElem?]
  unfold lead
  by_cases hroot : path.head? = some DIRSEP
  · rw [if_pos hroot, if_pos (hfirst.mpr hroot)]
    by_cases hboth : path[1]? = some DIRSEP ∧ path[2]? ≠ some DIRSEP
    · rw [if_pos hboth, hdouble.mpr ⟨hroot, hboth⟩]
      rfl
    · rw [if_neg hboth, Bool.eq_false_iff.mpr fun h => hboth (hdouble.mp h).2]
      rfl
  · rw [if_neg hroot, if_neg fun hat => hroot (hfirst.mp hat)]
    rfl

/-- A text with its end is read back. -/
theorem stringAt_of_upTo {buf : Bytes n} {text : List UInt8} (hzero : 0 ∉ text)
    (h : buf.upTo (text.length + 1) = text ++ [0]) :
    stringAt buf 0 = text ∧ ∀ i, i ≤ text.length → byteAt buf i = text.getD i 0 := by
  have hcells : buf.cells = text ++ [0] ++ buf.cells.drop (text.length + 1) := by
    rw [← h, Buffer.upTo, List.take_append_drop]
  constructor
  · rw [stringAt, List.drop_zero, hcells, List.append_assoc, List.takeWhile_append_of_pos]
    · simp
    · intro a ha
      have hne : a ≠ 0 := by
        rintro rfl
        exact hzero ha
      simpa using hne
  · intro i hi
    have hget : buf.cells[i]? = (text ++ [0])[i]? := by
      rw [hcells, List.getElem?_append_left]
      rw [List.length_append, List.length_singleton]
      omega
    rw [byteAt, ← getD_append_zero text, List.getD_eq_getElem?_getD, List.getD_eq_getElem?_getD, hget]

/-- The end of the function, with `out` written. -/
theorem Work.Holds.finish {w : Work n} {out : List UInt8} {stubChar : UInt8} {double : Bool}
    (h : w.Holds out []) (hn : 0 < n) (hzero : 0 ∉ out) (hstub : stubChar ≠ 0)
    (hdouble : out[0]? = some DIRSEP → out[1]? = some DIRSEP → double = true) :
    ∃ buf, (do
      let w ← w.orStub stubChar
      let buf ← store w.buf w.q [0]
      turnDoubleSlash double buf) = Except.ok buf ∧
      stringAt buf 0 = if out = [] then [stubChar] else out := by
  have hp : w.p = n := h.bound
  have hempty : w.q = 0 ↔ out = [] := by rw [← h.length, List.length_eq_zero_iff]
  obtain ⟨w', hput, hholds⟩ : ∃ w', w.orStub stubChar = .ok w' ∧
      w'.Holds (if out = [] then [stubChar] else out) [] := by
    unfold Work.orStub
    by_cases hnil : out = []
    · rw [if_pos (hempty.mpr hnil), if_pos hnil]
      rw [hnil] at h
      obtain ⟨w', hput, hholds, -⟩ := h.put (by rw [hempty.mpr hnil, hp]; exact hn) stubChar
      exact ⟨w', hput, hholds⟩
    · rw [if_neg fun hq => hnil (hempty.mp hq), if_neg hnil]
      exact ⟨w, rfl, h⟩
  have hzero' : 0 ∉ if out = [] then [stubChar] else out := by
    split
    · simpa using hstub.symm
    · exact hzero
  have hdouble' : (if out = [] then [stubChar] else out)[0]? = some DIRSEP →
      (if out = [] then [stubChar] else out)[1]? = some DIRSEP → double = true := by
    split
    · exact fun _ h => nomatch h
    · exact hdouble
  generalize (if out = [] then [stubChar] else out) = text at hholds hzero' hdouble' ⊢
  have hfit : w'.q + [(0 : UInt8)].length ≤ n + 1 := by
    have hle := hholds.le
    have hbound := hholds.bound
    rw [List.length_nil] at hbound
    rw [List.length_singleton]
    omega
  have hupTo : (w'.buf.overwrite w'.q [0] hfit).upTo (text.length + 1) = text ++ [0] := by
    have happend := Buffer.upTo_append w'.buf hfit
    rw [hholds.written] at happend
    rw [hholds.length]
    exact happend
  obtain ⟨hstring, hbytes⟩ := stringAt_of_upTo hzero' hupTo
  refine ⟨_, ?_, hstring⟩
  rw [hput]
  change (do
    let buf ← store w'.buf w'.q [0]
    turnDoubleSlash double buf) = _
  rw [Work.store_ok hfit]
  refine if_neg ?_
  rintro ⟨hslash, hnot⟩
  simp only [doubleSlash, decide_eq_true_eq] at hslash
  have hlength : 1 ≤ text.length := by
    by_contra hlt
    obtain rfl : text = [] := List.length_eq_zero_iff.mp (by omega)
    rw [hbytes 0 (Nat.le_refl _)] at hslash
    exact absurd hslash.1 (by decide)
  rw [hbytes 0 (Nat.zero_le _), hbytes 1 hlength, getD_eq_DIRSEP, getD_eq_DIRSEP] at hslash
  exact hnot (hdouble' hslash.1 hslash.2.1)

/-- The canonical path is written over a path that is not empty. -/
theorem shCanonpath_eq {path : List UInt8} (hzero : 0 ∉ path) (hpath : path ≠ []) :
    shCanonpath path = .ok (canonical DOT DIRSEP path) := by
  let buf : Bytes path.length := ⟨path ++ [0], List.length_append⟩
  have hsplit := lead_append_drop DIRSEP path
  have hbuf : buf.cells = path ++ [0] := rfl
  have hbase := length_lead hbuf
  have hrooted := rooted_iff hbuf
  have hprocess : process DOT DIRSEP (isRooted DIRSEP path) [] (path.drop (lead DIRSEP path).length) =
      process DOT DIRSEP (isRooted DIRSEP path) [] path := by
    cases hroot : isRooted DIRSEP path with
    | false => rw [lead_of_not_rooted hroot, List.length_nil, List.drop_zero]
    | true =>
      conv_rhs => rw [← hsplit]
      exact (process_lead hroot _).symm
  have hresolved : Resolved DOT DIRSEP (isRooted DIRSEP path)
      (process DOT DIRSEP (isRooted DIRSEP path) [] path) := Resolved.nil.process path
  have hchars : 0 ∉ render DIRSEP (process DOT DIRSEP (isRooted DIRSEP path) [] path) := fun hmem =>
    (mem_render_process hmem).elim (by decide) hzero
  have hcanonical : canonical DOT DIRSEP path =
      if lead DIRSEP path ++ render DIRSEP (process DOT DIRSEP (isRooted DIRSEP path) [] path) = []
      then [DOT]
      else lead DIRSEP path ++ render DIRSEP (process DOT DIRSEP (isRooted DIRSEP path) [] path) :=
    rfl
  generalize process DOT DIRSEP (isRooted DIRSEP path) [] path = target at *
  generalize hlead : lead DIRSEP path = pre at *
  have hbound : pre.length ≤ path.length := by
    have hlength := congrArg List.length hsplit
    rw [List.length_append] at hlength
    omega
  have htake : path.take pre.length = pre := by
    conv_lhs => rw [← hsplit]
    exact List.take_left
  have hpre : 0 ∉ pre := fun hmem => hzero (List.mem_of_mem_take (htake.symm ▸ hmem))
  have hstart : Work.Inv (isRooted DIRSEP path) pre target []
      (⟨buf, pre.length, pre.length, pre.length⟩ : Work path.length) (path.drop pre.length) := by
    refine ⟨⟨?_, ?_, ?_, Nat.le_refl _⟩, .nil, hprocess, ⟨[], [], rfl, by simp, by simp, rfl⟩,
      fun h => absurd rfl h, fun hmem => hzero (List.mem_of_mem_drop hmem)⟩
    · change (path ++ [0]).take _ = _
      rw [List.take_append_of_le_length hbound, render, List.append_nil, htake]
    · rw [render, List.append_nil]
    · exact List.drop_append_of_le_length hbound
  obtain ⟨w, helements, hinv⟩ := hstart.elements
    (show _ < path.length + 1 by rw [List.length_drop]; omega)
  have hfirst : (render DIRSEP target)[0]? ≠ some DIRSEP := by
    rw [← List.head?_eq_getElem?]
    by_cases hnil : target = []
    · rw [hnil]
      exact nofun
    · obtain ⟨a, ha, hne⟩ := hresolved.head_render Work.DOT_ne hnil
      rw [ha]
      exact fun heq => hne (Option.some.inj heq)
  have hdouble : (pre ++ render DIRSEP target)[0]? = some DIRSEP →
      (pre ++ render DIRSEP target)[1]? = some DIRSEP → doubleSlash buf = true := by
    intro hzeroth hone
    cases hroot : isRooted DIRSEP path with
    | false =>
      rw [← hlead, lead_of_not_rooted hroot] at hzeroth
      exact absurd hzeroth hfirst
    | true =>
      rcases lead_cases hroot with hone' | htwo
      · rw [← hlead, hone'] at hone
        exact absurd hone hfirst
      · rw [← hlead, htwo, if_pos (hrooted.mpr hroot)] at hbase
        cases hslash : doubleSlash buf with
        | true => rfl
        | false =>
          rw [hslash] at hbase
          cases hbase
  have hstub : (if byteAt buf 0 = DIRSEP then DIRSEP else DOT) ≠ 0 := by
    split
    · decide
    · decide
  obtain ⟨out, hfinish, hstring⟩ := hinv.holds.finish (List.length_pos_iff.mpr hpath)
    (fun hmem => (List.mem_append.mp hmem).elim hpre hchars) hstub hdouble
  have hdo : shCanonpath path = .ok (stringAt out 0) := by
    have hdecide : decide (byteAt buf 0 = DIRSEP) = isRooted DIRSEP path := by
      rw [Bool.eq_iff_iff, decide_eq_true_iff]
      exact hrooted
    rw [← hdecide] at helements
    rw [hbase] at helements
    unfold shCanonpath
    dsimp only
    change (do
      let w ← Work.elements (decide (byteAt buf 0 = DIRSEP))
        (if byteAt buf 0 = DIRSEP then 1 + (doubleSlash buf).toNat else 0) (path.length + 1)
        ⟨buf, _, _, _⟩
      _) = _
    rw [helements]
    have hreturn := congrArg (· >>= fun buf => pure (stringAt buf 0)) hfinish
    simp only [bind_assoc] at hreturn
    exact hreturn
  rw [hdo, hstring, hcanonical]
  by_cases hempty : pre ++ render DIRSEP target = []
  · have hnot : ¬byteAt buf 0 = DIRSEP := by
      intro hat
      rw [if_pos hat, (List.append_eq_nil_iff.mp hempty).1] at hbase
      rw [List.length_nil] at hbase
      omega
    rw [if_pos hempty, if_pos hempty, if_neg hnot]
  · rw [if_neg hempty, if_neg hempty]

/-- The store behind the end of an empty path. -/
theorem shCanonpath_nil : shCanonpath [] = .error (.store ⟨1, 1⟩) := by decide

/-- `sh_canonpath` gives the canonical path, and that again for it, without a store outside the
bytes it works in, for every path but the empty one. -/
theorem canonicalizes_iff (path : List UInt8) (hzero : 0 ∉ path) :
    (shCanonpath path = .ok (canonical DOT DIRSEP path) ∧
      shCanonpath (canonical DOT DIRSEP path) = .ok (canonical DOT DIRSEP path)) ↔ path ≠ [] := by
  constructor
  · rintro ⟨hok, -⟩ rfl
    cases shCanonpath_nil.symm.trans hok
  · intro hpath
    refine ⟨shCanonpath_eq hzero hpath, ?_⟩
    have hzero' : 0 ∉ canonical DOT DIRSEP path := fun hmem => by
      rcases mem_canonical hmem with hdot | hsep | hmem
      · cases hdot
      · cases hsep
      · exact hzero hmem
    have hagain := shCanonpath_eq hzero' (canonical_ne_nil path)
    rw [canonical_canonical Work.DOT_ne] at hagain
    exact hagain

theorem canonicalizes_iff_parent : (shCanonpath [47, 97, 47, 46, 46] =
      .ok (canonical DOT DIRSEP [47, 97, 47, 46, 46]) ∧
    shCanonpath (canonical DOT DIRSEP [47, 97, 47, 46, 46]) =
      .ok (canonical DOT DIRSEP [47, 97, 47, 46, 46])) ↔ [47, 97, 47, 46, 46] ≠ ([] : List UInt8) :=
  canonicalizes_iff [47, 97, 47, 46, 46] (by decide)

/-- The empty path becomes `.`, which takes two bytes, in one byte. -/
theorem empty_path_overflows : ¬∀ path : List UInt8, 0 ∉ path →
    shCanonpath path = .ok (canonical DOT DIRSEP path) ∧
      shCanonpath (canonical DOT DIRSEP path) = .ok (canonical DOT DIRSEP path) := by
  intro hall
  cases shCanonpath_nil.symm.trans (hall [] List.not_mem_nil).1

end Basht.Canonpath
