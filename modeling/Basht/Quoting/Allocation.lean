import Basht.Quoting.RoundTrip

/-!
# The buffer of `ansicstr`

`ansicstr` allocates four bytes for each byte of the string, and four more. Every form of escape
stays below this ratio (`ansicstrBytes_length_le`), but the size is an `int`: from a length of
`2 ^ 29 - 1` on it is not the size that was meant, and too small for some string of each length
(`allocation_suffices_iff`).
-/

namespace Basht.Quoting

variable (L : Locale)

/-- `\x`, if the caller of `ansicstr` has set the internal flag of `\x{`. -/
def openHexEscape (flags : Nat) (s : List UInt8) : Turn :=
  if flags.testBit 1 ∧ s.head? = some '\x7b'.toUInt8 then hexEscape flags s
  else
    let ds := digits isXDigit s.length s
    let close := if (s.drop ds.length).head? = some '\x7d'.toUInt8 then 1 else 0
    putc flags [] (UInt8.ofNat (readDigits 16 hexValue 0 ds)) (ds.length + close)

/-- The `switch` on the character `c` behind a backslash, for any flags. -/
def escapeAny (flags : Nat) (sawc : Bool) (c : UInt8) (s : List UInt8) : Turn :=
  if c = 'x'.toUInt8 ∧ flags.testBit 4 then openHexEscape flags s else escape L flags sawc c s

/-- The flags behind the escape: `\x` clears the internal flag. -/
def flagsBehind (flags : Nat) (c : UInt8) : Nat :=
  if c = 'x'.toUInt8 ∧ flags.testBit 4 then flags - 16 else flags

/-- The bytes that the loop of `ansicstr` stores. -/
def ansicstrBytes (sawc : Bool) (flags : Nat) : List UInt8 → List UInt8
  | [] => []
  | c :: s =>
    if c ≠ '\\'.toUInt8 then
      match copyChar L c s with
      | .put out k => out ++ ansicstrBytes sawc flags (s.drop k)
      | _ => []
    else
      match s with
      | [] => [c]
      | d :: s =>
        match escapeAny L flags sawc d s with
        | .put out k => out ++ ansicstrBytes sawc (flagsBehind flags d) (s.drop k)
        | _ => []
termination_by s => s.length

/-- The size that `ansicstr` passes to `xmalloc`; `temp` is an `int`. -/
def allocated (len : Nat) : Nat :=
  let temp := Int32.ofNat (4 * len + 4)
  let temp := if temp < 12 then 12 else temp
  temp.toInt.toNat

/-- What is stored, with the final NUL, fits in what has been allocated. -/
def Fits (flags : Nat) (sawc : Bool) (string : List UInt8) : Prop :=
  string = [] ∨ (ansicstrBytes L sawc flags string).length + 1 ≤ allocated string.length

/-- A C string. -/
def IsString (s : List UInt8) : Prop := ∀ c ∈ s, c ≠ 0

variable {L}

/-- Without the internal flag, these are the bytes of `ansicstr`. -/
theorem ansicstrBytes_eq {flags : Nat} (hflags : flags.testBit 4 = false) (sawc : Bool)
    (s : List UInt8) : ansicstrBytes L sawc flags s = (ansicstrLoop L flags sawc s).1 := by
  have hescape : ∀ c s, escapeAny L flags sawc c s = escape L flags sawc c s := fun c s =>
    if_neg fun h => by simp [hflags] at h
  have hbehind : ∀ c, flagsBehind flags c = flags := fun c => if_neg fun h => by simp [hflags] at h
  fun_induction ansicstrLoop L flags sawc s with
  | case1 => rw [ansicstrBytes]
  | case2 c s hc out k h r ih =>
    rw [ansicstrBytes.eq_def]
    dsimp only
    rw [if_pos hc, h]
    exact congrArg (out ++ ·) ih
  | case3 c s hc h =>
    rw [ansicstrBytes.eq_def]
    dsimp only
    rw [if_pos hc, h]
  | case4 c s hc h =>
    rw [ansicstrBytes.eq_def]
    dsimp only
    rw [if_pos hc, h]
  | case5 c hc => rw [ansicstrBytes, if_neg hc]
  | case6 c hc d s out k h r ih =>
    rw [ansicstrBytes, if_neg hc]
    dsimp only
    rw [hescape, h, hbehind]
    exact congrArg (out ++ ·) ih
  | case7 c hc d s h =>
    rw [ansicstrBytes, if_neg hc]
    dsimp only
    rw [hescape, h]
  | case8 c hc d s h =>
    rw [ansicstrBytes, if_neg hc]
    dsimp only
    rw [hescape, h]

/-! ## What one turn stores -/

/-- A turn behind `b` characters, with `s` to come, stores at most four bytes for each character
that it reads. -/
def Turn.Within (b : Nat) (s : List UInt8) (t : Turn) : Prop :=
  ∀ out k, t = .put out k → out.length ≤ 4 * (b + min k s.length)

theorem Turn.Within.ite {b : Nat} {s : List UInt8} {p : Prop} [Decidable p] {t u : Turn}
    (ht : t.Within b s) (hu : u.Within b s) : (if p then t else u).Within b s := by
  split
  · exact ht
  · exact hu

theorem putc_within (flags : Nat) {out : List UInt8} (hout : out.length ≤ 2) (c : UInt8) (k : Nat)
    (s : List UInt8) : (putc flags out c k).Within 2 s := by
  intro o j h
  unfold putc at h
  split at h
  · cases h
    rw [List.length_append, List.length_cons, List.length_singleton]
    omega
  · cases h
    rw [List.length_append, List.length_singleton]
    omega

theorem unrecognized_within (flags : Nat) (c : UInt8) (s : List UInt8) :
    (unrecognized flags c).Within 2 s := by
  apply putc_within
  split
  · exact Nat.zero_le _
  · exact Nat.le_succ 1

theorem hexEscape_within (flags : Nat) (s : List UInt8) : (hexEscape flags s).Within 2 s := by
  unfold hexEscape
  dsimp only
  split
  · exact putc_within flags (Nat.zero_le _) _ _ s
  · split
    · apply putc_within
      exact Nat.le_succ 1
    · exact putc_within flags (Nat.zero_le _) _ _ s

theorem openHexEscape_within (flags : Nat) (s : List UInt8) :
    (openHexEscape flags s).Within 2 s := by
  unfold openHexEscape
  split
  · exact hexEscape_within flags s
  · exact putc_within flags (Nat.zero_le _) _ _ s

/-- The longest expansion has a digit to go with it. -/
theorem codeEscape_within (hconv : ∀ v, (L.u32cconv v).length ≤ 10) (flags : Nat) (c : UInt8)
    (temp : Nat) (s : List UInt8) : (codeEscape L flags c temp s).Within 2 s := by
  unfold codeEscape
  dsimp only
  split
  · apply putc_within
    exact Nat.le_succ 1
  · rename_i hds
    split
    · exact putc_within flags (Nat.zero_le _) _ _ s
    · intro out k h
      cases h
      have hpos : 0 < (digits isXDigit temp s).length := List.length_pos_of_ne_nil hds
      have hle : (digits isXDigit temp s).length ≤ s.length :=
        Nat.le_trans (List.takeWhile_prefix _).length_le (List.take_prefix _ _).length_le
      have := hconv (readDigits 16 hexValue 0 (digits isXDigit temp s))
      rw [Nat.min_eq_left hle]
      omega

theorem controlEscape_within (flags : Nat) (sawc : Bool) (s : List UInt8) :
    (controlEscape L flags sawc s).Within 2 s := by
  unfold controlEscape
  split
  · exact nofun
  · split
    · exact unrecognized_within flags _ s
    · split
      · exact unrecognized_within flags _ _
      · split_ifs <;> exact putc_within flags (Nat.zero_le _) _ _ _

theorem escape_within (hconv : ∀ v, (L.u32cconv v).length ≤ 10) (flags : Nat) (sawc : Bool)
    (c : UInt8) (s : List UInt8) : (escape L flags sawc c s).Within 2 s := by
  have hput (c : UInt8) (k : Nat) : (putc flags [] c k).Within 2 s :=
    putc_within flags (Nat.zero_le _) c k s
  unfold escape
  iterate 8 apply Turn.Within.ite (hput _ _)
  apply Turn.Within.ite
  · apply Turn.Within.ite
    · apply putc_within
      exact Nat.le_succ 1
    · exact hput _ _
  apply Turn.Within.ite (hexEscape_within flags s)
  apply Turn.Within.ite (codeEscape_within hconv flags c 4 s)
  apply Turn.Within.ite (codeEscape_within hconv flags c 8 s)
  apply Turn.Within.ite (hput _ _)
  apply Turn.Within.ite
  · apply putc_within
    split
    · exact Nat.le_succ 1
    · exact Nat.zero_le _
  apply Turn.Within.ite (controlEscape_within flags sawc s)
  exact unrecognized_within flags c s

theorem escapeAny_within (hconv : ∀ v, (L.u32cconv v).length ≤ 10) (flags : Nat) (sawc : Bool)
    (c : UInt8) (s : List UInt8) : (escapeAny L flags sawc c s).Within 2 s :=
  (openHexEscape_within flags s).ite (escape_within hconv flags sawc c s)

theorem copyChar_within (L : Locale) (c : UInt8) (s : List UInt8) :
    (copyChar L c s).Within 1 s := by
  have hone : (Turn.put [c] 0).Within 1 s := by
    intro out k h
    cases h
    rw [List.length_singleton]
    omega
  unfold copyChar
  apply Turn.Within.ite _ hone
  split
  · exact nofun
  · exact hone
  · intro out k h
    cases h
    rw [List.length_cons, List.length_take]
    omega

/-! ## What the loop stores -/

/-- Four bytes for each byte of the string are enough for every mix of escapes. -/
theorem ansicstrBytes_length_le (hconv : ∀ v, (L.u32cconv v).length ≤ 10) (sawc : Bool)
    (flags : Nat) (s : List UInt8) : (ansicstrBytes L sawc flags s).length ≤ 4 * s.length := by
  fun_induction ansicstrBytes L sawc flags s with
  | case1 => exact Nat.le_refl _
  | case2 flags c s hc out k h ih =>
    have := copyChar_within L c s out k h
    rw [List.length_drop] at ih
    rw [List.length_append, List.length_cons]
    omega
  | case3 => exact Nat.zero_le _
  | case4 =>
    rw [List.length_singleton]
    decide
  | case5 flags c hc d s out k h ih =>
    have := escapeAny_within hconv flags sawc d s out k h
    rw [List.length_drop] at ih
    rw [List.length_append, List.length_cons, List.length_cons]
    omega
  | case6 => exact Nat.zero_le _

/-! ## The size -/

theorem allocated_eq (len : Nat) :
    (allocated len : Int) = max 12 (((4 * len + 4 : Nat) : Int).bmod 4294967296) := by
  have htemp : (Int32.ofNat (4 * len + 4)).toInt = ((4 * len + 4 : Nat) : Int).bmod 4294967296 :=
    Int32.toInt_ofNat'
  have htwelve : (12 : Int32).toInt = 12 := rfl
  unfold allocated
  dsimp only
  split
  · rename_i h
    rw [Int32.lt_iff_toInt_lt, htemp, htwelve] at h
    rw [htwelve]
    omega
  · rename_i h
    rw [Int32.lt_iff_toInt_lt, htemp, htwelve] at h
    rw [htemp]
    omega

/-- The size that was meant. -/
theorem allocated_of_lt {len : Nat} (h : len < 536870911) : allocated len = max 12 (4 * len + 4) := by
  have := allocated_eq len
  rw [Int.bmod_def] at this
  omega

/-- From `2 ^ 29 - 1` on, the size is not enough for half as many bytes more. -/
theorem allocated_lt {len : Nat} (h : 536870911 ≤ len) : allocated len < len + len / 2 + 1 := by
  have := allocated_eq len
  rw [Int.bmod_def] at this
  omega

/-- A string of backslashes in front of CTLESC. -/
def escapedCtlesc : Nat → List UInt8
  | 0 => []
  | 1 => ['\\'.toUInt8]
  | n + 2 => '\\'.toUInt8 :: CTLESC :: escapedCtlesc n

theorem escapedCtlesc_length (n : Nat) : (escapedCtlesc n).length = n := by
  induction n using escapedCtlesc.induct with
  | case1 => rfl
  | case2 => rfl
  | case3 n ih => rw [escapedCtlesc, List.length_cons, List.length_cons, ih]

theorem isString_escapedCtlesc (n : Nat) : IsString (escapedCtlesc n) := by
  induction n using escapedCtlesc.induct with
  | case1 => exact nofun
  | case2 =>
    intro c hc
    rw [List.mem_singleton.mp hc]
    decide
  | case3 n ih =>
    exact List.forall_mem_cons.mpr ⟨by decide, List.forall_mem_cons.mpr ⟨by decide, ih⟩⟩

/-- For the parser, a backslash that stays and a CTLESC in front of the CTLESC. -/
theorem ansicstrBytes_escapedCtlesc (L : Locale) (sawc : Bool) (n : Nat) :
    (ansicstrBytes L sawc 2 (escapedCtlesc n)).length = n + n / 2 := by
  induction n using escapedCtlesc.induct with
  | case1 =>
    rw [escapedCtlesc, ansicstrBytes]
    rfl
  | case2 =>
    rw [escapedCtlesc, ansicstrBytes.eq_def]
    rfl
  | case3 n ih =>
    have hescape (s : List UInt8) : escapeAny L 2 sawc CTLESC s =
        .put ['\\'.toUInt8, CTLESC, CTLESC] 0 := by
      rfl
    rw [escapedCtlesc, ansicstrBytes.eq_def]
    dsimp only
    rw [if_neg (not_not.mpr rfl), hescape]
    dsimp only
    rw [List.drop_zero, show flagsBehind 2 CTLESC = 2 from rfl, List.length_append, ih]
    change 3 + (n + n / 2) = _
    omega

/-- For every length: all strings of the length fit, with all flags, if and only if the size is
computed without overflow. -/
theorem allocation_suffices_iff (L : Locale) (hconv : ∀ v, (L.u32cconv v).length ≤ 10) (len : Nat) :
    (∀ s, s.length = len → IsString s → ∀ flags sawc, Fits L flags sawc s) ↔
      len < 536870911 := by
  constructor
  · intro h
    by_contra hlen
    rcases h _ (escapedCtlesc_length len) (isString_escapedCtlesc len) 2 false with hnil | hle
    · have := congrArg List.length hnil
      rw [escapedCtlesc_length, List.length_nil] at this
      omega
    · rw [ansicstrBytes_escapedCtlesc, escapedCtlesc_length] at hle
      have := allocated_lt (Nat.not_lt.mp hlen)
      omega
  · rintro hlen s rfl _ flags sawc
    right
    have := ansicstrBytes_length_le hconv sawc flags s
    rw [allocated_of_lt hlen]
    omega

/-- `u32toutf8`. -/
def u32toutf8 (wc : Nat) : List UInt8 :=
  let cont (shift : Nat) : UInt8 := UInt8.ofNat (wc >>> shift) &&& 0x3f ||| 0x80
  if wc < 0x80 then [UInt8.ofNat wc]
  else if wc < 0x800 then [UInt8.ofNat (wc >>> 6) ||| 0xc0, cont 0]
  else if wc < 0x10000 then [UInt8.ofNat (wc >>> 12) ||| 0xe0, cont 6, cont 0]
  else if wc < 0x200000 then [UInt8.ofNat (wc >>> 18) ||| 0xf0, cont 12, cont 6, cont 0]
  else if wc < 0x4000000 then [UInt8.ofNat (wc >>> 24) ||| 0xf8, cont 18, cont 12, cont 6, cont 0]
  else if wc < 0x80000000 then
    [UInt8.ofNat (wc >>> 30) ||| 0xfc, cont 24, cont 18, cont 12, cont 6, cont 0]
  else []

theorem u32toutf8_length_le (wc : Nat) : (u32toutf8 wc).length ≤ 10 := by
  unfold u32toutf8
  dsimp only
  split_ifs <;> exact of_decide_eq_true rfl

/-- Strings of 100 bytes in a UTF-8 locale. -/
theorem allocation_suffices_iff_hundred :
    (∀ s : List UInt8, s.length = 100 → IsString s → ∀ flags sawc,
      Fits { Locale.utf8 (fun _ => true) with u32cconv := u32toutf8 } flags sawc s) ↔
      100 < 536870911 :=
  allocation_suffices_iff { Locale.utf8 (fun _ => true) with u32cconv := u32toutf8 } u32toutf8_length_le 100

theorem ansicstrBytes_plain (hL : L.utf8locale = true) (sawc : Bool) (flags n : Nat) :
    ansicstrBytes L sawc flags (List.replicate n 'a'.toUInt8) = List.replicate n 'a'.toUInt8 := by
  induction n with
  | zero =>
    rw [List.replicate_zero, ansicstrBytes]
  | succ n ih =>
    have hcopy (s : List UInt8) : copyChar L 'a'.toUInt8 s = .put ['a'.toUInt8] 0 := by
      rw [copyChar, if_neg]
      rintro ⟨h, -⟩
      rw [hL] at h
      cases h
    rw [List.replicate_succ, ansicstrBytes.eq_def]
    dsimp only
    rw [if_pos (by decide), hcopy]
    dsimp only
    rw [List.drop_zero, ih]
    rfl

/-- 2^29 - 1 times the letter `a`: twelve bytes are allocated. -/
theorem plain_overrun :
    let L := Locale.utf8 fun _ => true
    let s := List.replicate 536870911 'a'.toUInt8
    IsString s ∧ allocated s.length = 12 ∧ ansicstrBytes L false 0 s = s ∧ ¬Fits L 0 false s := by
  intro L s
  have hlen : s.length = 536870911 := List.length_replicate
  have hsize : allocated s.length = 12 := by
    have := allocated_eq s.length
    rw [Int.bmod_def, hlen] at this
    rw [hlen]
    omega
  have hbytes : ansicstrBytes L false 0 s = s := ansicstrBytes_plain rfl false 0 _
  refine ⟨fun c hc => ?_, hsize, hbytes, ?_⟩
  · rw [List.eq_of_mem_replicate hc]
    decide
  · rintro (hnil | hle)
    · rw [hnil] at hlen
      cases hlen
    · rw [hbytes, hsize, hlen] at hle
      omega

end Basht.Quoting
