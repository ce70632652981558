import Basht.Quoting.Strtrans

/-!
# Quoted strings decode to themselves

What `ansic_quote` writes for a character is a piece: behind any text `ansicstr` reads the
character back from it, and a scan for the closing quote passes over it (`Piece`). The
body of a quoted string is a sequence of such pieces (`piece_body`).
-/

namespace Basht.Quoting

/-! ## Locales -/

/-- The C locale. -/
structure Locale.IsC (L : Locale) : Prop where
  utf8locale : L.utf8locale = false
  mbCurMax : L.mbCurMax = 1

/-- A UTF-8 locale: from the initial state, `mbrtowc` on a byte of 0x80 or more either
fails, or finds a character all of whose bytes are such bytes and is in the initial state
again. -/
structure Locale.IsUtf8 (L : Locale) : Prop where
  utf8locale : L.utf8locale = true
  mbCurMax : 1 < L.mbCurMax
  not_null : ∀ c s, 0x80 ≤ c → (L.mbrtowc L.initial (c :: s)).1 ≠ .null
  char : ∀ c s clen wc state, 0x80 ≤ c →
    L.mbrtowc L.initial (c :: s) = (.char clen wc, state) →
      0 < clen ∧ clen ≤ (c :: s).length ∧ (∀ b ∈ (c :: s).take clen, 0x80 ≤ b) ∧ state = L.initial

/-- The first single quote that no backslash escapes. -/
def firstUnescaped : List UInt8 → Option Nat
  | [] => none
  | c :: s =>
    if c = '\''.toUInt8 then some 0
    else if c = '\\'.toUInt8 then
      match s with
      | [] => none
      | _ :: s => (firstUnescaped s).map (· + 2)
    else (firstUnescaped s).map (· + 1)

theorem firstUnescaped_plain {c : UInt8} (hquote : c ≠ '\''.toUInt8) (hback : c ≠ '\\'.toUInt8)
    (s : List UInt8) : firstUnescaped (c :: s) = (firstUnescaped s).map (· + 1) := by
  rw [firstUnescaped.eq_def]
  simp only [hback, hquote, if_false]

theorem firstUnescaped_escape (c : UInt8) (s : List UInt8) :
    firstUnescaped ('\\'.toUInt8 :: c :: s) = (firstUnescaped s).map (· + 2) := by
  rw [firstUnescaped, if_neg (by decide), if_pos rfl]

/-! ## Pieces -/

/-- The text `out` stands for `bytes`, whatever follows, and holds no closing quote. -/
structure Piece (L : Locale) (out bytes : List UInt8) : Prop where
  decodes : ∀ rest, ansicstrLoop L 0 false (out ++ rest) =
    (bytes ++ (ansicstrLoop L 0 false rest).1, (ansicstrLoop L 0 false rest).2)
  passes : ∀ rest, firstUnescaped (out ++ rest) = (firstUnescaped rest).map (· + out.length)

variable {L : Locale}

namespace Piece

theorem nil : Piece L [] [] := ⟨fun rest => rfl, fun rest => by simp⟩

theorem append {out₁ out₂ bytes₁ bytes₂ : List UInt8} (h₁ : Piece L out₁ bytes₁)
    (h₂ : Piece L out₂ bytes₂) : Piece L (out₁ ++ out₂) (bytes₁ ++ bytes₂) := by
  constructor
  · intro rest
    rw [List.append_assoc, h₁.decodes, h₂.decodes, List.append_assoc]
  · intro rest
    rw [List.append_assoc, h₁.passes, h₂.passes, Option.map_map, List.length_append]
    congr 1
    funext n
    simp only [Function.comp_apply]
    omega

/-- A character that is neither a backslash nor a quote. -/
theorem plain (hL : L.utf8locale = true ∨ L.mbCurMax = 1) {c : UInt8} (hback : c ≠ '\\'.toUInt8)
    (hquote : c ≠ '\''.toUInt8) : Piece L [c] [c] := by
  have hcopy : ∀ s, copyChar L c s = .put [c] 0 := by
    intro s
    refine if_neg ?_
    rintro ⟨hutf8, hmax, -⟩
    rcases hL with hL | hL
    · rw [hL] at hutf8
      cases hutf8
    · omega
  constructor
  · intro rest
    exact ansicstrLoop_copy hback (hcopy rest)
  · intro rest
    exact firstUnescaped_plain hquote hback rest

theorem plains (hL : L.utf8locale = true ∨ L.mbCurMax = 1) {cs : List UInt8}
    (hcs : ∀ c ∈ cs, c ≠ '\\'.toUInt8 ∧ c ≠ '\''.toUInt8) : Piece L cs cs := by
  induction cs with
  | nil => exact nil
  | cons c cs ih =>
    have hc := hcs c (by simp)
    exact (plain hL hc.1 hc.2).append (ih fun d hd => hcs d (List.mem_cons_of_mem _ hd))

/-- A backslash and `e`, which `ansicstr` reads as `c`. -/
theorem backslash {c e : UInt8} (h : ∀ s, escape L 0 false e s = .put [c] 0) :
    Piece L ['\\'.toUInt8, e] [c] := by
  constructor
  · intro rest
    exact ansicstrLoop_escape (h rest)
  · intro rest
    exact firstUnescaped_escape e rest

/-- The named escapes are read back. -/
theorem ofNamed {c e : UInt8} (h : named c = some e) : Piece L ['\\'.toUInt8, e] [c] := by
  apply backslash
  intro s
  unfold named at h
  split_ifs at h with h₁ h₂ h₃ h₄ h₅ h₆ h₇ h₈ h₉
  · cases h
    rw [h₁]
    rfl
  · cases h
    rw [h₂]
    rfl
  · cases h
    rw [h₃]
    rfl
  · cases h
    rw [h₄]
    rfl
  · cases h
    rw [h₅]
    rfl
  · cases h
    rw [h₆]
    rfl
  · cases h
    rw [h₇]
    rfl
  · cases h
    rw [h₈]
    rfl
  · cases h
    rcases h₉ with rfl | rfl <;> rfl

end Piece

/-! ## Octal escapes -/

theorem toNat_and_seven (x : UInt8) : (x &&& 7).toNat = x.toNat % 8 := by
  rw [UInt8.toNat_and]
  exact Nat.and_two_pow_sub_one_eq_mod x.toNat 3

theorem toNat_toChar (x : UInt8) : (toChar (x &&& 7)).toNat = x.toNat % 8 + 48 := by
  have h := toNat_and_seven x
  rw [toChar, UInt8.toNat_add, h]
  have hzero : '0'.toUInt8.toNat = 48 := rfl
  omega

theorem isOctal_toChar (x : UInt8) : isOctal (toChar (x &&& 7)) = true := by
  have h := toNat_toChar x
  have hzero : '0'.toUInt8.toNat = 48 := rfl
  have hseven : '7'.toUInt8.toNat = 55 := rfl
  rw [isOctal, Bool.and_eq_true, decide_eq_true_iff, decide_eq_true_iff, UInt8.le_iff_toNat_le,
    UInt8.le_iff_toNat_le]
  omega

theorem octValue_toChar (x : UInt8) : octValue (toChar (x &&& 7)) = x.toNat % 8 := by
  rw [octValue, toNat_toChar, Nat.add_sub_cancel]

/-- The three digits of a byte have the byte as their value. -/
theorem readDigits_octal (c : UInt8) :
    UInt8.ofNat (readDigits 8 octValue (octValue (toChar ((c >>> 6) &&& 7)))
      [toChar ((c >>> 3) &&& 7), toChar (c &&& 7)]) = c := by
  have hsix : (c >>> 6).toNat = c.toNat / 64 := by
    rw [UInt8.toNat_shiftRight, Nat.shiftRight_eq_div_pow]
    rfl
  have hthree : (c >>> 3).toNat = c.toNat / 8 := by
    rw [UInt8.toNat_shiftRight, Nat.shiftRight_eq_div_pow]
    rfl
  have hlt := c.toNat_lt
  simp only [readDigits, List.foldl_cons, List.foldl_nil, octValue_toChar, hsix, hthree]
  have hvalue : (c.toNat / 64 % 8 * 8 + c.toNat / 8 % 8) * 8 + c.toNat % 8 = c.toNat := by omega
  rw [hvalue, UInt8.ofNat_toNat]

/-- An octal digit is none of the letters that name an escape. -/
theorem escape_octal {d : UInt8} (hd : isOctal d = true) (sawc : Bool) (s : List UInt8) :
    escape L 0 sawc d s = .put [UInt8.ofNat (readDigits 8 octValue (octValue d)
      (digits isOctal 2 s))] (digits isOctal 2 s).length := by
  have hne : ∀ e : UInt8, isOctal e = false → d ≠ e := by
    rintro e he rfl
    rw [hd] at he
    cases he
  have hle : ¬(d = 'e'.toUInt8 ∨ d = 'E'.toUInt8) := by
    rintro (h | h)
    · exact hne _ rfl h
    · exact hne _ rfl h
  rw [escape, if_neg (hne _ rfl), if_neg (hne _ rfl), if_neg (hne _ rfl), if_neg hle,
    if_neg (hne _ rfl), if_neg (hne _ rfl), if_neg (hne _ rfl), if_neg (hne _ rfl), if_pos hd,
    if_neg (by simp)]
  simp only [Nat.zero_testBit, Bool.false_eq_true, false_and, if_false]
  exact if_neg (by simp)

theorem Piece.ofOctal (c : UInt8) : Piece L (octal c) [c] := by
  constructor
  · intro rest
    have hds : digits isOctal 2 (toChar ((c >>> 3) &&& 7) :: toChar (c &&& 7) :: rest) =
        [toChar ((c >>> 3) &&& 7), toChar (c &&& 7)] := by
      simp [digits, isOctal_toChar]
    have hesc := escape_octal (L := L) (isOctal_toChar (c >>> 6)) false
      (toChar ((c >>> 3) &&& 7) :: toChar (c &&& 7) :: rest)
    rw [hds, readDigits_octal] at hesc
    exact ansicstrLoop_escape hesc
  · intro rest
    have hpass : ∀ x : UInt8, toChar (x &&& 7) ≠ '\''.toUInt8 ∧ toChar (x &&& 7) ≠ '\\'.toUInt8 := by
      intro x
      have h := isOctal_toChar x
      constructor
      · intro heq
        rw [heq] at h
        cases h
      · intro heq
        rw [heq] at h
        cases h
    rw [octal, List.cons_append, List.cons_append, firstUnescaped_escape, List.cons_append,
      firstUnescaped_plain (hpass _).1 (hpass _).2, List.cons_append,
      firstUnescaped_plain (hpass _).1 (hpass _).2, Option.map_map, Option.map_map]
    rfl

/-! ## Quoted strings -/

theorem le_of_and_ne_zero {c : UInt8} (h : c &&& 0x80 ≠ 0) : 0x80 ≤ c := by
  rw [UInt8.le_iff_toNat_le]
  by_contra hlt
  apply h
  apply UInt8.toNat_inj.mp
  rw [UInt8.toNat_and]
  apply Nat.eq_of_testBit_eq
  intro i
  have hbit : c.toNat.testBit 7 = false := Nat.testBit_lt_two_pow (Nat.not_le.mp hlt)
  rw [Nat.testBit_and, show (0x80 : UInt8).toNat = 2 ^ 7 from rfl, Nat.testBit_two_pow]
  by_cases hi : 7 = i
  · rw [← hi, hbit]
    rfl
  · simp [hi]

theorem not_startsMultibyte (hL : L.IsC) (c : UInt8) : startsMultibyte L c = false := by
  simp [startsMultibyte, hL.utf8locale, hL.mbCurMax]

theorem ne_of_named_none {c : UInt8} (h : named c = none) :
    c ≠ '\\'.toUInt8 ∧ c ≠ '\''.toUInt8 := by
  constructor
  · rintro rfl
    cases h
  · rintro rfl
    cases h

/-- What `mbrtowc` reads begins with the character at `s`. -/
theorem Locale.IsUtf8.take_eq (hL : L.IsUtf8) (c : UInt8) (s : List UInt8) :
    ((c :: s) ++ [0]).take L.mbCurMax = c :: (s ++ [0]).take (L.mbCurMax - 1) := by
  obtain ⟨n, hn⟩ := Nat.exists_eq_add_of_lt hL.mbCurMax
  rw [hn]
  rfl

theorem Locale.IsUtf8.convert_ne_null (hL : L.IsUtf8) {c : UInt8} {s : List UInt8}
    (hc : 0x80 ≤ c) : (L.convert L.initial (c :: s)).1 ≠ .null := by
  rw [Locale.convert, hL.take_eq]
  exact hL.not_null c _ hc

/-- None of the bytes of a character that `ansic_quote` finds is a backslash or a quote. -/
theorem Locale.IsUtf8.convert (hL : L.IsUtf8) {c : UInt8} {s : List UInt8} {clen : Nat}
    {wc : UInt32} {state : L.State} (hc : 0x80 ≤ c)
    (h : L.convert L.initial (c :: s) = (.char clen wc, state)) :
    0 < clen ∧ (∀ b ∈ (c :: s).take clen, b ≠ '\\'.toUInt8 ∧ b ≠ '\''.toUInt8) ∧
      state = L.initial := by
  have hread := hL.take_eq c s
  rw [Locale.convert, hread] at h
  obtain ⟨hpos, hle, hbytes, hstate⟩ := hL.char c _ clen wc state hc h
  refine ⟨hpos, fun b hb => ?_, hstate⟩
  have hmem : b ∈ (c :: (s ++ [0]).take (L.mbCurMax - 1)).take clen := by
    have hlen : clen ≤ L.mbCurMax := by
      rw [← hread] at hle
      exact Nat.le_trans hle (List.length_take_le _ _)
    rw [← hread, List.take_take, Nat.min_eq_left hlen, List.take_append]
    exact List.mem_append_left _ hb
  have hhigh := hbytes b hmem
  constructor
  · rintro rfl
    exact absurd hhigh (by decide)
  · rintro rfl
    exact absurd hhigh (by decide)

/-- The body of a quoted string stands for the string. -/
theorem piece_body (hL : L.IsC ∨ L.IsUtf8) (s : List UInt8) :
    Piece L (ansicQuoteLoop L L.initial s) s := by
  have hplain : L.utf8locale = true ∨ L.mbCurMax = 1 := by
    rcases hL with hL | hL
    · exact Or.inr hL.mbCurMax
    · exact Or.inl hL.utf8locale
  induction hn : s.length using Nat.strongRecOn generalizing s with
  | ind n ih =>
    cases s with
    | nil =>
      rw [ansicQuoteLoop]
      exact Piece.nil
    | cons c s =>
      rw [List.length_cons] at hn
      have hrest := ih s.length (by omega) s rfl
      rw [ansicQuoteLoop]
      cases hnamed : named c with
      | some e => exact (Piece.ofNamed hnamed).append hrest
      | none =>
        have hc := ne_of_named_none hnamed
        simp only
        split
        · rename_i hstarts
          rcases hL with hL | hL
          · rw [not_startsMultibyte hL] at hstarts
            cases hstarts
          · have hhigh : 0x80 ≤ c := by
              apply le_of_and_ne_zero
              simpa [startsMultibyte, hL.utf8locale] using hstarts
            split
            · -- the null character is no byte of the string
              rename_i hnull
              exact absurd (congrArg Prod.fst hnull) (hL.convert_ne_null hhigh)
            · exact (Piece.ofOctal c).append hrest
            · rename_i clen wc state hchar
              obtain ⟨hpos, hbytes, rfl⟩ := hL.convert hhigh hchar
              split
              · have hlen : (s.drop (clen - 1)).length < n := by
                  rw [List.length_drop]
                  omega
                have happ := (Piece.plains hplain hbytes).append (ih _ hlen _ rfl)
                obtain ⟨k, rfl⟩ := Nat.exists_eq_add_of_lt hpos
                simpa using happ
              · exact (Piece.ofOctal c).append hrest
        · split
          · exact (Piece.plain hplain hc.1 hc.2).append hrest
          · exact (Piece.ofOctal c).append hrest

/-- **ANSI-C quoting round-trips.** The text behind `$'`, without its last character,
decodes to the string, and that last character is the first single quote of the text that
is not escaped. -/
theorem ansicQuote_roundTrip (hL : L.IsC ∨ L.IsUtf8) (s : List UInt8) (hs : s ≠ []) :
    ∃ body, ansicQuote L s = some (['$'.toUInt8, '\''.toUInt8] ++ body ++ ['\''.toUInt8]) ∧
      ansicstr L body 0 false = some (s, false) ∧
      firstUnescaped (body ++ ['\''.toUInt8]) = some body.length := by
  have hpiece := piece_body hL s
  refine ⟨ansicQuoteLoop L L.initial s, if_neg hs, ?_, ?_⟩
  · have hdecodes := hpiece.decodes []
    rw [List.append_nil, ansicstrLoop, List.append_nil] at hdecodes
    rw [ansicstr, if_neg, hdecodes]
    intro hnil
    rw [hnil, ansicstrLoop] at hdecodes
    exact hs (congrArg Prod.fst hdecodes).symm
  · rw [hpiece.passes, firstUnescaped, if_pos rfl]
    simp

/-! ## A UTF-8 locale -/

/-- The bytes behind the first byte `c` of a character. -/
def trailing (c : UInt8) : Nat := if c < 0xe0 then 1 else if c < 0xf0 then 2 else 3

/-- The code point of the first byte `c` and the bytes `cs` behind it. -/
def codePoint (c : UInt8) (cs : List UInt8) : Nat :=
  cs.foldl (fun w b => w * 64 + b.toNat % 64) (c.toNat % Nat.pow 2 (6 - trailing c))

/-- The code points that take `n` bytes behind the first one. -/
def ofLength (n wc : Nat) : Bool :=
  (n = 1 && 0x80 ≤ wc) || (n = 2 && 0x800 ≤ wc && !(0xd800 ≤ wc && wc < 0xe000)) ||
    (n = 3 && 0x10000 ≤ wc && wc < 0x110000)

/-- `mbrtowc` in a UTF-8 locale. -/
def utf8Mbrtowc : List UInt8 → Conversion
  | [] => .invalid
  | c :: s =>
    let cs := s.take (trailing c)
    if c = 0 then .null
    else if c < 0x80 then .char 1 (UInt32.ofNat c.toNat)
    else if 0xc0 ≤ c ∧ c < 0xf8 ∧ cs.length = trailing c ∧
        (cs.all fun b => 0x80 ≤ b && b < 0xc0) = true ∧
        ofLength (trailing c) (codePoint c cs) = true then
      .char (trailing c + 1) (UInt32.ofNat (codePoint c cs))
    else .invalid

/-- A UTF-8 locale in which the code points `iswprint` are printed. -/
def Locale.utf8 (iswprint : UInt32 → Bool) : Locale where
  utf8locale := true
  mbCurMax := 6
  State := Unit
  initial := ()
  mbrtowc state s := (utf8Mbrtowc s, state)
  iswprint := iswprint
  isprint c := 0x20 ≤ c && c < 0x7f
  isBasic c := c < 0x80
  toupper c := if 'a'.toUInt8 ≤ c ∧ c ≤ 'z'.toUInt8 then c - 32 else c
  u32cconv := fun _ => []

theorem Locale.isUtf8_utf8 (iswprint : UInt32 → Bool) : (Locale.utf8 iswprint).IsUtf8 := by
  have hlow : ∀ c : UInt8, 0x80 ≤ c → ¬c = 0 ∧ ¬c < 0x80 := by
    intro c hc
    refine ⟨?_, UInt8.not_lt.mpr hc⟩
    rintro rfl
    exact absurd hc (by decide)
  refine ⟨rfl, show 1 < 6 by decide, fun c s hc => ?_, fun c s clen wc state hc h => ?_⟩
  · simp only [Locale.utf8, utf8Mbrtowc, if_neg (hlow c hc).1, if_neg (hlow c hc).2]
    split
    · exact Conversion.noConfusion
    · exact Conversion.noConfusion
  · simp only [Locale.utf8, utf8Mbrtowc, if_neg (hlow c hc).1, if_neg (hlow c hc).2] at h
    split at h
    · rename_i hchar
      obtain ⟨-, -, hlen, hbytes, -⟩ := hchar
      cases h
      rw [List.length_take] at hlen
      refine ⟨Nat.succ_pos _, ?_, fun b hb => ?_, rfl⟩
      · rw [List.length_cons]
        omega
      · rw [List.take_succ_cons] at hb
        rcases List.mem_cons.mp hb with rfl | hb
        · exact hc
        · have hb' := List.all_eq_true.mp hbytes b hb
          rw [Bool.and_eq_true, decide_eq_true_iff] at hb'
          exact hb'.1
    · cases h

/-- An ESC before a digit, a quote, U+00E9, U+0085 and a character that is cut off. -/
theorem ansicQuote_roundTrip_utf8 : ∃ body,
    ansicQuote (Locale.utf8 fun wc => 0xa0 ≤ wc) [0x1b, 0x31, 0x27, 0x01, 0x37, 0xc3, 0xa9, 0xc2,
      0x85, 0xe2, 0x82] = some (['$'.toUInt8, '\''.toUInt8] ++ body ++ ['\''.toUInt8]) ∧
    ansicstr (Locale.utf8 fun wc => 0xa0 ≤ wc) body 0 false = some ([0x1b, 0x31, 0x27, 0x01, 0x37,
      0xc3, 0xa9, 0xc2, 0x85, 0xe2, 0x82], false) ∧
    firstUnescaped (body ++ ['\''.toUInt8]) = some body.length :=
  ansicQuote_roundTrip (Or.inr (Locale.isUtf8_utf8 _)) _ (List.cons_ne_nil _ _)

end Basht.Quoting
