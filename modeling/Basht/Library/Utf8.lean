import Mathlib.Data.List.Basic

/-!
# Pieces of UTF-8 characters

A byte editor cuts characters. A `Piece` is what is left of a character at its front, and
`dropByte` takes the last byte of a sequence of them. The bytes of the pieces are valid UTF-8 if
and only if no character is cut (`valid_iff`): a byte that starts a character is told from one
that continues it, and no encoding is the front of another.
-/

namespace Basht.Utf8

/-- The bytes of a text. -/
def encode (t : List Char) : List UInt8 := t.flatMap String.utf8EncodeChar

/-- The bytes are those of a text. -/
def Valid (bs : List UInt8) : Prop := ∃ t, encode t = bs

theorem encode_cons (c : Char) (t : List Char) :
    encode (c :: t) = String.utf8EncodeChar c ++ encode t := List.flatMap_cons

/-- Some bytes at the front of a character. -/
structure Piece where
  char : Char
  kept : Nat
  pos : 0 < kept
  le : kept ≤ char.utf8Size

namespace Piece

def bytes (p : Piece) : List UInt8 := (String.utf8EncodeChar p.char).take p.kept

def whole (c : Char) : Piece := ⟨c, c.utf8Size, c.utf8Size_pos, Nat.le_refl _⟩

/-- Nothing of the character is missing. -/
def Whole (p : Piece) : Prop := p.kept = p.char.utf8Size

instance (p : Piece) : Decidable p.Whole := inferInstanceAs (Decidable (_ = _))

theorem length_bytes (p : Piece) : p.bytes.length = p.kept := by
  rw [bytes, List.length_take, String.length_utf8EncodeChar]
  exact Nat.min_eq_left p.le

theorem bytes_of_whole {p : Piece} (h : p.Whole) : p.bytes = String.utf8EncodeChar p.char := by
  rw [bytes, h]
  exact List.take_of_length_le (Nat.le_of_eq (String.length_utf8EncodeChar p.char))

theorem bytes_whole (c : Char) : (whole c).bytes = String.utf8EncodeChar c := bytes_of_whole rfl

end Piece

/-- The bytes of the pieces. -/
def bytesOf (ps : List Piece) : List UInt8 := ps.flatMap Piece.bytes

theorem bytesOf_cons (p : Piece) (ps : List Piece) : bytesOf (p :: ps) = p.bytes ++ bytesOf ps :=
  List.flatMap_cons

theorem bytesOf_append (ps qs : List Piece) : bytesOf (ps ++ qs) = bytesOf ps ++ bytesOf qs :=
  List.flatMap_append

/-- A piece without its last byte. -/
def Piece.dropLast (p : Piece) : List Piece :=
  if h : 1 < p.kept then
    [⟨p.char, p.kept - 1, Nat.sub_pos_of_lt h, Nat.le_trans (Nat.sub_le _ _) p.le⟩]
  else []

/-- The pieces without the last byte. -/
def dropByte : List Piece → List Piece
  | [] => []
  | [p] => p.dropLast
  | p :: q :: ps => p :: dropByte (q :: ps)

theorem Piece.bytesOf_dropLast (p : Piece) : bytesOf p.dropLast = p.bytes.dropLast := by
  unfold Piece.dropLast
  have hlength := p.length_bytes
  split
  · rw [bytesOf_cons, bytesOf, List.flatMap_nil, List.append_nil, List.dropLast_eq_take, hlength,
      Piece.bytes, Piece.bytes, List.take_take, Nat.min_eq_left (Nat.sub_le _ _)]
  · rename_i hkept
    have hone : p.bytes.length - 1 = 0 := by omega
    rw [List.dropLast_eq_take, hone]
    rfl

theorem bytes_ne_nil (p : Piece) : p.bytes ≠ [] := by
  intro hnil
  have hlength := p.length_bytes
  rw [hnil] at hlength
  exact absurd hlength (Nat.ne_of_lt p.pos)

theorem bytesOf_ne_nil (p : Piece) (ps : List Piece) : bytesOf (p :: ps) ≠ [] := by
  rw [bytesOf_cons]
  exact List.append_ne_nil_of_left_ne_nil (bytes_ne_nil p) _

theorem bytesOf_dropByte (ps : List Piece) : bytesOf (dropByte ps) = (bytesOf ps).dropLast := by
  induction ps with
  | nil => rfl
  | cons p ps ih =>
    cases ps with
    | nil =>
      rw [dropByte, p.bytesOf_dropLast, bytesOf_cons]
      exact congrArg List.dropLast (List.append_nil _).symm
    | cons q ps =>
      rw [dropByte, bytesOf_cons, ih, bytesOf_cons p,
        List.dropLast_append_of_ne_nil (bytesOf_ne_nil q ps)]

/-! ## Cut characters -/

/-- Which bytes of a character start one. -/
theorem starts_iff {c : Char} {i : Nat} {b : UInt8} (h : (String.utf8EncodeChar c)[i]? = some b) :
    b.IsUTF8FirstByte ↔ i = 0 := by
  obtain ⟨hi, hb⟩ := List.getElem?_eq_some_iff.mp h
  rw [← hb]
  exact UInt8.isUTF8FirstByte_getElem_utf8EncodeChar

/-- No character is the front of another. -/
theorem eq_of_append {c d : Char} {x : List UInt8}
    (h : String.utf8EncodeChar c = String.utf8EncodeChar d ++ x) : c = d := by
  have hc := ByteArray.utf8DecodeChar?_utf8EncodeChar_append (b := ByteArray.empty) (c := c)
  have hd := ByteArray.utf8DecodeChar?_utf8EncodeChar_append (b := x.toByteArray) (c := d)
  rw [h, List.toByteArray_append, ByteArray.append_empty, hd] at hc
  exact (Option.some.inj hc).symm

theorem first_bytesOf (q : Piece) (ps : List Piece) :
    (bytesOf (q :: ps))[0]? = (String.utf8EncodeChar q.char)[0]? := by
  have hlt : 0 < q.bytes.length := q.length_bytes.symm ▸ q.pos
  rw [bytesOf_cons, List.getElem?_append_left hlt, Piece.bytes, List.getElem?_take, if_pos q.pos]

/-- A character ends no later than the first piece: the next piece would start inside of it. -/
theorem size_le_kept {p : Piece} {ps : List Piece} {d : Char} {t : List Char}
    (h : bytesOf (p :: ps) = encode (d :: t)) : d.utf8Size ≤ p.kept := by
  rw [bytesOf_cons, encode_cons] at h
  have hlength := p.length_bytes
  have hsize := String.length_utf8EncodeChar d
  by_contra hlt
  have hin : p.kept < (String.utf8EncodeChar d).length := by omega
  obtain ⟨b, hb⟩ : ∃ b, (String.utf8EncodeChar d)[p.kept]? = some b :=
    ⟨_, List.getElem?_eq_getElem hin⟩
  have hcontinues : ¬b.IsUTF8FirstByte := fun hstart =>
    Nat.ne_of_gt p.pos ((starts_iff hb).mp hstart)
  have hright : (p.bytes ++ bytesOf ps)[p.kept]? = some b := by
    rw [h, List.getElem?_append_left hin, hb]
  rw [List.getElem?_append_right (Nat.le_of_eq hlength), hlength, Nat.sub_self] at hright
  cases ps with
  | nil => cases hright
  | cons q ps => exact hcontinues ((starts_iff (first_bytesOf q ps ▸ hright)).mpr rfl)

/-- The first piece of what is valid is a whole character, and the rest is valid. -/
theorem whole_of_encode {p : Piece} {ps : List Piece} {d : Char} {t : List Char}
    (h : bytesOf (p :: ps) = encode (d :: t)) : p.Whole ∧ bytesOf ps = encode t := by
  have hle := size_le_kept h
  rw [bytesOf_cons, encode_cons] at h
  have hsize := String.length_utf8EncodeChar d
  have hfront : (String.utf8EncodeChar p.char).take d.utf8Size = String.utf8EncodeChar d := by
    have htake := congrArg (List.take d.utf8Size) h
    rw [List.take_append_of_le_length (p.length_bytes.symm ▸ hle), Piece.bytes, List.take_take,
      Nat.min_eq_left hle, List.take_left' hsize] at htake
    exact htake
  have hchar : p.char = d := by
    apply eq_of_append (x := (String.utf8EncodeChar p.char).drop d.utf8Size)
    rw [← hfront, List.take_append_drop]
  have hwhole : p.Whole := Nat.le_antisymm p.le (hchar ▸ hle)
  rw [Piece.bytes_of_whole hwhole, hchar] at h
  exact ⟨hwhole, List.append_cancel_left h⟩

/-- Pieces are valid UTF-8 if and only if no character is cut. -/
theorem valid_iff {ps : List Piece} : Valid (bytesOf ps) ↔ ∀ p ∈ ps, p.Whole := by
  constructor
  · rintro ⟨t, ht⟩
    induction ps generalizing t with
    | nil => simp
    | cons p ps ih =>
      cases t with
      | nil => exact absurd ht.symm (bytesOf_ne_nil p ps)
      | cons d t =>
        obtain ⟨hwhole, hrest⟩ := whole_of_encode ht.symm
        exact List.forall_mem_cons.mpr ⟨hwhole, ih t hrest.symm⟩
  · intro hall
    refine ⟨ps.map Piece.char, ?_⟩
    induction ps with
    | nil => rfl
    | cons p ps ih =>
      obtain ⟨hwhole, hrest⟩ := List.forall_mem_cons.mp hall
      rw [List.map_cons, encode_cons, bytesOf_cons, Piece.bytes_of_whole hwhole, ih hrest]

theorem length_le_encode (t : List Char) : t.length ≤ (encode t).length := by
  induction t with
  | nil => exact Nat.le_refl _
  | cons c t ih =>
    have hpos := c.utf8Size_pos
    rw [encode_cons, List.length_append, String.length_utf8EncodeChar, List.length_cons]
    omega

/-- A text has as many bytes as characters if and only if it is ASCII. -/
theorem length_encode_eq_iff (t : List Char) :
    (encode t).length = t.length ↔ ∀ c ∈ t, c.utf8Size = 1 := by
  induction t with
  | nil => simp [encode]
  | cons c t ih =>
    have hpos := c.utf8Size_pos
    have hrest := length_le_encode t
    have hsplit : (encode (c :: t)).length = (c :: t).length ↔
        c.utf8Size = 1 ∧ (encode t).length = t.length := by
      rw [encode_cons, List.length_append, String.length_utf8EncodeChar, List.length_cons]
      omega
    have hall := List.forall_mem_cons (p := fun d => Char.utf8Size d = 1) (a := c) (l := t)
    exact hsplit.trans ((and_congr_right fun _ => ih).trans hall.symm)

end Basht.Utf8
