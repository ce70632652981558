import Basht.Display.Tag

/-!
# Stores behind a tag

Every store of `make_tag` and of `basht_display_line` into their record, for any template. The
loop of `make_tag` leaves two bytes, for a space and a NUL, behind all it renders, except that
an unknown escape is stored as two bytes where there may be room for one.
-/

namespace Basht.Display

open Basht.Filter

/-! ## Templates -/

/-- A piece of a template. -/
inductive TagItem where
  | char (c : UInt8)
  | escape (e : UInt8)

/-- The pieces of a template. -/
def tagItems : List UInt8 → List TagItem
  | [] => []
  | [f] => [.char f]
  | f :: e :: fmt =>
    if f = '\\'.toUInt8 then .escape e :: tagItems fmt else .char f :: tagItems (e :: fmt)

/-- The text of a piece, uncut. -/
def TagItem.text (ts : Ident) (lineno : Int32) : TagItem → List UInt8
  | .char c => [c]
  | .escape e => fieldText ts lineno e

/-- The escape `\e` is one of `PST1`. -/
def isField (e : UInt8) : Bool := e ∈ "nitl\\".toList.map Char.toUInt8

/-- Rendered behind `o` bytes, an unknown escape of the template starts three bytes before
`cap`. -/
def SplitsEscape (cap : Nat) (ts : Ident) (lineno : Int32) (o : Nat) (items : List TagItem) :
    Prop :=
  ∃ before e after, items = before ++ .escape e :: after ∧ isField e = false ∧
    o + (before.flatMap (TagItem.text ts lineno)).length + 3 = cap

/-! ## Stores -/

/-- `length` bytes stored at `offset`. -/
structure Store where
  offset : Nat
  length : Nat
deriving DecidableEq

/-- The store stays inside `cap` bytes. -/
def Store.Inside (cap : Nat) (s : Store) : Prop := s.offset + s.length ≤ cap

/-- The stores of the escape `\e` at the offset `o`, with `room` bytes left. `snprintf` stores
a NUL, too. -/
def fieldStores (ts : Ident) (lineno : Int32) (e : UInt8) (o room : Nat) : List Store :=
  if e = '\\'.toUInt8 then [⟨o, 1⟩]
  else if isField e then [⟨o, min ((fieldText ts lineno e).length + 1) room⟩]
  else [⟨o, 1⟩, ⟨o + 1, 1⟩]

/-- The stores of the loop of `make_tag`, behind the bytes `out`. -/
def renderStores (cap : Nat) (ts : Ident) (lineno : Int32) :
    List UInt8 → List UInt8 → List Store
  | [], _ => []
  | [_], out => if out.length + 2 < cap then [⟨out.length, 1⟩] else []
  | f :: e :: fmt, out =>
    if out.length + 2 < cap then
      if f = '\\'.toUInt8 then
        fieldStores ts lineno e out.length (cap - out.length - 2) ++
          renderStores cap ts lineno fmt (out ++ tagField ts lineno e (cap - out.length - 2))
      else ⟨out.length, 1⟩ :: renderStores cap ts lineno (e :: fmt) (out ++ [f])
    else []

/-- What `make_tag` returns. -/
def tagLength (tagfmt : Option (List UInt8)) (cap : Nat) (ts : Ident) (lineno : Int32) : Nat :=
  let o := (renderTag cap ts lineno (tagfmt.getD builtinTagfmt) []).length
  if o > 0 then o + 1 else o

/-- The stores of `make_tag`. -/
def makeTagStores (tagfmt : Option (List UInt8)) (cap : Nat) (ts : Ident) (lineno : Int32) :
    List Store :=
  let o := (renderTag cap ts lineno (tagfmt.getD builtinTagfmt) []).length
  renderStores cap ts lineno (tagfmt.getD builtinTagfmt) [] ++
    if o > 0 then [⟨o, 1⟩, ⟨o + 1, 1⟩] else [⟨o, 1⟩]

/-- The stores of `basht_display_line` behind a tag of `off` bytes, for a text of `len` bytes.
The room is a `size_t`. -/
def lineStores (off len : Nat) : List Store :=
  let room := (sizeofOut + 18446744073709551616 - off - 1) % 18446744073709551616
  [⟨off, min len room⟩, ⟨off + min len room, 1⟩]

/-- `make_tag` succeeds as it is modelled if what it returns is inside the buffer. -/
theorem makeTag_eq_ok {tagfmt : Option (List UInt8)} {cap : Nat} {ts : Ident} {lineno : Int32} :
    (∃ tag, makeTag tagfmt cap ts lineno = .ok tag ∧
      tag.length = tagLength tagfmt cap ts lineno) ↔ tagLength tagfmt cap ts lineno < cap := by
  unfold makeTag tagLength
  generalize renderTag cap ts lineno (tagfmt.getD builtinTagfmt) [] = out
  have hlen : (if out = [] then out else out ++ [32]).length =
      if out.length > 0 then out.length + 1 else out.length := by
    cases out with
    | nil => rfl
    | cons b out =>
      rw [if_neg (List.cons_ne_nil _ _), if_pos (List.length_pos_of_ne_nil (List.cons_ne_nil _ _)),
        List.length_append, List.length_singleton]
  simp only [← hlen]
  generalize (if out = [] then out else out ++ [32]) = tag
  split
  · rename_i hfits
    exact ⟨fun _ => hfits, fun _ => ⟨_, rfl, rfl⟩⟩
  · rename_i hfull
    constructor
    · intro htag
      obtain ⟨_, htag, -⟩ := htag
      cases htag
    · intro hfits
      exact absurd hfits hfull

/-! ## The loop -/

variable {cap : Nat} {ts : Ident} {lineno : Int32}

theorem length_snprintf {size : Nat} (h : 0 < size) (s : List UInt8) :
    (snprintf size s).length = min s.length size := by
  unfold snprintf
  split
  · omega
  · rw [List.length_append, List.length_take, List.length_singleton]
    omega

theorem isField_cases {e : UInt8} (h : isField e = true) :
    e = 'n'.toUInt8 ∨ e = 'i'.toUInt8 ∨ e = 't'.toUInt8 ∨ e = 'l'.toUInt8 ∨ e = '\\'.toUInt8 := by
  have hmem := of_decide_eq_true h
  rw [show "nitl\\".toList.map Char.toUInt8 = ['n'.toUInt8, 'i'.toUInt8, 't'.toUInt8,
    'l'.toUInt8, '\\'.toUInt8] from rfl] at hmem
  simpa only [List.mem_cons, List.not_mem_nil, or_false] using hmem

/-- A field is cut to the room that is left. -/
theorem length_tagField {e : UInt8} {room : Nat} (he : isField e = true) (hroom : 0 < room) :
    (tagField ts lineno e room).length = min (fieldText ts lineno e).length room := by
  rcases isField_cases he with rfl | rfl | rfl | rfl | rfl
  · exact length_snprintf hroom _
  · exact length_snprintf hroom _
  · exact length_snprintf hroom _
  · exact length_snprintf hroom _
  · exact (Nat.min_eq_left hroom).symm

/-- An unknown escape is not. -/
theorem tagField_unknown {e : UInt8} {room : Nat} (he : isField e = false) :
    tagField ts lineno e room = ['\\'.toUInt8, e] ∧
      fieldText ts lineno e = ['\\'.toUInt8, e] := by
  have hne : ∀ c : UInt8, isField c = true → e ≠ c := by
    intro c hc hec
    rw [hec, hc] at he
    cases he
  have hn := hne 'n'.toUInt8 (by decide)
  have hi := hne 'i'.toUInt8 (by decide)
  have ht := hne 't'.toUInt8 (by decide)
  have hl := hne 'l'.toUInt8 (by decide)
  have hb := hne '\\'.toUInt8 (by decide)
  constructor
  · rw [tagField, if_neg hn, if_neg hi, if_neg ht, if_neg hl, if_neg hb]
  · rw [fieldText, if_neg hn, if_neg hi, if_neg ht, if_neg hl, if_neg hb]

theorem fieldStores_inside {e : UInt8} {o : Nat} (h : o + 2 < cap) :
    ∀ s ∈ fieldStores ts lineno e o (cap - o - 2), s.Inside cap := by
  intro s hs
  unfold fieldStores at hs
  split_ifs at hs
  · rw [List.mem_singleton.mp hs]
    change o + 1 ≤ cap
    omega
  · rw [List.mem_singleton.mp hs]
    change o + min _ (cap - o - 2) ≤ cap
    omega
  · rcases List.mem_cons.mp hs with rfl | hs
    · change o + 1 ≤ cap
      omega
    · rw [List.mem_singleton.mp hs]
      change o + 1 + 1 ≤ cap
      omega

/-- The loop stays inside the buffer. -/
theorem renderStores_inside (fmt out : List UInt8) :
    ∀ s ∈ renderStores cap ts lineno fmt out, s.Inside cap := by
  induction fmt, out using renderTag.induct cap ts lineno with
  | case1 out =>
    intro s hs
    cases hs
  | case2 f out hroom =>
    intro s hs
    rw [renderStores, if_pos hroom] at hs
    rw [List.mem_singleton.mp hs]
    change out.length + 1 ≤ cap
    omega
  | case3 f out hfull =>
    intro s hs
    rw [renderStores, if_neg hfull] at hs
    cases hs
  | case4 e fmt out hroom ih =>
    intro s hs
    rw [renderStores, if_pos hroom, if_pos rfl] at hs
    rcases List.mem_append.mp hs with hs | hs
    · exact fieldStores_inside hroom s hs
    · exact ih s hs
  | case5 f e fmt out hroom hf ih =>
    intro s hs
    rw [renderStores, if_pos hroom, if_neg hf] at hs
    rcases List.mem_cons.mp hs with rfl | hs
    · change out.length + 1 ≤ cap
      omega
    · exact ih s hs
  | case6 f e fmt out hfull =>
    intro s hs
    rw [renderStores, if_neg hfull] at hs
    cases hs

theorem not_splitsEscape_nil (o : Nat) : ¬SplitsEscape cap ts lineno o [] := by
  intro h
  obtain ⟨before, e, after, hitems, -⟩ := h
  exact List.append_ne_nil_of_right_ne_nil before (List.cons_ne_nil _ _) hitems.symm

theorem splitsEscape_cons {o : Nat} {it : TagItem} {items : List TagItem} :
    SplitsEscape cap ts lineno o (it :: items) ↔
      (∃ e, it = .escape e ∧ isField e = false ∧ o + 3 = cap) ∨
        SplitsEscape cap ts lineno (o + (it.text ts lineno).length) items := by
  constructor
  · intro h
    obtain ⟨before, e, after, hitems, he, hlen⟩ := h
    cases before with
    | nil =>
      cases hitems
      exact Or.inl ⟨e, rfl, he, hlen⟩
    | cons b before =>
      cases hitems
      refine Or.inr ⟨before, e, after, rfl, he, ?_⟩
      rw [List.flatMap_cons, List.length_append] at hlen
      omega
  · intro h
    rcases h with ⟨e, rfl, he, hlen⟩ | ⟨before, e, after, rfl, he, hlen⟩
    · exact ⟨[], e, items, rfl, he, hlen⟩
    · refine ⟨it :: before, e, after, rfl, he, ?_⟩
      rw [List.flatMap_cons, List.length_append]
      omega

theorem SplitsEscape.le {o : Nat} {items : List TagItem}
    (h : SplitsEscape cap ts lineno o items) : o + 3 ≤ cap := by
  obtain ⟨before, e, after, -, -, hlen⟩ := h
  omega

theorem not_splitsEscape_char {o : Nat} (f : UInt8) :
    ¬SplitsEscape cap ts lineno o [.char f] := by
  intro h
  rcases splitsEscape_cons.mp h with ⟨e, he, -⟩ | hrest
  · cases he
  · exact not_splitsEscape_nil _ hrest

/-- An escape that is rendered leaves two bytes, unless it is unknown and starts where there
are only three. -/
theorem length_tagField_le {e : UInt8} {o : Nat} (h : o + 2 < cap)
    (he : isField e = true ∨ o + 3 < cap) :
    o + (tagField ts lineno e (cap - o - 2)).length + 2 ≤ cap := by
  cases hfield : isField e with
  | true =>
    rw [length_tagField hfield (by omega)]
    omega
  | false =>
    rw [(tagField_unknown hfield).1, List.length_cons, List.length_singleton]
    rcases he with he | he
    · rw [hfield] at he
      cases he
    · omega

/-- Cut or not, it makes no difference for the escapes behind it. -/
theorem splitsEscape_tagField {e : UInt8} {o : Nat} {items : List TagItem} (h : o + 2 < cap) :
    SplitsEscape cap ts lineno (o + (tagField ts lineno e (cap - o - 2)).length) items ↔
      SplitsEscape cap ts lineno (o + (fieldText ts lineno e).length) items := by
  cases hfield : isField e with
  | false =>
    obtain ⟨htag, htext⟩ := @tagField_unknown ts lineno e (cap - o - 2) hfield
    rw [htag, htext]
  | true =>
    rw [length_tagField hfield (by omega)]
    rcases Nat.le_total (fieldText ts lineno e).length (cap - o - 2) with hle | hge
    · rw [Nat.min_eq_left hle]
    · rw [Nat.min_eq_right hge]
      constructor
      · intro hsplit
        have hle := hsplit.le
        omega
      · intro hsplit
        have hle := hsplit.le
        omega

/-- The loop leaves two bytes, or one if an unknown escape starts where there are three. -/
theorem length_renderTag (fmt out : List UInt8) (h : out.length + 2 ≤ cap) :
    (renderTag cap ts lineno fmt out).length + 1 ≤ cap ∧
      ((renderTag cap ts lineno fmt out).length + 1 = cap ↔
        SplitsEscape cap ts lineno out.length (tagItems fmt)) := by
  induction fmt, out using renderTag.induct cap ts lineno with
  | case1 out =>
    rw [renderTag]
    exact ⟨by omega, iff_of_false (by omega) (not_splitsEscape_nil _)⟩
  | case2 f out hroom =>
    rw [renderTag, if_pos hroom, List.length_append, List.length_singleton]
    exact ⟨by omega, iff_of_false (by omega) (not_splitsEscape_char f)⟩
  | case3 f out hfull =>
    rw [renderTag, if_neg hfull]
    exact ⟨by omega, iff_of_false (by omega) (not_splitsEscape_char f)⟩
  | case4 e fmt out hroom ih =>
    rw [renderTag, if_pos hroom, if_pos rfl, tagItems, if_pos rfl, splitsEscape_cons]
    rw [List.length_append] at ih
    by_cases hunknown : isField e = false ∧ out.length + 3 = cap
    · -- the loop ends behind the escape
      obtain ⟨he, hthree⟩ := hunknown
      have hfull : renderTag cap ts lineno fmt
          (out ++ tagField ts lineno e (cap - out.length - 2)) = out ++ ['\\'.toUInt8, e] := by
        rw [(tagField_unknown he).1]
        have hstop : ¬(out ++ ['\\'.toUInt8, e]).length + 2 < cap := by
          rw [List.length_append, List.length_cons, List.length_singleton]
          omega
        rcases fmt with - | ⟨f, - | ⟨g, fmt⟩⟩
        · rfl
        · rw [renderTag, if_neg hstop]
        · rw [renderTag, if_neg hstop]
      rw [hfull, List.length_append, List.length_cons, List.length_singleton]
      exact ⟨by omega, iff_of_true (by omega) (Or.inl ⟨e, rfl, he, hthree⟩)⟩
    · have hknown : isField e = true ∨ out.length + 3 < cap := by
        rcases Bool.eq_false_or_eq_true (isField e) with he | he
        · exact Or.inl he
        · refine Or.inr (Nat.lt_of_le_of_ne hroom ?_)
          intro hthree
          exact hunknown ⟨he, hthree⟩
      obtain ⟨hle, hiff⟩ := ih (length_tagField_le hroom hknown)
      refine ⟨hle, hiff.trans ((splitsEscape_tagField hroom).trans ?_)⟩
      constructor
      · intro hrest
        exact Or.inr hrest
      · intro hsplit
        rcases hsplit with ⟨e', he', hunknown', hthree⟩ | hrest
        · cases he'
          exact absurd ⟨hunknown', hthree⟩ hunknown
        · exact hrest
  | case5 f e fmt out hroom hf ih =>
    rw [renderTag, if_pos hroom, if_neg hf, tagItems, if_neg hf, splitsEscape_cons]
    rw [List.length_append, List.length_singleton] at ih
    obtain ⟨hle, hiff⟩ := ih (by omega)
    refine ⟨hle, hiff.trans ?_⟩
    constructor
    · intro hrest
      exact Or.inr hrest
    · intro hsplit
      rcases hsplit with ⟨e', he', -⟩ | hrest
      · cases he'
      · exact hrest
  | case6 f e fmt out hfull =>
    rw [renderTag, if_neg hfull]
    refine ⟨by omega, iff_of_false (by omega) ?_⟩
    intro hsplit
    have hle := hsplit.le
    omega

/-! ## The tag and the line -/

/-- What `make_tag` returns is too large only behind such an escape. -/
theorem tagLength_lt_iff (hcap : 2 ≤ cap) (tagfmt : Option (List UInt8)) :
    tagLength tagfmt cap ts lineno < cap ↔
      ¬SplitsEscape cap ts lineno 0 (tagItems (tagfmt.getD builtinTagfmt)) := by
  obtain ⟨hle, hiff⟩ := @length_renderTag cap ts lineno (tagfmt.getD builtinTagfmt) [] hcap
  rw [← List.length_nil, ← hiff, tagLength]
  split
  · omega
  · omega

theorem makeTagStores_inside {tagfmt : Option (List UInt8)}
    (h : tagLength tagfmt cap ts lineno < cap) :
    ∀ s ∈ makeTagStores tagfmt cap ts lineno, s.Inside cap := by
  intro s hs
  rcases List.mem_append.mp hs with hs | hs
  · exact renderStores_inside _ _ s hs
  · unfold tagLength at h
    split at hs
    · rename_i hpos
      rw [if_pos hpos] at h
      rcases List.mem_cons.mp hs with rfl | hs
      · exact Nat.le_of_lt h
      · rw [List.mem_singleton.mp hs]
        exact h
    · rename_i hzero
      rw [if_neg hzero] at h
      rw [List.mem_singleton.mp hs]
      exact h

/-- Behind a tag that fits, a line is cut to the room that is left. -/
theorem lineStores_inside {off : Nat} (h : off < sizeofOut) (len : Nat) :
    ∀ s ∈ lineStores off len, s.Inside sizeofOut := by
  have hsize : sizeofOut = 8320 := by decide
  have hroom : (sizeofOut + 18446744073709551616 - off - 1) % 18446744073709551616 =
      sizeofOut - off - 1 := by omega
  intro s hs
  rw [lineStores, hroom] at hs
  rcases List.mem_cons.mp hs with rfl | hs
  · change off + min len (sizeofOut - off - 1) ≤ sizeofOut
    omega
  · rw [List.mem_singleton.mp hs]
    change off + min len (sizeofOut - off - 1) + 1 ≤ sizeofOut
    omega

/-- `make_tag` and `basht_display_line` stay inside their record exactly if the template, on
this stream and with this number, has no unknown escape that starts three bytes before the
end. -/
theorem stores_inside_iff (tagfmt : Option (List UInt8)) (ts : Ident) (lineno : Int32) :
    ((∀ s ∈ makeTagStores tagfmt sizeofOut ts lineno, s.Inside sizeofOut) ∧
        tagLength tagfmt sizeofOut ts lineno < sizeofOut ∧
        ∀ text : Line, text.length ≤ CAP →
          ∀ s ∈ lineStores (tagLength tagfmt sizeofOut ts lineno) text.length,
            s.Inside sizeofOut) ↔
      ¬SplitsEscape sizeofOut ts lineno 0 (tagItems (tagfmt.getD builtinTagfmt)) := by
  have hcap : 2 ≤ sizeofOut := by decide
  rw [← tagLength_lt_iff hcap]
  constructor
  · intro h
    exact h.2.1
  · intro h
    exact ⟨makeTagStores_inside h, h, fun text _ => lineStores_inside h text.length⟩

theorem tagItems_replicate (n : Nat) (e : UInt8) :
    tagItems (List.replicate n 'x'.toUInt8 ++ ['\\'.toUInt8, e]) =
      List.replicate n (.char 'x'.toUInt8) ++ [.escape e] := by
  induction n with
  | zero => rfl
  | succ n ih =>
    have hcons : List.replicate (n + 1) 'x'.toUInt8 ++ ['\\'.toUInt8, e] =
        'x'.toUInt8 :: (List.replicate n 'x'.toUInt8 ++ ['\\'.toUInt8, e]) := rfl
    rw [hcons, List.replicate_succ, List.cons_append, ← ih]
    cases n with
    | zero => rfl
    | succ n => exact if_neg (by decide)

/-- Behind such an escape the NUL is stored behind the record. -/
theorem tagLength_of_splitsEscape {tagfmt : Option (List UInt8)} (hcap : 2 ≤ cap)
    (h : SplitsEscape cap ts lineno 0 (tagItems (tagfmt.getD builtinTagfmt))) :
    tagLength tagfmt cap ts lineno = cap ∧ ⟨cap, 1⟩ ∈ makeTagStores tagfmt cap ts lineno := by
  obtain ⟨-, hiff⟩ := @length_renderTag cap ts lineno (tagfmt.getD builtinTagfmt) [] hcap
  have hlen := hiff.mpr h
  have hpos : (renderTag cap ts lineno (tagfmt.getD builtinTagfmt) []).length > 0 := by omega
  constructor
  · rw [tagLength, if_pos hpos, hlen]
  · apply List.mem_append_right
    rw [if_pos hpos, hlen]
    exact List.mem_cons_of_mem _ List.mem_cons_self

/-- 8317 letters and `\q`: the NUL behind the tag is stored behind the record, and so is a line
of one byte. -/
theorem long_template_overflows :
    tagLength (some (List.replicate 8317 'x'.toUInt8 ++ ['\\'.toUInt8, 'q'.toUInt8])) sizeofOut
        .unnamed 0 = sizeofOut ∧
      ¬(∀ s ∈ makeTagStores
          (some (List.replicate 8317 'x'.toUInt8 ++ ['\\'.toUInt8, 'q'.toUInt8])) sizeofOut
          .unnamed 0, s.Inside sizeofOut) ∧
      ¬(∀ s ∈ lineStores sizeofOut 1, s.Inside sizeofOut) := by
  have hsplit : SplitsEscape sizeofOut .unnamed 0 0
      (tagItems (List.replicate 8317 'x'.toUInt8 ++ ['\\'.toUInt8, 'q'.toUInt8])) := by
    refine ⟨List.replicate 8317 (.char 'x'.toUInt8), 'q'.toUInt8, [], tagItems_replicate _ _,
      by decide, ?_⟩
    rw [List.length_flatMap, List.map_replicate, List.sum_replicate_nat]
    rfl
  have hcap : 2 ≤ sizeofOut := by decide
  obtain ⟨hlength, hstore⟩ := @tagLength_of_splitsEscape sizeofOut .unnamed 0
    (some (List.replicate 8317 'x'.toUInt8 ++ ['\\'.toUInt8, 'q'.toUInt8])) hcap hsplit
  refine ⟨hlength, ?_, ?_⟩
  · intro hinside
    exact absurd (hinside _ hstore) (Nat.not_succ_le_self _)
  · intro hinside
    have hfirst := hinside ⟨sizeofOut, 1⟩ List.mem_cons_self
    exact absurd hfirst (Nat.not_succ_le_self _)

end Basht.Display
