import Basht.Display.Console

/-!
# The built-in tag

`make_tag` stops before its buffer is full, and cuts every field to the room that is left.
A template whose text fits is rendered whole (`renderTag_eq`), and the tag of the built-in
template fits the records of `basht_display_line` with room for a whole line
(`builtinTag_length_le`).
-/

namespace Basht.Display

open Basht.Filter

/-! ## Templates that fit -/

/-- The text of the escape `\e`, uncut. -/
def fieldText (ts : Ident) (lineno : Int32) (e : UInt8) : List UInt8 :=
  if e = 'n'.toUInt8 then ts.name
  else if e = 'i'.toUInt8 then decimal ts.id.toInt ++ if ts.mark ≠ 0 then [ts.mark] else []
  else if e = 't'.toUInt8 then decimal ts.pid.toInt
  else if e = 'l'.toUInt8 then decimal lineno.toInt
  else if e = '\\'.toUInt8 then ['\\'.toUInt8]
  else ['\\'.toUInt8, e]

/-- The text of a template, uncut. -/
def templateText (ts : Ident) (lineno : Int32) : List UInt8 → List UInt8
  | [] => []
  | [f] => [f]
  | f :: e :: fmt =>
    if f = '\\'.toUInt8 then fieldText ts lineno e ++ templateText ts lineno fmt
    else f :: templateText ts lineno (e :: fmt)

theorem snprintf_of_lt {size : Nat} {s : List UInt8} (h : s.length < size) : snprintf size s = s :=
  if_pos h

theorem tagField_of_lt {ts : Ident} {lineno : Int32} {e : UInt8} {room : Nat}
    (h : (fieldText ts lineno e).length < room) :
    tagField ts lineno e room = fieldText ts lineno e := by
  unfold tagField fieldText at *
  split_ifs at h ⊢ <;> first | rfl | exact snprintf_of_lt h

/-- A template that fits is rendered whole. -/
theorem renderTag_eq {cap : Nat} (ts : Ident) (lineno : Int32) (fmt out : List UInt8)
    (h : out.length + (templateText ts lineno fmt).length + 2 < cap) :
    renderTag cap ts lineno fmt out = out ++ templateText ts lineno fmt := by
  induction fmt, out using renderTag.induct cap ts lineno with
  | case1 out => simp [renderTag, templateText]
  | case2 f out hroom => simp [renderTag, templateText, hroom]
  | case3 f out hfull =>
    simp only [templateText, List.length_singleton] at h
    omega
  | case4 e fmt out hroom ih =>
    simp only [templateText, if_true, List.length_append] at h
    have hfield : tagField ts lineno e (cap - out.length - 2) = fieldText ts lineno e :=
      tagField_of_lt (by omega)
    simp only [hfield] at ih
    have hout : (out ++ fieldText ts lineno e).length
        = out.length + (fieldText ts lineno e).length := List.length_append
    simp only [renderTag, templateText, hroom, if_true, hfield]
    rw [ih (by omega), List.append_assoc]
  | case5 f e fmt out hroom hf ih =>
    simp only [templateText, hf, if_false, List.length_cons] at h
    have hout : (out ++ [f]).length = out.length + 1 := by simp
    simp only [renderTag, templateText, hroom, hf, if_true, if_false]
    rw [ih (by omega), List.append_assoc, List.singleton_append]
  | case6 f e fmt out hfull => omega

/-! ## The built-in template -/

/-- `[name:id:pid:line]` and a space, with the mark of the stream behind its id. -/
def builtinTag (ts : Ident) (lineno : Int32) : List UInt8 :=
  '['.toUInt8 :: ts.name ++ ':'.toUInt8 ::
    (decimal ts.id.toInt ++ if ts.mark ≠ 0 then [ts.mark] else []) ++ ':'.toUInt8 ::
    decimal ts.pid.toInt ++ ':'.toUInt8 :: decimal lineno.toInt ++ [']'.toUInt8, 32]

theorem templateText_builtin (ts : Ident) (lineno : Int32) :
    templateText ts lineno builtinTagfmt ++ [32] = builtinTag ts lineno := by
  have htext : templateText ts lineno builtinTagfmt = '['.toUInt8 :: (ts.name ++ ':'.toUInt8 ::
      ((decimal ts.id.toInt ++ if ts.mark ≠ 0 then [ts.mark] else []) ++ ':'.toUInt8 ::
        (decimal ts.pid.toInt ++ ':'.toUInt8 :: (decimal lineno.toInt ++ [']'.toUInt8])))) := rfl
  rw [htext, builtinTag]
  simp only [List.cons_append, List.append_assoc, List.nil_append]

theorem decimal_length_le (n : Int32) : (decimal n.toInt).length ≤ 11 := by
  have hlt := n.toInt_lt
  have hle := n.le_toInt
  have hdigits : (Nat.toDigits 10 n.toInt.natAbs).length ≤ 10 :=
    (Nat.length_toDigits_le_iff (by omega) (by omega)).mpr (by omega)
  unfold decimal
  split
  · rw [List.length_cons, List.length_map]
    omega
  · rw [List.length_map]
    omega

theorem builtinTag_length_le (ts : Ident) (lineno : Int32) :
    (builtinTag ts lineno).length ≤ NAME_MAX + 41 := by
  have hname := ts.name_lt
  have hid := decimal_length_le ts.id
  have hpid := decimal_length_le ts.pid
  have hline := decimal_length_le lineno
  have hmark : (if ts.mark ≠ 0 then [ts.mark] else []).length ≤ 1 := by split <;> simp
  simp only [builtinTag, List.length_append, List.length_cons, List.length_nil]
  omega

theorem makeTag_builtin (ts : Ident) (lineno : Int32) :
    makeTag none sizeofOut ts lineno = .ok (builtinTag ts lineno) := by
  have hlen := builtinTag_length_le ts lineno
  have htext := congrArg List.length (templateText_builtin ts lineno)
  rw [List.length_append, List.length_singleton] at htext
  have hcap : NAME_MAX + 43 < sizeofOut := by decide
  have hrender : renderTag sizeofOut ts lineno builtinTagfmt [] =
      templateText ts lineno builtinTagfmt := by
    rw [renderTag_eq _ _ _ _ (by rw [List.length_nil]; omega), List.nil_append]
  have hne : templateText ts lineno builtinTagfmt ≠ [] := by
    rw [show builtinTagfmt = '['.toUInt8 :: '\\'.toUInt8 :: builtinTagfmt.drop 2 from rfl,
      templateText, if_neg (by decide)]
    exact List.cons_ne_nil _ _
  unfold makeTag
  rw [Option.getD_none, hrender]
  simp only [hne, if_false, templateText_builtin]
  rw [if_pos (by omega)]

namespace Console

variable {ι κ : Type} {c : Console ι κ} {s : ι}

/-- A line that fits a line buffer is displayed whole, and counted. -/
theorem displayLine_eq [DecidableEq κ] (hfmt : c.tagfmt = none) {text : Line}
    (htext : text.length ≤ CAP) :
    c.displayLine s text = .ok ({ c with counter := (c.countLine s).2, shown := 0, dirty := true },
      c.eraseBottom ++ [.line s (c.countLine s).1 text
        (builtinTag (c.stream s).toIdent (c.countLine s).1 ++ text ++ ['\n'.toUInt8])]) := by
  have hlen := builtinTag_length_le (c.stream s).toIdent (c.countLine s).1
  have hcap : NAME_MAX + 41 + CAP + 1 ≤ sizeofOut := by decide
  rw [displayLine, hfmt, makeTag_builtin]
  simp only
  rw [Nat.min_eq_left (by omega), List.take_length]

theorem bottomLine_eq (hfmt : c.tagfmt = none) :
    c.bottomLine s = .ok (builtinTag (c.stream s).toIdent (c.pendingNumber s),
      (c.stream s).lb.text) := by
  have hlen := builtinTag_length_le (c.stream s).toIdent (c.pendingNumber s)
  have hcap : NAME_MAX + 41 + CAP ≤ sizeofOut := by decide
  have hcells := (c.stream s).lb.data.length_cells
  have htake : (c.stream s).lb.data.upTo (min (c.stream s).lb.len
      (sizeofOut - (builtinTag (c.stream s).toIdent (c.pendingNumber s)).length))
        = (c.stream s).lb.text := List.take_eq_take_iff.mpr (by omega)
  simp only [bottomLine, hfmt, makeTag_builtin, htake]

end Console

end Basht.Display
