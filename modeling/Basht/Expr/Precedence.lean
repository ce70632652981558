import Basht.Expr.Tokens

/-!
# The precedence of the operators

Each function of the evaluator reads what is printed as an operand of its group of the table and
leaves the tokens behind it (`Reaches`), evaluated or not. For the groups that associate to the
left, the loop of the function is followed from the leftmost operand on (`Follows`).
-/

namespace Basht.Expr

open Fallible

variable {L : Locale}

/-! ## Powers -/

/-- The power in 64-bit arithmetic. -/
def wrapPow (base : Int64) (n : Nat) : Int64 := Int64.ofInt (base.toInt ^ n)

theorem wrapPow_zero (base : Int64) : wrapPow base 0 = 1 := by
  rw [wrapPow, pow_zero]
  rfl

theorem wrapPow_succ (base : Int64) (n : Nat) :
    wrapPow base (n + 1) = base * wrapPow base n := by
  rw [wrapPow, pow_succ', Int64.ofInt_mul, Int64.ofInt_toInt, wrapPow]

theorem wrapPow_mul_self (base : Int64) (n : Nat) :
    wrapPow (base * base) n = wrapPow base (2 * n) := by
  induction n with
  | zero => rw [wrapPow_zero, Nat.mul_zero, wrapPow_zero]
  | succ n ih => rw [wrapPow_succ, ih, Nat.mul_succ, wrapPow_succ, wrapPow_succ, Int64.mul_assoc]

theorem shiftRight_one {e : Nat} (he : e < 2 ^ 63) :
    Int64.ofNat e >>> 1 = Int64.ofNat (e / 2) := by
  have hone : ((1 : Int64).toBitVec.smod 64).toNat = 1 := by decide
  have hmsb : (BitVec.ofNat 64 e).msb = false := by
    rw [BitVec.msb_eq_false_iff_two_mul_lt, BitVec.toNat_ofNat]
    omega
  rw [← Int64.toBitVec_inj, Int64.toBitVec_shiftRight, Int64.toBitVec_ofNat',
    Int64.toBitVec_ofNat', BitVec.sshiftRight', hone, BitVec.sshiftRight_eq_of_msb_false hmsb]
  apply BitVec.eq_of_toNat_eq
  rw [BitVec.toNat_ushiftRight, BitVec.toNat_ofNat, BitVec.toNat_ofNat, Nat.shiftRight_one]
  omega

theorem and_one_eq_zero (e : Nat) : Int64.ofNat e &&& 1 = 0 ↔ e % 2 = 0 := by
  have hone : (1 : Int64).toBitVec = BitVec.ofNat 64 1 := rfl
  have hzero : (0 : Int64).toBitVec = BitVec.ofNat 64 0 := rfl
  rw [← Int64.toBitVec_inj, Int64.toBitVec_and, Int64.toBitVec_ofNat', hone, hzero,
    ← BitVec.toNat_inj, BitVec.toNat_and, BitVec.toNat_ofNat, BitVec.toNat_ofNat,
    BitVec.toNat_ofNat]
  change e % 2 ^ 64 &&& 1 = 0 ↔ _
  rw [Nat.and_one_is_mod]
  omega

theorem ofNat_eq_zero {e : Nat} (he : e < 2 ^ 63) : Int64.ofNat e = 0 ↔ e = 0 := by
  rw [← Int64.toInt_inj, Int64.toInt_ofNat_of_lt he]
  exact Int.natCast_eq_zero

/-- Squaring and multiplying gives the power. -/
theorem ipow_eq (n : Nat) (base result : Int64) {e : Nat} (he : e < 2 ^ n) (he' : e < 2 ^ 63) :
    ipow n base (Int64.ofNat e) result = result * wrapPow base e := by
  induction n generalizing base result e with
  | zero =>
    rw [Nat.lt_one_iff.mp he, wrapPow_zero, Int64.mul_one]
    rfl
  | succ n ih =>
    rw [ipow]
    by_cases hzero : e = 0
    · rw [if_pos ((ofNat_eq_zero he').mpr hzero), hzero, wrapPow_zero, Int64.mul_one]
    · have hhalf : e / 2 < 2 ^ n := by
        rw [Nat.pow_succ] at he
        omega
      rw [if_neg fun h => hzero ((ofNat_eq_zero he').mp h), shiftRight_one he',
        ih _ _ hhalf (by omega), wrapPow_mul_self]
      by_cases heven : e % 2 = 0
      · rw [if_pos ((and_one_eq_zero e).mpr heven),
          Nat.mul_div_cancel' (Nat.dvd_of_mod_eq_zero heven)]
      · have hodd : e = 2 * (e / 2) + 1 := by omega
        rw [if_neg fun h => heven ((and_one_eq_zero e).mp h)]
        conv_rhs => rw [hodd, wrapPow_succ]
        rw [Int64.mul_assoc]

theorem ipow_of_nonneg (base w : Int64) (hw : ¬w < 0) :
    ipow 64 base w 1 = wrapPow base w.toInt.toNat := by
  have hnonneg : 0 ≤ w.toInt := by
    rw [← not_lt]
    exact fun h => hw (Int64.lt_iff_toInt_lt.mpr h)
  have hlt : w.toInt.toNat < 2 ^ 63 := by
    have := w.toInt_lt
    omega
  have hofNat : Int64.ofNat w.toInt.toNat = w := by
    rw [← Int64.toInt_inj, Int64.toInt_ofNat_of_lt hlt, Int.toNat_of_nonneg hnonneg]
  have h := ipow_eq 64 base 1 (Nat.lt_trans hlt (by decide)) hlt
  rw [hofNat, Int64.one_mul] at h
  exact h

/-! ## Printed trees are legible -/

/-- The tokens of an operand. -/
structure Phrase (ts : List (Tok L)) : Prop where
  legible : Legible ts
  opens : ∀ t ∈ ts.head?, t.Opens
  closes : ∀ t ∈ ts.getLast?, t.Closes
  ne : ts ≠ []

/-- An operand behind a token that does not end one. -/
theorem Phrase.legible_cons {us : List (Tok L)} {t : Token} (h : Phrase us) (ht : t ∈ symbols)
    (hparen : t ≠ .op 0x29) : Legible (.op t :: us) where
  known := List.forall_mem_cons.mpr ⟨ht, h.legible.known⟩
  adjacent := List.isChain_cons.mpr
    ⟨fun u hu => Or.inr ⟨hparen, h.opens u hu⟩, h.legible.adjacent⟩

/-- An operand in front of a token. -/
theorem Phrase.legible_append {ts us : List (Tok L)} {t : Token} (h : Phrase ts)
    (h' : Legible (.op t :: us)) : Legible (ts ++ .op t :: us) where
  known := List.forall_mem_append.mpr ⟨h.legible.known, h'.known⟩
  adjacent := List.isChain_append.mpr ⟨h.legible.adjacent, h'.adjacent, fun x hx y hy =>
    Or.inl ⟨h.closes x hx, fun c hc => by cases hy; cases hc⟩⟩

theorem Phrase.join {ts us : List (Tok L)} {t : Token} (h : Phrase ts) (h' : Phrase us)
    (ht : t ∈ symbols) (hparen : t ≠ .op 0x29) : Phrase (ts ++ .op t :: us) where
  legible := h.legible_append (h'.legible_cons ht hparen)
  opens := by
    rw [List.head?_append_of_ne_nil ts h.ne]
    exact h.opens
  closes := by
    rw [List.getLast?_append_cons, List.getLast?_cons_of_ne_nil h'.ne]
    exact h'.closes
  ne := List.append_ne_nil_of_left_ne_nil h.ne _

theorem Phrase.behind {us : List (Tok L)} {t : Token} (h : Phrase us) (ht : t ∈ symbols)
    (hopens : t ∈ openers) (hparen : t ≠ .op 0x29) : Phrase (.op t :: us) where
  legible := h.legible_cons ht hparen
  opens := fun u hu => Option.some.inj hu ▸ hopens
  closes := by
    rw [List.getLast?_cons_of_ne_nil h.ne]
    exact h.closes
  ne := List.cons_ne_nil _ us

theorem Phrase.parens {us : List (Tok L)} (h : Phrase us) :
    Phrase (.op (.op 0x28) :: (us ++ [.op (.op 0x29)])) := by
  have hl : Token.op 0x28 ∈ symbols ∧ Token.op 0x28 ∈ openers ∧ Token.op 0x28 ≠ .op 0x29 := by
    decide
  have hr : Token.op 0x29 ∈ symbols := by decide
  have hrparen : Legible ([.op (.op 0x29)] : List (Tok L)) :=
    ⟨List.forall_mem_singleton.mpr hr, List.isChain_singleton _⟩
  have happend := h.legible_append hrparen
  refine ⟨⟨List.forall_mem_cons.mpr ⟨hl.1, happend.known⟩, List.isChain_cons.mpr
    ⟨fun u hu => Or.inr ⟨hl.2.2, ?_⟩, happend.adjacent⟩⟩, ?_, ?_, List.cons_ne_nil _ _⟩
  · rw [List.head?_append_of_ne_nil us h.ne] at hu
    exact h.opens u hu
  · exact fun u hu => Option.some.inj hu ▸ hl.2.1
  · rw [List.getLast?_cons_of_ne_nil (List.append_ne_nil_of_right_ne_nil us
      (List.cons_ne_nil _ _)), List.getLast?_concat]
    intro u hu
    rw [← Option.some.inj hu]
    rfl

theorem Prints.phrase {k : Nat} {e : Tree L} {ts : List (Tok L)} (h : Prints k e ts) :
    Phrase ts := by
  induction h with
  | const c =>
    exact ⟨⟨List.forall_mem_singleton.mpr trivial, List.isChain_singleton _⟩,
      fun u hu => Option.some.inj hu ▸ trivial, fun u hu => Option.some.inj hu ▸ trivial,
      List.cons_ne_nil _ _⟩
  | @unary _ op _ _ _ _ ih =>
    have hop : op.token ∈ symbols ∧ op.token ∈ openers ∧ op.token ≠ .op 0x29 := by
      cases op <;> decide
    exact ih.behind hop.1 hop.2.1 hop.2.2
  | @binary _ op _ _ _ _ _ _ _ ih ih' =>
    exact ih.join ih' (by cases op <;> decide) (by cases op <;> decide)
  | cond _ _ _ _ ih ih' ih'' =>
    exact ih.join (ih'.join ih'' (by decide) (by decide)) (by decide) (by decide)
  | paren _ ih => exact ih.parens

/-! ## The functions by group -/

/-- The group of a token as an operator between operands. -/
def Token.group : Token → Option Nat
  | .power => some 13
  | .lsh | .rsh => some 10
  | .leq | .geq => some 9
  | .eqeq | .neq => some 8
  | .land => some 4
  | .lor => some 3
  | .op c =>
    if c = 0x2a ∨ c = 0x2f ∨ c = 0x25 then some 12
    else if c = 0x2b ∨ c = 0x2d then some 11
    else if c = 0x3c ∨ c = 0x3e then some 9
    else if c = 0x26 then some 7
    else if c = 0x5e then some 6
    else if c = 0x7c then some 5
    else if c = 0x3f then some 2
    else if c = 0x2c then some 0
    else none
  | .eof | .num | .opAssign | .cond | .preinc | .predec => none

variable (L) in
/-- The function that reads operands of a group. -/
def level (lowest : St → Except Stop Value) (n : Nat) : Nat → St → Except Stop Value
  | 0 => fun st => expassign L lowest n st >>= commaLoop L (expassign L lowest n) n
  | 1 => expassign L lowest n
  | 2 => expcond L lowest n
  | 3 => explor L lowest n
  | 4 => expland L lowest n
  | 5 => expbor L lowest n
  | 6 => expbxor L lowest n
  | 7 => expband L lowest n
  | 8 => expeq L lowest n
  | 9 => expcompare L lowest n
  | 10 => expshift L lowest n
  | 11 => expaddsub L lowest n
  | 12 => expmuldiv L lowest n
  | 13 => exppower L lowest n
  | _ => expunary L lowest n

/-- The operators of the groups whose loop is `leftLoop`. -/
def applyOf : Nat → Token → Option (Int64 → Int64 → Int64)
  | 5, tok => if tok = .op 0x7c then some fun v w => v ||| w else none
  | 6, tok => if tok = .op 0x5e then some fun v w => v ^^^ w else none
  | 7, tok => if tok = .op 0x26 then some fun v w => v &&& w else none
  | 8, tok =>
    if tok = .eqeq then some fun v w => truth (v == w)
    else if tok = .neq then some fun v w => truth (v != w)
    else none
  | 9, tok =>
    if tok = .leq then some fun v w => truth (v ≤ w)
    else if tok = .geq then some fun v w => truth (v ≥ w)
    else if tok = .op 0x3c then some fun v w => truth (v < w)
    else if tok = .op 0x3e then some fun v w => truth (v > w)
    else none
  | 10, tok =>
    if tok = .lsh then some fun v w => v <<< w
    else if tok = .rsh then some fun v w => v >>> w
    else none
  | 11, tok =>
    if tok = .op 0x2b then some fun v w => v + w
    else if tok = .op 0x2d then some fun v w => v - w
    else none
  | _, _ => none

variable (L) in
/-- The loop of a group that associates to the left, with the fuel `m`. -/
def loop (lowest : St → Except Stop Value) (n : Nat) : Nat → Nat → Value → Except Stop Value
  | 0, m => commaLoop L (level L lowest n 1) m
  | 3, m => logicalLoop L (level L lowest n 4) .lor (fun v => v != 0)
      (fun v w => v != 0 || w != 0) m
  | 4, m => logicalLoop L (level L lowest n 5) .land (fun v => v == 0)
      (fun v w => v != 0 && w != 0) m
  | 12, m => muldivLoop L (level L lowest n 13) m
  | j, m => leftLoop L (level L lowest n (j + 1)) (applyOf j) m

/-- The groups that associate to the left. -/
def Left (j : Nat) : Prop := j ≤ 12 ∧ j ≠ 1 ∧ j ≠ 2

theorem level_eq {j : Nat} (hj : Left j) (lowest : St → Except Stop Value) (n : Nat) (st : St) :
    level L lowest n j st = level L lowest n (j + 1) st >>= loop L lowest n j n := by
  obtain ⟨hle, hne, hne'⟩ := hj
  interval_cases j
  · rfl
  · exact absurd rfl hne
  · exact absurd rfl hne'
  all_goals rfl

/-! ## What the functions return -/

/-- The error that is reported. -/
def Fault.stop : Fault → Stop
  | .divisionByZero => .evalerror "division by 0"
  | .negativeExponent => .evalerror "exponent less than 0"

/-- A value of the tree `e`, with the tokens `us` left, or the fault of `e`; where nothing is
evaluated, any value. -/
inductive Computes (e : Tree L) (us : List (Tok L)) (k : Nat) : Except Stop Value → Prop
  | value {v : Int64} {st : St} : (k = 0 → e.eval = .ok v) → Reads st us k →
    Computes e us k (.ok (v, st))
  | fault {f : Fault} : k = 0 → e.eval = .error f → Computes e us k (.error f.stop)

/-- No operator of the group `j` or above follows. -/
def Ends (j : Nat) (us : List (Tok L)) : Prop :=
  ∀ t ∈ us.head?, ∃ s, t = .op s ∧ ∀ g ∈ s.group, g < j

theorem Ends.mono {i j : Nat} {us : List (Tok L)} (h : Ends i us) (hij : i ≤ j) : Ends j us := by
  intro t ht
  obtain ⟨s, hs, hgroup⟩ := h t ht
  exact ⟨s, hs, fun g hg => Nat.lt_of_lt_of_le (hgroup g hg) hij⟩

theorem ends_op {j : Nat} {s : Token} (h : ∀ g ∈ s.group, g < j) (us : List (Tok L)) :
    Ends j (.op s :: us) :=
  fun _ ht => ⟨s, (Option.some.inj ht).symm, h⟩

/-- The function of group `j` reads `e`, where it is written with the tokens `ts`. -/
def Reaches (j : Nat) (e : Tree L) (ts : List (Tok L)) : Prop :=
  ∀ m n us st k, ts.length ≤ m → ts.length < n → Reads st (ts ++ us) k → Ends j us →
    Computes e us k (level L (expcomma L m) n j st)

/-- The function of group `j` gets to its loop with the value of `e`. -/
def Follows (j : Nat) (e : Tree L) (ts : List (Tok L)) : Prop :=
  ∀ m n us st k, ts.length ≤ m → ts.length < n → Reads st (ts ++ us) k → Ends (j + 1) us →
    ∃ r n', Computes e us k r ∧ n ≤ n' + ts.length ∧
      level L (expcomma L m) n j st = r >>= loop L (expcomma L m) n j n'

theorem Follows.of_reaches {j : Nat} (hj : Left j) {e : Tree L} {ts : List (Tok L)}
    (h : Reaches (j + 1) e ts) : Follows j e ts := fun m n us st k hm hn hreads hends =>
  ⟨_, n, h m n us st k hm hn hreads hends, Nat.le_add_right n _, level_eq hj _ n st⟩

/-- The token before which a state stands. -/
theorem Reads.curtok {st : St} {us : List (Tok L)} {k j : Nat} (h : Reads st us k)
    (hends : Ends j us) :
    st.curtok ∈ Token.eof :: symbols ∧ ∀ g ∈ st.curtok.group, g < j := by
  cases us with
  | nil =>
    have hcur : st.curtok = .eof := h.current
    rw [hcur]
    exact ⟨List.mem_cons_self, fun g hg => by cases hg⟩
  | cons t us =>
    obtain ⟨s, rfl, hgroup⟩ := hends t rfl
    rw [h.current.1]
    exact ⟨List.mem_cons_of_mem _ (h.legible.known _ List.mem_cons_self), hgroup⟩

/-- The loop of a group ends where no operator of the group follows. -/
theorem loop_stop {j : Nat} (hj : Left j) (lowest : St → Except Stop Value) (n m : Nat)
    (v : Int64) {st : St} (hst : st.curtok ∈ Token.eof :: symbols)
    (hgroup : ∀ g ∈ st.curtok.group, g < j) :
    loop L lowest n j (m + 1) (v, st) = .ok (v, st) := by
  have hne : ∀ t : Token, t.group = some j → st.curtok ≠ t := fun t ht h =>
    Nat.lt_irrefl j (hgroup j (h ▸ ht))
  have hnone : applyOf j st.curtok = none := by
    have hall : ∀ j ≤ 11, ∀ t ∈ Token.eof :: symbols, (∀ g ∈ t.group, g < j) →
        (applyOf j t).isNone = true := by decide +kernel
    by_cases hle : j ≤ 11
    · exact Option.isNone_iff_eq_none.mp (hall j hle _ hst hgroup)
    · obtain rfl : j = 12 := Nat.le_antisymm hj.1 (by omega)
      rfl
  obtain ⟨hle, hne₁, hne₂⟩ := hj
  interval_cases j
  · exact if_neg (hne (.op 0x2c) rfl)
  · exact absurd rfl hne₁
  · exact absurd rfl hne₂
  · exact if_neg (hne .lor rfl)
  · exact if_neg (hne .land rfl)
  all_goals
    first
      | exact if_neg fun h => h.elim (hne (.op 0x2a) rfl) fun h =>
          h.elim (hne (.op 0x2f) rfl) (hne (.op 0x25) rfl)
      | simp only [loop, leftLoop, hnone]

theorem Reaches.of_follows {j : Nat} (hj : Left j) {e : Tree L} {ts : List (Tok L)}
    (h : Follows j e ts) : Reaches j e ts := by
  intro m n us st k hm hn hreads hends
  obtain ⟨r, n', hr, hn', hlevel⟩ := h m n us st k hm hn hreads (hends.mono (Nat.le_succ j))
  rw [hlevel]
  cases hr with
  | fault hk he => exact .fault hk he
  | @value v st' he hst' =>
    obtain ⟨m', rfl⟩ : ∃ m', n' = m' + 1 := Nat.exists_eq_add_one_of_ne_zero (by omega)
    obtain ⟨hcur, hgroup⟩ := hst'.curtok hends
    rw [ok_bind, loop_stop hj _ n m' v hcur hgroup]
    exact .value he hst'

/-- The value of an operator applied to `v` and `w`, with the tokens `us` left, or its fault. -/
inductive Applies (op : BinOp) (v w : Int64) (us : List (Tok L)) (k : Nat) :
    Except Stop Value → Prop
  | value {x : Int64} {st : St} : (k = 0 → op.apply v w = .ok x) → Reads st us k →
    Applies op v w us k (.ok (x, st))
  | fault {f : Fault} : k = 0 → op.apply v w = .error f → Applies op v w us k (.error f.stop)

/-- What a loop makes of a right operand that is evaluated as far as the left one is. -/
theorem Computes.bind {a b : Tree L} {op : BinOp} {us : List (Tok L)} {k : Nat} {v : Int64}
    {r : Except Stop Value} (hr : Computes b us k r) (hv : k = 0 → a.eval = .ok v)
    (hstops : op.stops v = false) {g : Value → Except Stop Value}
    (hg : ∀ w st, Reads st us k → Applies op v w us k (g (w, st))) :
    Computes (.binary op a b) us k (r >>= g) := by
  have heval : k = 0 → (Tree.binary op a b).eval = b.eval >>= fun w => op.apply v w := by
    intro hk
    rw [Tree.eval, hv hk, ok_bind, hstops, if_neg Bool.false_ne_true]
  cases hr with
  | @fault f hk hf =>
    refine .fault hk ?_
    rw [heval hk, hf]
    rfl
  | @value w st hw hst =>
    have happlies := hg w st hst
    rw [ok_bind]
    generalize g (w, st) = r' at happlies ⊢
    cases happlies with
    | value hx hst' =>
      refine .value (fun hk => ?_) hst'
      rw [heval hk, hw hk, ok_bind, hx hk]
    | fault hk hf =>
      refine .fault hk ?_
      rw [heval hk, hw hk, ok_bind, hf]

theorem noInc_num : NoInc .num := ⟨by decide, by decide⟩

section

variable {op : BinOp} {next : St → Except Stop Value} {m k : Nat} {a b : Tree L}
  {ts us : List (Tok L)} {v : Int64} {st : St}

theorem leftLoop_step {apply : Token → Option (Int64 → Int64 → Int64)} {f : Int64 → Int64 → Int64}
    (happly : apply op.token = some f) (heval : ∀ w, op.apply v w = .ok (f v w))
    (hstops : op.stops v = false) (hv : k = 0 → a.eval = .ok v)
    (hst : Reads st (.op op.token :: ts) k)
    (hb : ∀ st' k', Reads st' ts k' → Computes b us k' (next st')) :
    ∃ r, Computes (.binary op a b) us k r ∧
      leftLoop L next apply (m + 1) (v, st) = r >>= leftLoop L next apply m := by
  obtain ⟨st', hread, hst'⟩ := hst.next
  have hcur : st.curtok = op.token := hst.current.1
  refine ⟨next st' >>= fun r => .ok (f v r.1, { r.2 with lasttok := .num }),
    (hb st' k hst').bind hv hstops fun w st'' hst'' =>
      .value (fun _ => heval w) (hst''.withLasttok noInc_num), ?_⟩
  simp only [leftLoop, hcur, happly, hread, ok_bind]
  cases next st' with
  | error e => rfl
  | ok r => rfl

/-- What `expmuldiv` makes of the operands `v` and `r.1` of `tok`. -/
def muldivStep (tok : Token) (v : Int64) (r : Value) : Except Stop Value :=
  if (tok = .op 0x2f ∨ tok = .op 0x25) ∧ r.1 = 0 ∧ r.2.noeval = 0 then
    .error (.evalerror "division by 0")
  else if tok = .op 0x25 ∧ v = intmaxMin ∧ r.1 = -1 then .ok (0, r.2)
  else
    let w :=
      if (tok = .op 0x2f ∨ tok = .op 0x25) ∧ r.1 = 0 then 1
      else if tok = .op 0x2f ∧ v = intmaxMin ∧ r.1 = -1 then 1
      else r.1
    .ok (if tok = .op 0x2a then v * w else if tok = .op 0x2f then v / w else v % w,
      { r.2 with lasttok := .num })

theorem muldivLoop_eq {tok : Token} {st' : St}
    (htok : tok = .op 0x2a ∨ tok = .op 0x2f ∨ tok = .op 0x25) (hcur : st.curtok = tok)
    (hread : readtok L st = .ok st') :
    muldivLoop L next (m + 1) (v, st) =
      (next st' >>= muldivStep tok v) >>= muldivLoop L next m := by
  simp only [muldivLoop, hcur, if_pos htok, hread, ok_bind]
  cases next st' with
  | error e => rfl
  | ok r =>
    rw [ok_bind, ok_bind]
    unfold muldivStep
    split
    · rfl
    · split
      · rfl
      · rfl

theorem muldivStep_mul (v w : Int64) (st : St) :
    muldivStep (.op 0x2a) v (w, st) = .ok (v * w, { st with lasttok := .num }) := by
  have hne : Token.op 0x2a ≠ .op 0x2f ∧ Token.op 0x2a ≠ .op 0x25 := by decide
  have hor : ¬(Token.op 0x2a = .op 0x2f ∨ Token.op 0x2a = .op 0x25) :=
    fun h => h.elim hne.1 hne.2
  simp only [muldivStep, if_neg fun h : _ ∧ _ => hor h.1, if_neg fun h : _ ∧ _ => hne.1 h.1,
    if_neg fun h : _ ∧ _ => hne.2 h.1, if_true]

/-- A `1` stands for a zero by which nothing is divided, and for the `-1` with which the quotient
would be too large. -/
theorem muldivStep_div (v w : Int64) (st : St) :
    muldivStep (.op 0x2f) v (w, st) =
      if w = 0 ∧ st.noeval = 0 then .error (.evalerror "division by 0")
      else .ok (if w = 0 then v / 1 else v / w, { st with lasttok := .num }) := by
  have hne : Token.op 0x2f ≠ .op 0x25 ∧ Token.op 0x2f ≠ .op 0x2a := by decide
  have hmin : intmaxMin / 1 = intmaxMin / -1 := by decide
  simp only [muldivStep, true_or, true_and, hne.1, hne.2, false_and, if_false, if_true]
  by_cases hw : w = 0
  · simp only [hw, if_true]
  · simp only [hw, false_and, if_false]
    by_cases hlarge : v = intmaxMin ∧ w = -1
    · rw [if_pos hlarge, hlarge.1, hlarge.2, hmin]
    · rw [if_neg hlarge]

theorem muldivStep_mod (v w : Int64) (st : St) :
    muldivStep (.op 0x25) v (w, st) =
      if w = 0 ∧ st.noeval = 0 then .error (.evalerror "division by 0")
      else .ok (if w = 0 then v % 1 else v % w,
        { st with lasttok := if v = intmaxMin ∧ w = -1 then st.lasttok else .num }) := by
  have hne : Token.op 0x25 ≠ .op 0x2f ∧ Token.op 0x25 ≠ .op 0x2a := by decide
  have hmin : intmaxMin % -1 = 0 := by decide
  have hzero : (-1 : Int64) ≠ 0 := by decide
  simp only [muldivStep, or_true, true_and, hne.1, hne.2, false_and, if_false]
  by_cases hlarge : v = intmaxMin ∧ w = -1
  · rw [if_pos hlarge, if_pos hlarge, hlarge.1, hlarge.2, if_neg hzero, hmin]
  · rw [if_neg hlarge, if_neg hlarge]
    by_cases hw : w = 0
    · simp only [hw, if_true]
    · simp only [hw, if_false]

theorem applies_muldiv (hop : op = .mul ∨ op = .div ∨ op = .mod) (w : Int64)
    (hst : Reads st us k) : Applies op v w us k (muldivStep op.token v (w, st)) := by
  have hevaluated : ¬(w = 0 ∧ st.noeval = 0) → k = 0 → w ≠ 0 :=
    fun h hk hw => h ⟨hw, hst.noeval.trans hk⟩
  rcases hop with rfl | rfl | rfl
  · rw [BinOp.token, muldivStep_mul]
    exact .value (fun _ => rfl) (hst.withLasttok noInc_num)
  · rw [BinOp.token, muldivStep_div]
    split
    · next h => exact .fault (f := .divisionByZero) (hst.noeval.symm.trans h.2) (if_pos h.1)
    · next h =>
      refine .value (fun hk => ?_) (hst.withLasttok noInc_num)
      rw [BinOp.apply, if_neg (hevaluated h hk), if_neg (hevaluated h hk)]
  · rw [BinOp.token, muldivStep_mod]
    split
    · next h => exact .fault (f := .divisionByZero) (hst.noeval.symm.trans h.2) (if_pos h.1)
    · next h =>
      refine .value (fun hk => ?_) (hst.withLasttok ?_)
      · rw [BinOp.apply, if_neg (hevaluated h hk), if_neg (hevaluated h hk)]
      · split
        · exact hst.lasttok
        · exact noInc_num

theorem muldivLoop_step (hop : op = .mul ∨ op = .div ∨ op = .mod) (hv : k = 0 → a.eval = .ok v)
    (hst : Reads st (.op op.token :: ts) k)
    (hb : ∀ st' k', Reads st' ts k' → Computes b us k' (next st')) :
    ∃ r, Computes (.binary op a b) us k r ∧
      muldivLoop L next (m + 1) (v, st) = r >>= muldivLoop L next m := by
  obtain ⟨st', hread, hst'⟩ := hst.next
  have htok : op.token = .op 0x2a ∨ op.token = .op 0x2f ∨ op.token = .op 0x25 := by
    rcases hop with rfl | rfl | rfl <;> decide
  have hstops : op.stops v = false := by
    rcases hop with rfl | rfl | rfl <;> rfl
  exact ⟨_, (hb st' k hst').bind hv hstops fun w st'' hst'' => applies_muldiv hop w hst'',
    muldivLoop_eq htok hst.current.1 hread⟩

/-- A right operand that is not evaluated leaves the value to the left one. -/
theorem logicalLoop_step {stops : Int64 → Bool} {apply : Int64 → Int64 → Bool}
    (hop : ∀ v, op.stops v = stops v)
    (happly : ∀ v w, op.apply v w = .ok (truth (apply v w)))
    (hstops : ∀ v w, stops v = true → apply v w = apply v 0) (htoken : NoInc op.token)
    (hv : k = 0 → a.eval = .ok v) (hst : Reads st (.op op.token :: ts) k)
    (hb : ∀ st' k', Reads st' ts k' → Computes b us k' (next st')) :
    ∃ r, Computes (.binary op a b) us k r ∧
      logicalLoop L next op.token stops apply (m + 1) (v, st) =
        r >>= logicalLoop L next op.token stops apply m := by
  have heval : k = 0 → (Tree.binary op a b).eval =
      if stops v = true then .ok (truth (apply v 0)) else
        b.eval >>= fun w => .ok (truth (apply v w)) := by
    intro hk
    rw [Tree.eval, hv hk, ok_bind, hop, happly]
    simp only [happly]
  have hcur : st.curtok = op.token := hst.current.1
  obtain ⟨j, hj⟩ : ∃ j, j = if stops v then 1 else 0 := ⟨_, rfl⟩
  obtain ⟨st', hread, hst'⟩ := (hst.withNoeval (congrArg (· + j) hst.noeval)).next
  refine ⟨next st' >>= fun r => .ok (truth (apply v r.1),
    { r.2 with noeval := r.2.noeval - j, lasttok := op.token }), ?_, ?_⟩
  · have hright := hb st' (k + j) hst'
    generalize next st' = r at hright ⊢
    cases hright with
    | @value w st'' hw hst'' =>
      have hnoeval : st''.noeval - j = k := by rw [hst''.noeval, Nat.add_sub_cancel]
      refine .value (fun hk => ?_) ((hst''.withNoeval hnoeval).withLasttok htoken)
      rw [heval hk]
      by_cases hs : stops v = true
      · rw [if_pos hs, hstops v w hs]
      · rw [if_neg hs, hw (by rw [hk, hj, if_neg hs]), ok_bind]
    | @fault f hk hf =>
      have hs : ¬stops v = true := fun hs => by rw [hj, if_pos hs] at hk; omega
      refine .fault (Nat.eq_zero_of_add_eq_zero_right hk) ?_
      rw [heval (Nat.eq_zero_of_add_eq_zero_right hk), if_neg hs, hf]
      rfl
  · rw [logicalLoop, if_pos hcur, ← hj]
    dsimp only
    rw [hread, ok_bind]
    cases next st' with
    | error e => rfl
    | ok r => rfl


theorem commaLoop_step (hv : k = 0 → a.eval = .ok v) (hst : Reads st (.op (.op 0x2c) :: ts) k)
    (hb : ∀ st' k', Reads st' ts k' → Computes b us k' (next st')) :
    ∃ r, Computes (.binary .comma a b) us k r ∧
      commaLoop L next (m + 1) (v, st) = r >>= commaLoop L next m := by
  obtain ⟨st', hread, hst'⟩ := hst.next
  have hcur : st.curtok = .op 0x2c := hst.current.1
  refine ⟨next st' >>= .ok, (hb st' k hst').bind hv rfl fun w st'' hst'' =>
    .value (fun _ => rfl) hst'', ?_⟩
  rw [commaLoop, if_pos hcur, hread, ok_bind]
  cases next st' with
  | error e => rfl
  | ok r => rfl

end

/-- One turn of the loop of a group. -/
theorem loop_step {op : BinOp} (hop : op ≠ .pow) {lowest : St → Except Stop Value} {n m k : Nat}
    {a b : Tree L} {ts us : List (Tok L)} {v : Int64} {st : St} (hv : k = 0 → a.eval = .ok v)
    (hst : Reads st (.op op.token :: ts) k)
    (hb : ∀ st' k', Reads st' ts k' → Computes b us k' (level L lowest n (op.prec + 1) st')) :
    ∃ r, Computes (.binary op a b) us k r ∧
      loop L lowest n op.prec (m + 1) (v, st) = r >>= loop L lowest n op.prec m := by
  cases op with
  | pow => exact absurd rfl hop
  | mul => exact muldivLoop_step (.inl rfl) hv hst hb
  | div => exact muldivLoop_step (.inr (.inl rfl)) hv hst hb
  | mod => exact muldivLoop_step (.inr (.inr rfl)) hv hst hb
  | land =>
    refine logicalLoop_step (fun _ => rfl) (fun _ _ => rfl) (fun v w hs => ?_)
      ⟨by decide, by decide⟩ hv hst hb
    have hzero : (v == 0) = true := hs
    rw [bne, hzero]
    rfl
  | lor =>
    refine logicalLoop_step (fun _ => rfl) (fun _ _ => rfl) (fun v w hs => ?_)
      ⟨by decide, by decide⟩ hv hst hb
    have hnonzero : (v != 0) = true := hs
    rw [hnonzero, Bool.true_or, Bool.true_or]
  | comma => exact commaLoop_step hv hst hb
  | add | sub | shl | shr | le | ge | lt | gt | eq | ne | band | bxor | bor =>
    exact leftLoop_step rfl (fun _ => rfl) rfl hv hst hb

theorem Follows.binary {op : BinOp} (hop : op ≠ .pow) (hj : Left op.prec) {a b : Tree L}
    {ts us : List (Tok L)} (ha : Follows op.prec a ts) (hb : Reaches (op.prec + 1) b us) :
    Follows op.prec (.binary op a b) (ts ++ .op op.token :: us) := by
  intro m n ws st k hm hn hreads hends
  rw [List.length_append, List.length_cons] at hm hn
  rw [List.append_assoc, List.cons_append] at hreads
  have hgroup : ∀ g ∈ op.token.group, g < op.prec + 1 := by
    cases op <;> decide
  obtain ⟨r, n', hr, hn', hlevel⟩ := ha m n _ st k (by omega) (by omega) hreads
    (ends_op hgroup _)
  rw [hlevel]
  cases hr with
  | @fault f hk he =>
    refine ⟨.error f.stop, n', .fault hk ?_, ?_, rfl⟩
    · rw [Tree.eval, he]
      rfl
    · rw [List.length_append]
      omega
  | @value v st' he hst' =>
    obtain ⟨m', rfl⟩ : ∃ m', n' = m' + 1 := Nat.exists_eq_add_one_of_ne_zero (by omega)
    obtain ⟨r, hr, hloop⟩ := loop_step (m := m') hop he hst' fun st'' k' hst'' =>
      hb m n ws st'' k' (by omega) (by omega) hst'' hends
    refine ⟨r, m', hr, ?_, hloop⟩
    rw [List.length_append, List.length_cons]
    omega

/-! ## Assignments and the conditional operator -/

theorem Reads.curtok_ne {st : St} {us : List (Tok L)} {k j : Nat} (h : Reads st us k)
    (hends : Ends j us) {t : Token} (ht : t ∉ Token.eof :: symbols ∨ t.group = some j) :
    st.curtok ≠ t := by
  obtain ⟨hcur, hgroup⟩ := h.curtok hends
  rintro rfl
  rcases ht with ht | ht
  · exact ht hcur
  · exact Nat.lt_irrefl j (hgroup j ht)

/-- Nothing is assigned. -/
theorem Reaches.assign {e : Tree L} {ts : List (Tok L)} (h : Reaches 2 e ts) :
    Reaches 1 e ts := by
  intro m n us st k hm hn hreads hends
  have hr := h m n us st k hm hn hreads (hends.mono (by decide))
  have hlevel : level L (expcomma L m) n 1 st = level L (expcomma L m) n 2 st >>= fun r =>
      if r.2.curtok = .op 0x3d ∨ r.2.curtok = .opAssign then
        .error (.evalerror "attempted assignment to non-variable")
      else .ok r := rfl
  rw [hlevel]
  generalize level L (expcomma L m) n 2 st = r at hr ⊢
  cases hr with
  | fault hk he => exact .fault hk he
  | @value v st' he hst' =>
    have hequal : st'.curtok ≠ .op 0x3d := hst'.curtok_ne hends (.inl (by decide))
    have hassign : st'.curtok ≠ .opAssign := hst'.curtok_ne hends (.inl (by decide))
    rw [ok_bind, if_neg fun h => h.elim hequal hassign]
    exact .value he hst'

theorem Reaches.cond_of_lor {e : Tree L} {ts : List (Tok L)} (h : Reaches 3 e ts) :
    Reaches 2 e ts := by
  intro m n us st k hm hn hreads hends
  obtain ⟨n, rfl⟩ := Nat.exists_eq_add_one_of_ne_zero (Nat.ne_of_gt (Nat.zero_lt_of_lt hn))
  have hr := h m (n + 1) us st k hm hn hreads (hends.mono (by decide))
  change Computes e us k (explor L (expcomma L m) (n + 1) st) at hr
  change Computes e us k (expcond L (expcomma L m) (n + 1) st)
  rw [expcond]
  generalize explor L (expcomma L m) (n + 1) st = r at hr ⊢
  cases hr with
  | fault hk he => exact .fault hk he
  | @value v st' he hst' =>
    rw [ok_bind, if_pos (hst'.curtok_ne hends (.inr rfl))]
    exact .value he hst'

/-- An operand does not begin with the end of the text or a colon. -/
theorem Reads.begins {st : St} {ts us : List (Tok L)} {k : Nat} (h : Reads st (ts ++ us) k)
    (hts : Phrase ts) : st.curtok ≠ .eof ∧ st.curtok ≠ .op 0x3a := by
  have hcur := h.current
  have hopens := hts.opens
  cases ts with
  | nil => exact absurd rfl hts.ne
  | cons t ts =>
    cases t with
    | const c =>
      rw [List.cons_append] at hcur
      rw [hcur.1]
      exact ⟨by decide, by decide⟩
    | op t =>
      have hall : ∀ t ∈ openers, t ≠ .eof ∧ t ≠ .op 0x3a := by decide
      rw [List.cons_append] at hcur
      rw [hcur.1]
      exact hall t (hopens _ rfl)

theorem Reaches.cond {c a b : Tree L} {tc ta tb : List (Tok L)} (hc : Reaches 3 c tc)
    (ha : Reaches 0 a ta) (hb : Reaches 2 b tb) (hta : Phrase ta) (htb : Phrase tb) :
    Reaches 2 (.cond c a b) (tc ++ .op (.op 0x3f) :: (ta ++ .op (.op 0x3a) :: tb)) := by
  intro m n us st k hm hn hreads hends
  rw [List.length_append, List.length_cons, List.length_append, List.length_cons] at hm hn
  rw [List.append_assoc, List.cons_append, List.append_assoc, List.cons_append] at hreads
  obtain ⟨n, rfl⟩ := Nat.exists_eq_add_one_of_ne_zero (Nat.ne_of_gt (Nat.zero_lt_of_lt hn))
  obtain ⟨m, rfl⟩ : ∃ m', m = m' + 1 := ⟨m - 1, by omega⟩
  have hr := hc (m + 1) (n + 1) _ st k (by omega) (by omega) hreads (ends_op (by decide) _)
  change Computes c _ k (explor L (expcomma L (m + 1)) (n + 1) st) at hr
  change Computes _ us k (expcond L (expcomma L (m + 1)) (n + 1) st)
  rw [expcond]
  generalize explor L (expcomma L (m + 1)) (n + 1) st = r at hr ⊢
  cases hr with
  | @fault f hk he =>
    refine .fault hk ?_
    rw [Tree.eval, he]
    rfl
  | @value v st₁ he hst₁ =>
    have heval : k = 0 → (Tree.cond c a b).eval = if v = 0 then b.eval else a.eval := by
      intro hk
      rw [Tree.eval, he hk, ok_bind]
    have hcur : st₁.curtok = .op 0x3f := hst₁.current.1
    obtain ⟨i, hi⟩ : ∃ i, i = if v = 0 then 1 else 0 := ⟨_, rfl⟩
    obtain ⟨j, hj⟩ : ∃ j, j = if v = 0 then 0 else 1 := ⟨_, rfl⟩
    obtain ⟨st₂, hread₂, hst₂⟩ := (hst₁.withNoeval (congrArg (· + i) hst₁.noeval)).next
    rw [ok_bind, if_neg (not_not_intro hcur), ← hi, ← hj]
    dsimp only
    rw [hread₂, ok_bind, if_neg fun h => h.elim (hst₂.begins hta).1 (hst₂.begins hta).2]
    have hr := ha m (m + 1) _ st₂ (k + i) (by omega) (by omega) hst₂ (ends_op (by decide) _)
    change Computes a _ (k + i) (expcomma L (m + 1) st₂) at hr
    generalize expcomma L (m + 1) st₂ = r at hr ⊢
    cases hr with
    | @fault f hk he' =>
      have hv : v ≠ 0 := fun hv => by rw [hi, if_pos hv] at hk; omega
      refine .fault (Nat.eq_zero_of_add_eq_zero_right hk) ?_
      rw [heval (Nat.eq_zero_of_add_eq_zero_right hk), if_neg hv, he']
    | @value w st₃ he' hst₃ =>
      have hcolon : st₃.curtok = .op 0x3a := hst₃.current.1
      have hnoeval : st₃.noeval - i + j = k + j := by rw [hst₃.noeval, Nat.add_sub_cancel]
      obtain ⟨st₄, hread₄, hst₄⟩ := (hst₃.withNoeval hnoeval).next
      rw [ok_bind, if_neg (not_not_intro hcolon)]
      dsimp only
      rw [hread₄, ok_bind, if_neg (hst₄.begins htb).1]
      have hr := hb (m + 1) n us st₄ (k + j) (by omega) (by omega) hst₄ hends
      change Computes b us (k + j) (expcond L (expcomma L (m + 1)) n st₄) at hr
      generalize expcond L (expcomma L (m + 1)) n st₄ = r at hr ⊢
      cases hr with
      | @fault f hk he'' =>
        have hv : v = 0 := by
          by_contra hv
          rw [hj, if_neg hv] at hk
          omega
        refine .fault (Nat.eq_zero_of_add_eq_zero_right hk) ?_
        rw [heval (Nat.eq_zero_of_add_eq_zero_right hk), if_pos hv, he'']
      | @value x st₅ he'' hst₅ =>
        have hnoeval' : st₅.noeval - j = k := by rw [hst₅.noeval, Nat.add_sub_cancel]
        rw [ok_bind]
        refine .value (fun hk => ?_)
          ((hst₅.withNoeval hnoeval').withLasttok ⟨by decide, by decide⟩)
        rw [heval hk]
        by_cases hv : v = 0
        · rw [if_pos hv, if_pos hv, he'' (by rw [hk, hj, if_pos hv])]
        · rw [if_neg hv, if_neg hv, he' (by rw [hk, hi, if_neg hv])]


/-! ## Powers and unary operators -/

theorem powerLoop_stop {self : St → Except Stop Value} (m : Nat) (v : Int64) {st : St}
    (h : st.curtok ≠ .power) : powerLoop L self (m + 1) (v, st) = .ok (v, st) :=
  if_neg h

theorem Reaches.pow_of_unary {e : Tree L} {ts : List (Tok L)} (h : Reaches 14 e ts) :
    Reaches 13 e ts := by
  intro m n us st k hm hn hreads hends
  obtain ⟨n, rfl⟩ := Nat.exists_eq_add_one_of_ne_zero (Nat.ne_of_gt (Nat.zero_lt_of_lt hn))
  have hr := h m (n + 1) us st k hm hn hreads (hends.mono (by decide))
  change Computes e us k (expunary L (expcomma L m) (n + 1) st) at hr
  change Computes e us k (exppower L (expcomma L m) (n + 1) st)
  rw [exppower]
  generalize expunary L (expcomma L m) (n + 1) st = r at hr ⊢
  cases hr with
  | fault hk he => exact .fault hk he
  | @value v st' he hst' =>
    rw [ok_bind, powerLoop_stop n v (hst'.curtok_ne hends (.inr rfl))]
    exact .value he hst'

/-- What `exppower` makes of its right operand, behind which no `**` follows. -/
theorem applies_pow {v w : Int64} {us : List (Tok L)} {k : Nat} {st : St} (hst : Reads st us k)
    (hends : Ends 13 us) (self : St → Except Stop Value) (m : Nat) :
    Applies .pow v w us k
      (if st.noeval = 0 then
        if w = 0 then .ok (1, { st with lasttok := .num })
        else if w < 0 then .error (.evalerror "exponent less than 0")
        else powerLoop L self (m + 1) (ipow 64 v w 1, { st with lasttok := .num })
      else powerLoop L self (m + 1) (1, { st with lasttok := .num })) := by
  have hreads := hst.withLasttok noInc_num
  have hstop : ∀ x, powerLoop L self (m + 1) (x, { st with lasttok := .num }) =
      .ok (x, { st with lasttok := .num }) :=
    fun x => powerLoop_stop m x (hst.curtok_ne hends (.inr rfl))
  by_cases hk : st.noeval = 0
  · rw [if_pos hk]
    by_cases hzero : w = 0
    · rw [if_pos hzero]
      refine .value (fun _ => ?_) hreads
      rw [hzero]
      exact congrArg Except.ok (wrapPow_zero v)
    · rw [if_neg hzero]
      by_cases hneg : w < 0
      · rw [if_pos hneg]
        exact .fault (f := .negativeExponent) (hst.noeval.symm.trans hk) (if_pos hneg)
      · rw [if_neg hneg, hstop]
        refine .value (fun _ => ?_) hreads
        rw [BinOp.apply, if_neg hneg, ipow_of_nonneg v w hneg, wrapPow]
  · rw [if_neg hk, hstop]
    exact .value (fun hk' => absurd (hst.noeval.trans hk') hk) hreads

theorem Reaches.pow {a b : Tree L} {ta tb : List (Tok L)} (ha : Reaches 14 a ta)
    (hb : Reaches 13 b tb) : Reaches 13 (.binary .pow a b) (ta ++ .op .power :: tb) := by
  intro m n us st k hm hn hreads hends
  rw [List.length_append, List.length_cons] at hm hn
  rw [List.append_assoc, List.cons_append] at hreads
  obtain ⟨n, rfl⟩ : ∃ n', n = n' + 2 := ⟨n - 2, by omega⟩
  have hr := ha m (n + 2) _ st k (by omega) (by omega) hreads (ends_op (by decide) _)
  change Computes a _ k (expunary L (expcomma L m) (n + 2) st) at hr
  change Computes _ us k (exppower L (expcomma L m) (n + 2) st)
  rw [exppower]
  generalize expunary L (expcomma L m) (n + 2) st = r at hr ⊢
  cases hr with
  | @fault f hk he =>
    refine .fault hk ?_
    rw [Tree.eval, he]
    rfl
  | @value v st' he hst' =>
    obtain ⟨st'', hread, hst''⟩ := hst'.next
    have hright := hb m (n + 1) us st'' k (by omega) (by omega) hst'' hends
    have hcur : st'.curtok = .power := hst'.current.1
    rw [ok_bind, powerLoop, if_pos hcur, hread, ok_bind]
    exact hright.bind he rfl fun w st hst => applies_pow hst hends _ n

theorem Reaches.unary {op : UnOp} {e : Tree L} {ts : List (Tok L)} (h : Reaches 14 e ts) :
    Reaches 14 (.unary op e) (.op op.token :: ts) := by
  intro m n us st k hm hn hreads hends
  rw [List.length_cons] at hm hn
  obtain ⟨n, rfl⟩ := Nat.exists_eq_add_one_of_ne_zero (Nat.ne_of_gt (Nat.zero_lt_of_lt hn))
  obtain ⟨st', hread, hst'⟩ := hreads.next
  have hcur : unaryOp st.curtok = some op.apply := by
    have hcur : st.curtok = op.token := hreads.current.1
    rw [hcur]
    cases op <;> rfl
  have hr := h m n us st' k (by omega) (by omega) hst' hends
  change Computes e us k (expunary L (expcomma L m) n st') at hr
  change Computes _ us k (expunary L (expcomma L m) (n + 1) st)
  rw [expunary]
  simp only [hcur, hread, ok_bind]
  generalize expunary L (expcomma L m) n st' = r at hr ⊢
  cases hr with
  | fault hk he =>
    refine .fault hk ?_
    rw [Tree.eval, he]
    rfl
  | @value v st'' he hst'' =>
    refine .value (fun hk => ?_) (hst''.withLasttok noInc_num)
    rw [Tree.eval, he hk]
    rfl

/-- What is no unary operator is left to `exp0`. -/
theorem level_of_exp0 {lowest : St → Except Stop Value} {n : Nat} {st : St}
    (h : unaryOp st.curtok = none) : level L lowest (n + 1) 14 st = exp0 L lowest st := by
  change expunary L lowest (n + 1) st = _
  rw [expunary]
  simp only [h]

theorem Reaches.const (c : Constant L) : Reaches 14 (.const c) [.const c] := by
  intro m n us st k hm hn hreads hends
  obtain ⟨n, rfl⟩ := Nat.exists_eq_add_one_of_ne_zero (Nat.ne_of_gt (Nat.zero_lt_of_lt hn))
  obtain ⟨st', hread, hst'⟩ := hreads.next
  obtain ⟨hcur, hval, -⟩ := hreads.current
  have hinc : ¬(st.curtok = .preinc ∨ st.curtok = .predec) := by
    rw [hcur]
    decide
  have hparen : st.curtok ≠ .op 0x28 := by
    rw [hcur]
    decide
  rw [level_of_exp0 (by rw [hcur]; rfl), exp0, if_neg hinc, if_neg hparen, if_pos hcur, hread,
    ok_bind, hval]
  exact .value (fun _ => rfl) hst'

theorem Reaches.paren {e : Tree L} {ts : List (Tok L)} (h : Reaches 0 e ts) :
    Reaches 14 e (.op (.op 0x28) :: (ts ++ [.op (.op 0x29)])) := by
  intro m n us st k hm hn hreads hends
  rw [List.length_cons, List.length_append, List.length_singleton] at hm hn
  rw [List.cons_append, List.append_assoc, List.singleton_append] at hreads
  obtain ⟨n, rfl⟩ := Nat.exists_eq_add_one_of_ne_zero (Nat.ne_of_gt (Nat.zero_lt_of_lt hn))
  obtain ⟨m, rfl⟩ := Nat.exists_eq_add_one_of_ne_zero (Nat.ne_of_gt (Nat.zero_lt_of_lt hm))
  obtain ⟨st', hread, hst'⟩ := hreads.next
  have hcur : st.curtok = .op 0x28 := hreads.current.1
  have hinc : ¬(st.curtok = .preinc ∨ st.curtok = .predec) := by
    rw [hcur]
    decide
  have hr := h m (m + 1) _ st' k (by omega) (by omega) hst' (ends_op (by decide) _)
  change Computes e _ k (expcomma L (m + 1) st') at hr
  rw [level_of_exp0 (by rw [hcur]; rfl), exp0, if_neg hinc, if_pos hcur, hread, ok_bind]
  generalize expcomma L (m + 1) st' = r at hr ⊢
  cases hr with
  | fault hk he => exact .fault hk he
  | @value v st'' he hst'' =>
    obtain ⟨st₃, hread', hst₃⟩ := hst''.next
    have hrparen : st''.curtok = .op 0x29 := hst''.current.1
    rw [ok_bind, if_neg (not_not_intro hrparen), hread', ok_bind]
    exact .value he hst₃

/-! ## Whole expressions -/

/-- The function of group `j` reads `e`, and where there is a loop, gets to it. -/
structure Parses (j : Nat) (e : Tree L) (ts : List (Tok L)) : Prop where
  reaches : Reaches j e ts
  follows : Left j → Follows j e ts

theorem Parses.of_follows {j : Nat} (hj : Left j) {e : Tree L} {ts : List (Tok L)}
    (h : Follows j e ts) : Parses j e ts :=
  ⟨Reaches.of_follows hj h, fun _ => h⟩

/-- An operand of a group is one of the group below. -/
theorem Parses.down {j : Nat} (hj : j < 14) {e : Tree L} {ts : List (Tok L)}
    (h : Parses (j + 1) e ts) : Parses j e ts := by
  by_cases hleft : Left j
  · exact .of_follows hleft (.of_reaches hleft h.reaches)
  · have hcases : j = 1 ∨ j = 2 ∨ j = 13 := by
      rw [Left] at hleft
      omega
    rcases hcases with rfl | rfl | rfl
    · exact ⟨h.reaches.assign, fun hl => absurd hl hleft⟩
    · exact ⟨h.reaches.cond_of_lor, fun hl => absurd hl hleft⟩
    · exact ⟨h.reaches.pow_of_unary, fun hl => absurd hl hleft⟩

theorem Parses.of_le {i j : Nat} (hij : i ≤ j) (hj : j ≤ 14) {e : Tree L} {ts : List (Tok L)}
    (h : Parses j e ts) : Parses i e ts := by
  obtain ⟨d, rfl⟩ := Nat.exists_eq_add_of_le hij
  induction d generalizing i with
  | zero => exact h
  | succ d ih =>
    refine Parses.down (by omega) (ih (by omega) (by omega) ?_)
    rw [Nat.add_right_comm]
    exact h

theorem Prints.parses {k : Nat} {e : Tree L} {ts : List (Tok L)} (h : Prints k e ts)
    (hle : k ≤ 14) : Parses k e ts := by
  have htop : ¬Left 14 := fun h => absurd h.1 (by decide)
  induction h with
  | const c => exact .of_le hle (Nat.le_refl 14) ⟨.const c, fun h => absurd h htop⟩
  | unary hk _ ih =>
    exact .of_le hk (Nat.le_refl 14) ⟨.unary (ih (Nat.le_refl 14)).reaches, fun h => absurd h htop⟩
  | @binary _ op _ _ _ _ hk _ _ ih ih' =>
    by_cases hop : op = .pow
    · subst hop
      have hreaches := Reaches.pow (ih (Nat.le_refl 14)).reaches (ih' (by decide)).reaches
      exact .of_le hk (by decide) ⟨hreaches, fun h => absurd h.1 (by decide)⟩
    · have hsides : op.left = op.prec ∧ op.right = op.prec + 1 ∧ op.prec ≤ 12 ∧ op.prec ≠ 1 ∧
          op.prec ≠ 2 := by
        cases op <;> first | exact absurd rfl hop | decide
      have hleft : Left op.prec := hsides.2.2
      rw [hsides.1] at ih
      rw [hsides.2.1] at ih'
      have hfollows := ((ih (by omega)).follows hleft).binary hop hleft (ih' (by omega)).reaches
      exact .of_le hk (by omega) (.of_follows hleft hfollows)
  | cond hk _ hta htb ih ih' ih'' =>
    have hreaches := Reaches.cond (ih (by decide)).reaches (ih' (by decide)).reaches
      (ih'' (by decide)).reaches hta.phrase htb.phrase
    exact .of_le hk (by decide) ⟨hreaches, fun h => absurd rfl h.2.2⟩
  | paren _ ih =>
    exact .of_le hle (Nat.le_refl 14)
      ⟨.paren (ih (Nat.zero_le 14)).reaches, fun h => absurd h htop⟩

theorem Spaced.length_le {ts : List (Tok L)} {text : List UInt8} (h : Spaced ts text)
    (hknown : ∀ t ∈ ts, t.Known) : ts.length ≤ text.length := by
  induction h with
  | nil => exact Nat.zero_le _
  | @cons ws t ts text _ _ ih =>
    obtain ⟨c, cs, htext, -⟩ := (hknown t List.mem_cons_self).head
    have := ih fun u hu => hknown u (List.mem_cons_of_mem t hu)
    rw [htext, List.length_append, List.length_append, List.length_cons, List.length_cons]
    omega

theorem Spaced.not_white {t : Tok L} {ts : List (Tok L)} {text : List UInt8}
    (h : Spaced (t :: ts) text) (ht : t.Known) : text.dropWhile crWhitespace ≠ [] := by
  cases h with
  | @cons ws _ _ text hws _ =>
    obtain ⟨c, cs, htext, hwhite, -⟩ := ht.head
    rw [htext, List.append_assoc, List.cons_append, dropWhile_white hws hwhite]
    exact List.cons_ne_nil _ _

/-- The text of a tree, written with the parentheses that the precedence of the operators needs and
with white space anywhere between the tokens, evaluates to the value of the tree. -/
theorem evalexp_printed {e : Tree L} {ts : List (Tok L)} (h : Prints 0 e ts) {text : List UInt8}
    (htext : Spaced ts text) {fuel : Nat} (hfuel : text.length < fuel) :
    evalexp L fuel text = e.eval.mapError Fault.stop := by
  have hphrase := h.phrase
  have hlen := htext.length_le hphrase.legible.known
  obtain ⟨t, us, hts⟩ := List.exists_cons_of_ne_nil hphrase.ne
  have hnot : text.dropWhile crWhitespace ≠ [] :=
    (hts ▸ htext).not_white (hphrase.legible.known t (hts ▸ List.mem_cons_self))
  have heof : NoInc .eof := ⟨by decide, by decide⟩
  obtain ⟨st, hread, hcurrent, hnoeval, hlast⟩ : ∃ st,
      readtok L ⟨text, .eof, .eof, 0, 0⟩ = .ok st ∧ Current st ts ∧ st.noeval = 0 ∧
        st.lasttok = .eof := readtok_spaced htext hphrase.legible heof
  have hreads : Reads st ts 0 := ⟨hphrase.legible, hnoeval, hlast ▸ heof, hcurrent⟩
  obtain ⟨m, rfl⟩ := Nat.exists_eq_add_one_of_ne_zero (Nat.ne_of_gt (Nat.zero_lt_of_lt hfuel))
  rw [← List.append_nil ts] at hreads
  have hr := (h.parses (Nat.zero_le 14)).reaches m (m + 1) [] st 0 (by omega) (by omega) hreads
    (fun t ht => by cases ht)
  change Computes e [] 0 (expcomma L (m + 1) st) at hr
  rw [evalexp, subexpr, if_neg hnot, hread, ok_bind]
  generalize expcomma L (m + 1) st = r at hr ⊢
  cases hr with
  | fault _ he =>
    rw [he]
    rfl
  | @value v st' he hst' =>
    have heof : st'.curtok = .eof := hst'.current
    rw [ok_bind, if_neg (not_not_intro heof), he rfl]
    rfl

/-- A decimal digit. -/
def digitConstant (d : Nat) (hd : d < 10) : Constant cLetters where
  text := [UInt8.ofNat (d + 48)]
  val := Int64.ofNat d
  digit := by
    revert d
    decide
  token := by
    intro c hc
    rw [List.mem_singleton.mp hc]
    clear hc c
    revert d
    decide
  reads := by
    revert d
    decide +kernel

/-- `1 - (0 && 7 / 0) * 2 - -2 ** 3 ** 2` -/
def mixed : Tree cLetters :=
  .binary .sub
    (.binary .sub (.const (digitConstant 1 (by decide)))
      (.binary .mul
        (.binary .land (.const (digitConstant 0 (by decide)))
          (.binary .div (.const (digitConstant 7 (by decide)))
            (.const (digitConstant 0 (by decide)))))
        (.const (digitConstant 2 (by decide)))))
    (.binary .pow (.unary .minus (.const (digitConstant 2 (by decide))))
      (.binary .pow (.const (digitConstant 3 (by decide)))
        (.const (digitConstant 2 (by decide)))))

/-- `1-(0&&7/0)*2--2**3**2` -/
theorem evalexp_printed_mixed :
    evalexp cLetters 40 ((mixed.print 0).flatMap Tok.text) = .ok 513 :=
  (evalexp_printed (prints_print mixed 0) (spaced_flatMap _) (by decide)).trans (by decide)

end Basht.Expr
