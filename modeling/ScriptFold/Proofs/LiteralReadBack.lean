import Mathlib
import ScriptFold.Proofs.LiteralText
import ScriptFold.Proofs.ParseComplete
/-!
# Reading a value's literal back

`Value.literal` writes source text for a value, and the parser reads that text back. Each
literal is a short derivation of the grammar: one literal token, a minus sign before one, or,
for the least integer, a subtraction in parentheses. It folds to the value. The exception is
a date whose year is 0 to 99: it comes back through the century window
(`Moment.throughWindow`).

* `LiteralReads pos text w`: `text` scans, from `pos` and before delimited text, to a primary
  derivation (or a signed one, when it starts with `-`) of at most six tokens that folds to the
  constant `w`;
* `Value.literalReads`: every value whose literal the reader can take back reads, at every
  position, as the value through the window;
* `parse_literal_reads_back`: the parser, given the literal alone, returns that constant, and
  the value comes back unchanged exactly when it is no date of a year from 0 to 99.

The number reader runs on floating point, which the logic cannot open. So what the literal of
a double relies on is stated as `Numeral.Double.DigitsReadBack`: the reader takes the shortest
digits of the double's magnitude back to that magnitude.
-/

namespace ScriptFold

set_option autoImplicit false

open Scan

/-! ## A text that is one derivation -/

theorem Derives.up {l : Level} {s : Syn} (h : Derives l s) (l' : Level) (hl : l.rank ≤ l'.rank) :
    Derives l' s := by
  induction l' using Level.induction_next with
  | primary =>
    have : l = .primary := Level.rank_injective (by simp [Level.rank] at hl ⊢; omega)
    exact this ▸ h
  | step l' hl' ih =>
    by_cases heq : l.rank = l'.rank
    · exact Level.rank_injective heq ▸ h
    · have := Level.rank_next hl'
      exact .next hl' (ih (by omega))

theorem Expr.parse_eq_fold {src : String} {s : Syn} (hs : Derives .imp s) {t : Token}
    (ht : t.kind = .eof) (hscan : Token.scanAll src = .ok (s.yield ++ [t])) (cfg : Limits)
    (hd : s.yield.length < cfg.maxDepth) (hh : s.yield.length ≤ cfg.maxHeight) :
    Expr.parse src cfg = s.fold := by
  have hx : ¬Extends .imp s t.kind := by
    rw [ht]
    exact not_extends (by rfl) (by decide) (by decide)
  have h := Parse.expression_complete hs (d := 0) (by omega) hh hx []
  unfold Expr.parse Expr.parseTokens
  rw [hscan]
  cases hf : s.fold with
  | error e =>
    rw [hf] at h
    simp only [Parse.Follows] at h
    simp [Parsed.out] at h
    simp [h]
  | ok e =>
    rw [hf, Parse.Follows.ok_iff] at h
    simp [Parsed.out] at h
    simp [h.1, h.2, ht]

/-! ## Literal derivations -/

/-- `text`, scanned from `pos` before delimited text, is a derivation of at most six tokens that
folds to the constant `w`; primary, or signed when the text starts with a minus sign. -/
def LiteralReads (pos : Nat) (text : List Char) (w : Value) : Prop :=
  ∃ s, (Derives .primary s ∨ text.head? = some '-' ∧ Derives .sign s) ∧
    Scans pos text s.yield Delimited ∧ s.yield.length ≤ 6 ∧ ∃ span, s.fold = .ok (.const w span)

namespace LiteralReads

variable {pos : Nat}

theorem lit {cs : List Char} {t : Token} {k : LiteralKind} {w : Value}
    (hscan : Scans pos cs [t] Delimited) (hk : t.kind = .literal k)
    (hw : Literal.read? k t.lexeme = some w) : LiteralReads pos cs w := by
  refine ⟨.lit t, .inl (Derives.lit hk), hscan, by simp [Syn.yield], t.span, ?_⟩
  simp only [Syn.fold, Token.literalValue, hk, hw]
  rfl

theorem neg {c : Char} {body : List Char} {t : Token} {k : LiteralKind} {v w : Value}
    (hscan : Scans (pos + byteLength ['-']) (c :: body) [t] Delimited) (hk : t.kind = .literal k)
    (hv : Literal.read? k t.lexeme = some v) (hw : UnaryOp.apply .negate v = .ok w) :
    LiteralReads pos ('-' :: c :: body) w := by
  let m : Token := ⟨.minus, String.ofList ['-'], ⟨pos, pos + byteLength ['-']⟩⟩
  have hm : Scans pos ['-'] [m] fun _ => True := Scans.single (fun _ => rfl) pos
  refine ⟨.unary .negate m (.lit t), .inr ⟨rfl, ?_⟩, hm.append hscan fun _ _ => trivial,
    by simp [Syn.yield], m.span.cover t.span, ?_⟩
  · exact Derives.unary (l := .sign) rfl ((Derives.lit hk).up .sign (by decide))
  · simp only [Syn.fold, Token.literalValue, hk, hv, Except.map, Except.bind, Parse.foldUnary, hw]

theorem word {c : Char} {body : List Char} {k : LiteralKind} {w : Value} (hc : c.isAlpha = true)
    (hbody : ∀ x ∈ body, isNameChar x = true) (hk : wordKind (c :: body) = .literal k)
    (hw : Literal.read? k (String.ofList (c :: body)) = some w) : LiteralReads pos (c :: body) w :=
  lit (Scans.word hc hbody pos) hk hw

end LiteralReads

/-! ## Integers -/

theorem UnaryOp.apply_negate_int {i : Int64} (hi : i ≠ Int64.minValue) :
    UnaryOp.apply .negate (.int i) = .ok (.int (-i)) := by
  simp [UnaryOp.apply, Value.isNull, Value.toNumber, bind, Except.bind, pure, Except.pure, hi]

theorem literalReads_toString {n : Nat} (h : n < 2 ^ 63) (pos : Nat) :
    LiteralReads pos (toString n).toList (.int (Int64.ofInt n)) := by
  obtain ⟨c, rest, hcr, hc, hr⟩ := exists_cons_toDigits n
  have htext : (toString n).toList = c :: rest := by rw [toList_toString_nat, hcr]
  have hlex : String.ofList (c :: rest) = toString n := by rw [← htext, String.ofList_toList]
  rw [htext]
  exact LiteralReads.lit (Scans.digits hc hr pos) rfl
    (by rw [hlex]; exact Literal.read?_integer_toString h)

theorem literalReads_intText (i : Int64) (hi : i ≠ Int64.minValue) (pos : Nat) :
    LiteralReads pos (Value.intText i).toList (.int i) := by
  have hlo := Int64.le_toInt i
  have hhi := Int64.toInt_lt i
  have hne : i.toInt ≠ -2 ^ 63 := fun h => hi (Int64.toInt_inj.mp (by rw [h, Int64.toInt_minValue]))
  by_cases hpos : 0 ≤ i.toInt
  · obtain ⟨n, hn⟩ := Int.eq_ofNat_of_zero_le hpos
    have htext : Value.intText i = toString n := by rw [Value.intText, hn]; rfl
    have h := literalReads_toString (n := n) (by omega) pos
    rwa [← hn, Int64.ofInt_toInt, ← htext] at h
  · obtain ⟨m, hm⟩ := Int.exists_eq_neg_ofNat (by omega : i.toInt ≤ 0)
    obtain ⟨c, rest, hcr, hc, hr⟩ := exists_cons_toDigits m
    have htext : (Value.intText i).toList = '-' :: c :: rest := by
      obtain ⟨k, rfl⟩ : ∃ k, m = k + 1 := ⟨m - 1, by omega⟩
      rw [Value.intText, hm, show -((k + 1 : Nat) : Int) = Int.negSucc k by rfl]
      show ("-" ++ toString (k + 1)).toList = _
      rw [String.toList_append, toList_toString_nat, hcr]
      rfl
    have hread : Literal.read? .integer (String.ofList (c :: rest)) =
        some (.int (Int64.ofInt m)) := by
      rw [← hcr, ← toList_toString_nat, String.ofList_toList,
        Literal.read?_integer_toString (by omega)]
    have hmin : Int64.ofInt m ≠ Int64.minValue := by
      intro h
      have := congrArg Int64.toInt h
      rw [Int64.toInt_ofInt, Int64.toInt_minValue, Int.bmod_def] at this
      simp only [Int64.size] at this
      split at this <;> omega
    have hneg : -Int64.ofInt m = i := by
      apply Int64.toInt_inj.mp
      rw [Int64.toInt_neg, Int64.toInt_ofInt, hm, Int.bmod_def, Int.bmod_def]
      simp only [Int64.size]
      split <;> split <;> omega
    rw [htext, ← hneg]
    exact LiteralReads.neg (Scans.digits hc hr _) rfl hread (UnaryOp.apply_negate_int hmin)

theorem literalReads_least (pos : Nat) :
    LiteralReads pos "(-9223372036854775807 - 1)".toList (.int Int64.minValue) := by
  obtain ⟨lp, m1, a, m2, b, rp, hscan, hlp, hm1, ha, hax, hm2, hb, hbx, hrp⟩ :
      ∃ lp m1 a m2 b rp : Token,
        Scans pos "(-9223372036854775807 - 1)".toList [lp, m1, a, m2, b, rp] Delimited ∧
        lp.kind = .leftParen ∧ m1.kind = .minus ∧ a.kind = .literal .integer ∧
        a.lexeme = "9223372036854775807" ∧ m2.kind = .minus ∧ b.kind = .literal .integer ∧
        b.lexeme = "1" ∧ rp.kind = .rightParen := by
    have hs : Scans pos (['('] ++ ['-'] ++ '9' :: "223372036854775807".toList ++ [' '] ++
        ['-'] ++ [' '] ++ ['1'] ++ [')']) _ Delimited :=
      ((((((((Scans.single (fun _ => rfl) pos : Scans pos ['('] _ fun _ => True).append
        (Scans.single (fun _ => rfl) _ : Scans _ ['-'] _ fun _ => True) fun _ _ => trivial).append
        (Scans.digits (by decide)
          (show ∀ x ∈ "223372036854775807".toList, x.isDigit = true by simp) _ :
            Scans _ ('9' :: "223372036854775807".toList) _ Delimited) fun _ _ => trivial).append
        (Scans.blank _ : Scans _ [' '] [] fun _ => True)
          fun r _ => Delimited.of_head (.inl rfl) r).append
        (Scans.single (fun _ => rfl) _ : Scans _ ['-'] _ fun _ => True) fun _ _ => trivial).append
        (Scans.blank _ : Scans _ [' '] [] fun _ => True) fun _ _ => trivial).append
        (Scans.digits (c := '1') (by decide)
          (show ∀ x ∈ ([] : List Char), x.isDigit = true by simp) _) fun _ _ => trivial).append
        (Scans.single (fun _ => rfl) _ : Scans _ [')'] _ Delimited)
          fun r _ => Delimited.of_head (.inr (.inl rfl)) r)
    exact ⟨_, _, _, _, _, _, hs, rfl, rfl, rfl, rfl, rfl, rfl, rfl, rfl⟩
  have hneg : Derives .additive (.unary .negate m1 (.lit a)) :=
    (Derives.unary (l := .sign) (by rw [hm1]; rfl)
      ((Derives.lit ha).up _ (by decide))).up _ (by decide)
  have hsub : Derives .imp (.binary .subtract m2 (.unary .negate m1 (.lit a)) (.lit b)) :=
    (Derives.binary (l := .additive) rfl (by rw [hm2]; rfl) hneg
      ((Derives.lit hb).up _ (by decide))).up _ (by decide)
  have hread_a : Literal.read? .integer a.lexeme =
      some (.int (Int64.ofInt 9223372036854775807)) := by
    rw [hax]
    exact Literal.read?_integer_toString (n := 9223372036854775807) (by decide)
  have hread_b : Literal.read? .integer b.lexeme = some (.int (Int64.ofInt 1)) := by
    rw [hbx]
    exact Literal.read?_integer_toString (n := 1) (by decide)
  have hdiff : BinaryOp.apply .subtract (.int (-Int64.ofInt 9223372036854775807))
      (.int (Int64.ofInt 1)) = .ok (.int Int64.minValue) := by rfl
  refine ⟨.paren lp (.binary .subtract m2 (.unary .negate m1 (.lit a)) (.lit b)) rp,
    .inl (Derives.paren hlp hsub hrp), hscan, by simp [Syn.yield], lp.span.cover rp.span, ?_⟩
  simp only [Syn.fold, Token.literalValue, ha, hb, hread_a, hread_b]
  simp only [Except.map, Except.bind, Parse.foldUnary, Parse.foldBinary, hdiff,
    UnaryOp.apply_negate_int (show Int64.ofInt 9223372036854775807 ≠ Int64.minValue by decide)]
  rfl

/-! ## Doubles -/

/-- The number reader reads the shortest digits of a finite double's magnitude back as that
magnitude: what the literal of a double relies on. -/
def Numeral.Double.DigitsReadBack (x : Numeral.Double) : Prop :=
  match x.decode with
  | .finite _ m e =>
    ∃ y, Numeral.readFloat? (Value.literalNotation.body
        (Numeral.Digits.shortest Value.literalNotation.halfway m e)).toList = some y ∧
      y.isFinite = true ∧ (Numeral.Double.ofFloat y).decode = .finite false m e
  | _ => False

theorem UnaryOp.apply_negate_double (x : Numeral.Double) :
    UnaryOp.apply .negate (.double x) = .ok (.double x.neg) := by
  simp [UnaryOp.apply, Value.isNull, Value.toNumber, bind, Except.bind, pure, Except.pure]

theorem literalReads_floatLiteral {x : Numeral.Double} (hx : x.DigitsReadBack) (pos : Nat) :
    LiteralReads pos (Value.floatLiteral x).toList (.double x) := by
  unfold Numeral.Double.DigitsReadBack at hx
  split at hx
  · rename_i negative m e hdec
    obtain ⟨y, hy, hfin, hydec⟩ := hx
    obtain ⟨c, body, hbody, hstep⟩ :=
      Value.body_scan _ (Numeral.Digits.shortest_wellFormed Value.literalNotation.halfway m e)
    have hread : Literal.read? .float (String.ofList (c :: body)) =
        some (.double (Numeral.Double.ofFloat y)) :=
      Literal.read?_float (by rw [← hbody]; exact hy) hfin
    have hlit : (Value.floatLiteral x).toList = (if negative then ['-'] else []) ++ c :: body := by
      simp only [Value.floatLiteral, Numeral.Notation.shortest, hdec, Numeral.Notation.render]
      rw [String.toList_append, hbody]
      cases negative <;> simp [Value.literalNotation]
    rw [hlit]
    cases negative
    · rw [← Numeral.Double.eq_of_decode hydec hdec]
      exact LiteralReads.lit (Scans.token body hstep pos) rfl hread
    · rw [← Numeral.Double.neg_eq_of_decode hydec hdec]
      exact LiteralReads.neg (Scans.token body hstep _) rfl hread (UnaryOp.apply_negate_double _)
  · exact absurd hx id

/-! ## Text and dates -/

theorem literalReads_quote (s : String) (h : '\n' ∉ s.toList) (pos : Nat) :
    LiteralReads pos (Value.quote s).toList (.text s) :=
  LiteralReads.lit (Scans.quote s h pos) rfl (Literal.read?_quote s)

theorem literalReads_dateWrap {w : String} (hw : ∀ c ∈ w.toList, Scan.inDate c = true)
    {t : Moment} (hread : Moment.ofText? w = some t) (pos : Nat) :
    LiteralReads pos ("#" ++ w ++ "#").toList (.date t) :=
  LiteralReads.lit (Scans.dateWrap hw pos) rfl (by rw [Literal.read?_dateWrap, hread]; rfl)

theorem literalReads_dateLiteral (t : Moment) (hn : t.nano = 0 ∨ t.nano = nanosPerSecond)
    (pos : Nat) : LiteralReads pos (Value.dateLiteral t).toList (.date t.throughWindow) := by
  unfold Value.dateLiteral
  split
  · rename_i h
    simp only [Value.onBaseDay, Bool.and_eq_true, decide_eq_true_eq] at h
    have hwin : t.throughWindow = t := by
      rw [Moment.throughWindow_eq_self_iff, Moment.date, h.1, CivilDate.ofDays_zero]
      decide
    rw [hwin]
    exact literalReads_dateWrap (Moment.inDate_timeText t) (Moment.ofText?_timeText t h.1 hn) pos
  · split
    · rename_i hmid
      exact literalReads_dateWrap (Moment.inDate_dateText t)
        (Moment.ofText?_dateText_midnight t hmid) pos
    · have hw : ∀ c ∈ (t.dateText ++ " " ++ t.timeText).toList, Scan.inDate c = true := by
        intro c hc
        simp only [String.toList_append, List.mem_append] at hc
        rcases hc with (hc | hc) | hc
        · exact Moment.inDate_dateText t c hc
        · rw [show " ".toList = [' '] from rfl, List.mem_singleton] at hc
          rw [hc]
          rfl
        · exact Moment.inDate_timeText t c hc
      exact literalReads_dateWrap hw (Moment.ofText?_dateTimeText t hn) pos

/-! ## Every literal -/

/-- The values whose literal the parser reads back: a finite double whose shortest digits the
number reader reads back exactly, text without a line feed, a date on a whole second or a
whole leap second, and every other value. -/
def Value.LiteralReadable : Value → Prop
  | .double x => x.DigitsReadBack
  | .text s => '\n' ∉ s.toList
  | .date t => t.nano = 0 ∨ t.nano = nanosPerSecond
  | _ => True

/-- What reading a value's literal back gives: the value, a date through the century window. -/
def Value.throughWindow : Value → Value
  | .date t => .date t.throughWindow
  | v => v

theorem Value.throughWindow_eq_self_iff (v : Value) :
    v.throughWindow = v ↔ ∀ t, v = .date t → ¬(0 ≤ t.date.year ∧ t.date.year ≤ 99) := by
  cases v with
  | date t =>
    simp only [Value.throughWindow, Value.date.injEq, forall_eq']
    exact Moment.throughWindow_eq_self_iff t
  | _ => simp [Value.throughWindow]

theorem Value.literalReads (v : Value) (hv : v.LiteralReadable) (pos : Nat) :
    LiteralReads pos v.literal.toList v.throughWindow := by
  cases v with
  | empty =>
    have htext : "Empty".toList = 'E' :: "mpty".toList := rfl
    exact htext ▸ LiteralReads.word (k := .empty) (by decide) (by simp [isNameChar]) rfl rfl
  | null =>
    have htext : "Null".toList = 'N' :: "ull".toList := rfl
    exact htext ▸ LiteralReads.word (k := .null) (by decide) (by simp [isNameChar]) rfl rfl
  | bool b =>
    cases b
    · have htext : "False".toList = 'F' :: "alse".toList := rfl
      exact htext ▸ LiteralReads.word (k := .boolean) (by decide) (by simp [isNameChar]) rfl rfl
    · have htext : "True".toList = 'T' :: "rue".toList := rfl
      exact htext ▸ LiteralReads.word (k := .boolean) (by decide) (by simp [isNameChar]) rfl rfl
  | int i =>
    by_cases hi : i = Int64.minValue
    · subst hi
      exact literalReads_least pos
    · simp only [Value.literal, if_neg hi, Value.throughWindow]
      exact literalReads_intText i hi pos
  | double x => exact literalReads_floatLiteral hv pos
  | text s => exact literalReads_quote s hv pos
  | date t => exact literalReads_dateLiteral t hv pos

theorem Value.parse_literal (v : Value) (hv : v.LiteralReadable) :
    ∃ span, Expr.parse v.literal = .ok (.const v.throughWindow span) := by
  obtain ⟨s, hlevel, hscan, hlen, span, hfold⟩ := v.literalReads hv 0
  have hs : Derives .imp s := by
    rcases hlevel with h | ⟨-, h⟩
    · exact h.up .imp (by decide)
    · exact h.up .imp (by decide)
  refine ⟨span, ?_⟩
  rw [← hfold]
  exact Expr.parse_eq_fold hs rfl (hscan.scanAll Delimited.nil) {} (by show _ < 32; omega)
    (by show _ ≤ 1024; omega)

theorem parse_literal_reads_back (v : Value) (hv : v.LiteralReadable) :
    (∃ span, Expr.parse v.literal = .ok (.const v.throughWindow span)) ∧
      (v.throughWindow = v ↔ ∀ t, v = .date t → ¬(0 ≤ t.date.year ∧ t.date.year ≤ 99)) :=
  ⟨Value.parse_literal v hv, Value.throughWindow_eq_self_iff v⟩

/-- Midnight on 1 January of the year 50, whose literal `#0050-01-01#` reads back in 1950, and
the double 1.5, whose shortest digits `1.5` read back exactly. -/
theorem parse_literal_reads_back_date_and_double :
    let t : Moment := ⟨-675696, 0, 0, by decide, by decide, by decide, by decide, by decide⟩
    let x : Numeral.Double := ⟨0x3FF8000000000000⟩
    ((Value.date t).LiteralReadable ∧
      ((∃ span, Expr.parse (Value.date t).literal = .ok (.const (Value.date t).throughWindow span)) ∧
        ((Value.date t).throughWindow = Value.date t ↔
          ∀ t', Value.date t = .date t' → ¬(0 ≤ t'.date.year ∧ t'.date.year ≤ 99)))) ∧
    ((Value.double x).LiteralReadable ∧
      ((∃ span, Expr.parse (Value.double x).literal =
          .ok (.const (Value.double x).throughWindow span)) ∧
        ((Value.double x).throughWindow = Value.double x ↔
          ∀ t', Value.double x = .date t' → ¬(0 ≤ t'.date.year ∧ t'.date.year ≤ 99)))) := by
  intro t x
  have ht : (Value.date t).LiteralReadable := Or.inl rfl
  have hdec : x.decode = .finite false 6755399441055744 (-52) := by decide
  have hx : (Value.double x).LiteralReadable := by
    show x.DigitsReadBack
    unfold Numeral.Double.DigitsReadBack
    rw [hdec]
    exact ⟨Float.ofBits 0x3FF8000000000000, by decide +kernel, by decide +kernel, by decide +kernel⟩
  exact ⟨⟨ht, parse_literal_reads_back _ ht⟩, ⟨hx, parse_literal_reads_back _ hx⟩⟩

/-- The literal `#0050-01-01#` of midnight on 1 January of the year 50 reads back in 1950. -/
theorem date_literal_year_fifty_reads_back_in_1950 :
    let t : Moment := ⟨-675696, 0, 0, by decide, by decide, by decide, by decide, by decide⟩
    (Value.date t).literal = "#0050-01-01#" ∧ t.date.year = 50 ∧
      ∃ span, Expr.parse "#0050-01-01#" = .ok (.const (.date t.throughWindow) span) ∧
        t.throughWindow.date.year = 1950 := by
  intro t
  have hlit : (Value.date t).literal = "#0050-01-01#" := by decide
  have hyear : t.date.year = 50 := by decide
  obtain ⟨span, h⟩ := Value.parse_literal (.date t) (Or.inl rfl)
  refine ⟨hlit, hyear, span, hlit ▸ h, ?_⟩
  rw [Moment.date_throughWindow]
  decide

end ScriptFold
