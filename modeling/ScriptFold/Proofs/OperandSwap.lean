import Mathlib
import ScriptFold.Proofs.FloatLaws
import ScriptFold.Proofs.NullLogic
/-!
# Swapping the operands

What an infix operator gives on swapped operands. Comparison is antisymmetric arm by arm: text
by code point (`Comparison.compareChars_swap`), numbers exactly or as doubles, where `<` on
doubles is asymmetric (`Numeral.float_lt_asymm`), dates field by field, and the mixed arms
(a string beside a number, a date or Empty) each have a mirror arm that reads the string the same
way (`Value.compare_swap`).

`+` and `*` commute: the sum of two dates is computed from each date's serial read back from its
bits (`Numeral.Double.toFloat_ofFloat`), and binary64 `+` and `*` commute
(`Numeral.float_add_comm`, `Numeral.float_mul_comm`). Where both operands fail numeric
coercion, each order reports its left operand, but both failures are type mismatches.

`And`, `Or`, `Xor` and `Eqv` read their operands as integers left first, and the two readings
can fail differently: a string that is no number is a type mismatch, a number past the 64-bit
range an overflow. Then each order reports its left operand's failure, and only then do the two
orders disagree (`Logic.logical_comm_iff`). Beside Null only the other operand is read, so
`Null And x` and `x And Null` fail alike.

Outcomes are compared by `Agree`: the same value, or failures of the same kind.

Main statement: `operands_swap`.
-/
namespace ScriptFold

set_option autoImplicit false

/-! ## Orderings of swapped operands -/

namespace Comparison

@[simp] theorem compareChars_swap (as bs : List Char) :
    (compareChars as bs).swap = compareChars bs as := by
  induction as generalizing bs with
  | nil => cases bs <;> rfl
  | cons a as ih =>
    cases bs with
    | nil => rfl
    | cons b bs =>
      simp only [compareChars]
      rw [← Nat.compare_swap a.toNat b.toNat]
      cases Ord.compare a.toNat b.toNat <;> simp [ih]

@[simp] theorem compareText_swap (s t : String) : (compareText s t).swap = compareText t s :=
  compareChars_swap s.toList t.toList

@[simp] theorem compareFloats_swap (x y : Float) :
    (compareFloats x y).swap = compareFloats y x := by
  unfold compareFloats
  by_cases hxy : x < y
  · simp [hxy, Numeral.float_lt_asymm hxy]
  · by_cases hyx : y < x <;> simp [hxy, hyx]

@[simp] theorem compareNumbers_swap (a b : Number) :
    (compareNumbers a b).swap = compareNumbers b a := by
  cases a <;> cases b <;> simp only [compareNumbers, compareFloats_swap, Int.compare_swap]

end Comparison

@[simp] theorem Moment.compare_swap (a b : Moment) : (a.compare b).swap = b.compare a := by
  simp only [Moment.compare, Ordering.swap_then, Int.compare_swap, Nat.compare_swap]

namespace Value

open Comparison

theorem compare_swap (a b : Value) :
    b.compare a = (a.compare b).map (Option.map Ordering.swap) := by
  cases a <;> cases b <;>
    simp [Value.compare, Except.map, Value.toNumber, bind, Except.bind, pure, Except.pure]
  all_goals
    first
    | cases readNumber? ‹String› <;> simp
    | cases dateOperand ‹String› <;> simp

end Value

/-! ## Agreement of outcomes -/

/-- Two outcomes of operators agree: the same value, or failures of the same kind. -/
def Agree : Except EvalError Value → Except EvalError Value → Prop
  | .ok v, .ok w => v = w
  | .error e, .error f => e.kindName = f.kindName
  | _, _ => False

@[simp] theorem Agree.refl (r : Except EvalError Value) : Agree r r := by
  cases r <;> rfl

@[simp] theorem EvalError.kindName_onOperands (e : EvalError) (op : BinaryOp)
    (l r : ValueType) : (e.onOperands op l r).kindName = e.kindName := by
  cases e <;> rfl

theorem agree_apply_iff (op op' : BinaryOp) (a b c d : Value) :
    Agree (op.apply a b) (op'.apply c d) ↔ Agree (op.applyRaw a b) (op'.applyRaw c d) := by
  rw [BinaryOp.apply_eq_mapError, BinaryOp.apply_eq_mapError]
  cases op.applyRaw a b <;> cases op'.applyRaw c d <;>
    simp [Agree, Except.mapError]

/-! ## Comparison -/

namespace Comparison

theorem apply_converse {op op' : BinaryOp} (h : ∀ o, holds op' o.swap = holds op o)
    (a b : Value) : apply op' b a = apply op a b := by
  unfold apply
  rw [Value.compare_swap]
  cases a.compare b with
  | error e => rfl
  | ok r => cases r <;> simp [Except.map, bind, Except.bind, pure, Except.pure, h]

end Comparison

/-! ## `+` and `*` -/

theorem Value.toNumber_error_kind {v : Value} {e : EvalError} (h : v.toNumber = .error e) :
    e.kindName = "InvalidOperandType" := by
  cases v with
  | text s =>
    simp only [Value.toNumber] at h
    cases hs : readNumber? s <;> simp only [hs, reduceCtorEq, Except.error.injEq] at h
    rw [← h]
    rfl
  | null => cases h; rfl
  | _ => cases h

namespace Arith

theorem dateArithmetic_add_comm (l r : Value) :
    dateArithmetic .add r l = dateArithmetic .add l r := by
  cases l <;> cases r <;> simp [dateArithmetic, Value.toNumber, Number.toFloat, bind,
    Except.bind, Numeral.float_add_comm]

theorem dateArithmetic_multiply (l r : Value) : dateArithmetic .multiply l r = .ok none := by
  cases l <;> cases r <;> rfl

theorem arithmetic_comm {op : BinaryOp} (hop : op = .add ∨ op = .multiply) (l r : Value) :
    Agree (arithmetic op l r) (arithmetic op r l) := by
  have hdate : dateArithmetic op r l = dateArithmetic op l r := by
    rcases hop with rfl | rfl
    · exact dateArithmetic_add_comm l r
    · rw [dateArithmetic_multiply, dateArithmetic_multiply]
  have hdiv : op ≠ .divide := by rcases hop with rfl | rfl <;> decide
  unfold arithmetic
  rw [Bool.or_comm r.isNull, hdate]
  cases l.isNull || r.isNull
  · cases dateArithmetic op l r with
    | error e => exact Agree.refl _
    | ok w =>
      cases w with
      | some v => exact Agree.refl _
      | none =>
        simp only [bind, Except.bind, pure, Except.pure, hdiv, if_false, Bool.false_eq_true]
        cases hx : l.toNumber with
        | error e =>
          cases hy : r.toNumber with
          | error e' =>
            show e.kindName = e'.kindName
            rw [Value.toNumber_error_kind hx, Value.toNumber_error_kind hy]
          | ok y => exact Agree.refl _
        | ok x =>
          cases hy : r.toNumber with
          | error e' => exact Agree.refl _
          | ok y =>
            rcases hop with rfl | rfl <;> cases x <;> cases y <;>
              simp [intOp?, floatOp, Int.add_comm, Int.mul_comm, Numeral.float_add_comm,
                Numeral.float_mul_comm]
  · exact Agree.refl _

end Arith

/-! ## `And`, `Or`, `Xor` and `Eqv` -/

namespace Logic

theorem bits_comm {op : BinaryOp} (hop : op ∈ [BinaryOp.and, .or, .xor, .eqv]) (a b : Int64) :
    bits op a b = bits op b a := by
  simp only [List.mem_cons, List.not_mem_nil, or_false] at hop
  rcases hop with rfl | rfl | rfl | rfl <;>
    simp only [bits, Int64.and_comm, Int64.or_comm, Int64.xor_comm]

theorem booleanPair_comm (l r : Value) : booleanPair l r = booleanPair r l := by
  cases l <;> cases r <;> rfl

theorem besideNull_side {op : BinaryOp} (hop : op ≠ .imp) (known : Value) :
    besideNull op known true = besideNull op known false := by
  have : ∀ k, settled op true k = settled op false k := fun k => by
    cases op <;> first | rfl | exact absurd rfl hop
  simp only [besideNull, this]

theorem logical_known (op : BinaryOp) {l r : Value} (hl : l ≠ .null) (hr : r ≠ .null) :
    logical op l r = (do
      let result := bits op (← l.toInteger) (← r.toInteger)
      return if booleanPair l r then .bool (result ≠ 0) else .int result) := by
  cases l <;> cases r <;> first | rfl | exact absurd rfl hl | exact absurd rfl hr

/-- Both operands are known and both fail integer coercion, with failures of different kinds. -/
def ReadingsClash (l r : Value) : Prop :=
  l ≠ .null ∧ r ≠ .null ∧
    ∃ e₁ e₂, l.toInteger = .error e₁ ∧ r.toInteger = .error e₂ ∧ e₁.kindName ≠ e₂.kindName

theorem logical_left_fails (op : BinaryOp) {l r : Value} (hl : l ≠ .null) (hr : r ≠ .null)
    {e : EvalError} (he : l.toInteger = .error e) : logical op l r = .error e := by
  rw [logical_known op hl hr, he]
  rfl

theorem logical_null_swap {op : BinaryOp} (himp : op ≠ .imp) (v : Value) :
    logical op .null v = logical op v .null := by
  by_cases hv : v = .null
  · rw [hv]
  · rw [logical_null_left op hv, logical_null_right op hv, besideNull_side himp]

theorem logical_comm_iff {op : BinaryOp} (hop : op ∈ [BinaryOp.and, .or, .xor, .eqv])
    (l r : Value) : Agree (logical op l r) (logical op r l) ↔ ¬ReadingsClash l r := by
  have himp : op ≠ .imp := by
    rintro rfl
    simp at hop
  by_cases hl : l = .null
  · subst hl
    rw [logical_null_swap himp r]
    exact iff_of_true (Agree.refl _) fun h => h.1 rfl
  by_cases hr : r = .null
  · subst hr
    rw [← logical_null_swap himp l]
    exact iff_of_true (Agree.refl _) fun h => h.2.1 rfl
  have hclash : ReadingsClash l r ↔ ∃ e₁ e₂, l.toInteger = .error e₁ ∧
      r.toInteger = .error e₂ ∧ e₁.kindName ≠ e₂.kindName := by
    simp only [ReadingsClash, ne_eq, hl, hr, not_false_eq_true, true_and]
  rw [hclash]
  cases hx : l.toInteger with
  | error e₁ =>
    cases hy : r.toInteger with
    | error e₂ =>
      rw [logical_left_fails op hl hr hx, logical_left_fails op hr hl hy]
      simp [Agree]
    | ok y =>
      rw [logical_left_fails op hl hr hx, logical_known op hr hl, hy, hx]
      simp [Agree, bind, Except.bind]
  | ok x =>
    rw [logical_known op hl hr, logical_known op hr hl, booleanPair_comm r l, hx]
    cases hy : r.toInteger with
    | error e₂ => simp [Agree, bind, Except.bind]
    | ok y => simp [Agree, bind, Except.bind, pure, Except.pure, bits_comm hop x y]

end Logic

/-! ## Swapping operands -/

/-- Swapping the operands of a comparison reverses the ordering, with the same failure where
there is one; so `<` and `>`, and `<=` and `>=`, agree on swapped operands, and `=` and `<>` are
symmetric. `+` and `*` commute on all values, dates, Null and Empty included. `And`, `Or`, `Xor`
and `Eqv` commute exactly when the readings do not clash; where both known operands fail
integer coercion, each order reports its left operand's failure, labelled with the operand
types in that order. -/
theorem operands_swap (a b : Value) :
    b.compare a = (a.compare b).map (Option.map Ordering.swap) ∧
    Agree (BinaryOp.less.apply a b) (BinaryOp.greater.apply b a) ∧
    Agree (BinaryOp.lessEqual.apply a b) (BinaryOp.greaterEqual.apply b a) ∧
    Agree (BinaryOp.equal.apply a b) (BinaryOp.equal.apply b a) ∧
    Agree (BinaryOp.notEqual.apply a b) (BinaryOp.notEqual.apply b a) ∧
    Agree (BinaryOp.add.apply a b) (BinaryOp.add.apply b a) ∧
    Agree (BinaryOp.multiply.apply a b) (BinaryOp.multiply.apply b a) ∧
    ∀ op ∈ [BinaryOp.and, .or, .xor, .eqv],
      (Agree (op.apply a b) (op.apply b a) ↔ ¬Logic.ReadingsClash a b) ∧
      ∀ e₁ e₂, a ≠ .null → b ≠ .null → a.toInteger = .error e₁ → b.toInteger = .error e₂ →
        op.apply a b = .error (e₁.onOperands op a.type b.type) ∧
        op.apply b a = .error (e₂.onOperands op b.type a.type) := by
  have converse : ∀ op op' : BinaryOp, (∀ l r, op.applyRaw l r = Comparison.apply op l r) →
      (∀ l r, op'.applyRaw l r = Comparison.apply op' l r) →
      (∀ o, Comparison.holds op' o.swap = Comparison.holds op o) →
      Agree (op.apply a b) (op'.apply b a) := fun op op' hraw hraw' h => by
    rw [agree_apply_iff, hraw, hraw', Comparison.apply_converse h]
    exact Agree.refl _
  refine ⟨Value.compare_swap a b, ?_, ?_, ?_, ?_, ?_, ?_, fun op hop => ?_⟩
  · exact converse _ _ (fun _ _ => rfl) (fun _ _ => rfl) fun o => by cases o <;> rfl
  · exact converse _ _ (fun _ _ => rfl) (fun _ _ => rfl) fun o => by cases o <;> rfl
  · exact converse _ _ (fun _ _ => rfl) (fun _ _ => rfl) fun o => by cases o <;> rfl
  · exact converse _ _ (fun _ _ => rfl) (fun _ _ => rfl) fun o => by cases o <;> rfl
  · exact (agree_apply_iff ..).mpr (Arith.arithmetic_comm (.inl rfl) a b)
  · exact (agree_apply_iff ..).mpr (Arith.arithmetic_comm (.inr rfl) a b)
  have hlog : op ∈ BinaryOp.logicalOps := by
    simp only [List.mem_cons, List.not_mem_nil, or_false] at hop
    rcases hop with rfl | rfl | rfl | rfl <;> simp [BinaryOp.logicalOps]
  refine ⟨?_, fun e₁ e₂ ha hb h₁ h₂ => ?_⟩
  · rw [agree_apply_iff, BinaryOp.applyRaw_logical hlog, BinaryOp.applyRaw_logical hlog]
    exact Logic.logical_comm_iff hop a b
  · rw [BinaryOp.apply_eq_mapError, BinaryOp.apply_eq_mapError, BinaryOp.applyRaw_logical hlog,
      BinaryOp.applyRaw_logical hlog, Logic.logical_left_fails op ha hb h₁,
      Logic.logical_left_fails op hb ha h₂]
    exact ⟨rfl, rfl⟩

/-- `True Xor 5` and `5 Xor True` agree. -/
theorem true_xor_five_commutes :
    BinaryOp.xor ∈ [BinaryOp.and, .or, .xor, .eqv] ∧
      Agree (BinaryOp.xor.apply (.bool true) (.int 5))
        (BinaryOp.xor.apply (.int 5) (.bool true)) := by
  have hmem : BinaryOp.xor ∈ [BinaryOp.and, .or, .xor, .eqv] := by simp
  refine ⟨hmem, ?_⟩
  refine ((operands_swap (.bool true) (.int 5)).2.2.2.2.2.2.2 .xor hmem).1.mpr ?_
  rintro ⟨-, -, e₁, -, h₁, -⟩
  cases h₁

/-- `"abc" And 1E19` is a type mismatch, and `1E19 And "abc"` an overflow: each order fails on
its left operand. -/
theorem text_and_huge_double_disagree :
    ¬ Agree (BinaryOp.and.apply (.text "abc") (.double ⟨0x43e158e460913d00⟩))
      (BinaryOp.and.apply (.double ⟨0x43e158e460913d00⟩) (.text "abc")) := by
  have h₁ : BinaryOp.and.apply (.text "abc") (.double ⟨0x43e158e460913d00⟩) =
      .error (.operandMismatch .and .string .double (.notNumeric "abc")) := rfl
  have h₂ : BinaryOp.and.apply (.double ⟨0x43e158e460913d00⟩) (.text "abc") = .error .overflow :=
    rfl
  rw [h₁, h₂]
  show ¬ "InvalidOperandType" = "Overflow"
  decide

end ScriptFold
