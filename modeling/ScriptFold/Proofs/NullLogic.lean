import Mathlib
import ScriptFold.Operator.Apply
/-!
# Null as an unknown truth value

`And`, `Or`, `Xor`, `Eqv` and `Imp` read Null as an operand whose value is not known: False or
True, `0` or `-1` in the bitwise view. The result is known exactly when both readings give the
same bits (`Logic.unknownResult`), and the table of settling operands that the operators use
(`Logic.settled`) is that rule, operator by operator (`Logic.settled_eq_reading`).

A known operand that has no integer makes the operator fail with the coercion's own error,
labelled with the operator and the operand types: a type mismatch, or an overflow for a number
outside the 64-bit range (`Logic.besideNull_error`).

Main statement: `logic_beside_null`.
-/
namespace ScriptFold

set_option autoImplicit false

namespace BinaryOp

/-- The logical operators. -/
def logicalOps : List BinaryOp := [.and, .or, .xor, .eqv, .imp]

theorem applyRaw_logical {op : BinaryOp} (hop : op ∈ logicalOps) (l r : Value) :
    op.applyRaw l r = Logic.logical op l r := by
  simp only [logicalOps, List.mem_cons, List.not_mem_nil, or_false] at hop
  rcases hop with rfl | rfl | rfl | rfl | rfl <;> rfl

theorem apply_eq_mapError (op : BinaryOp) (l r : Value) :
    op.apply l r = (op.applyRaw l r).mapError (·.onOperands op l.type r.type) := by
  unfold apply
  cases op.applyRaw l r <;> rfl

end BinaryOp

namespace Logic

/-- What a logical operator gives beside an unknown operand, where `reading n` is its bitwise
result with the unknown read as `n`: Null unless reading it as False (`0`) and as True (`-1`)
agree, and then the agreed bits, a boolean beside a boolean or Empty and an integer otherwise. -/
def unknownResult (reading : Int64 → Int64) (known : Value) : Value :=
  if reading 0 = reading (-1) then
    match known with
    | .bool _ | .empty => .bool (reading 0 ≠ 0)
    | _ => .int (reading 0)
  else .null

/-- The bitwise reading of a logical operator whose operand on one side is unknown. -/
def reading (op : BinaryOp) (nullOnLeft : Bool) (k n : Int64) : Int64 :=
  if nullOnLeft then bits op n k else bits op k n

theorem not_eq_neg_one_iff (x : Int64) : ~~~x = -1 ↔ x = 0 := by
  constructor
  · intro h
    simpa using congrArg (~~~·) h
  · rintro rfl
    rfl

theorem settled_eq_reading {op : BinaryOp} (hop : op ∈ BinaryOp.logicalOps) (side : Bool)
    (k : Int64) :
    settled op side k =
      if reading op side k 0 = reading op side k (-1) then some (reading op side k 0)
      else none := by
  simp only [BinaryOp.logicalOps, List.mem_cons, List.not_mem_nil, or_false] at hop
  rcases hop with rfl | rfl | rfl | rfl | rfl <;> cases side <;>
    simp only [settled, reading, bits] <;> simp [eq_comm, not_eq_neg_one_iff]
  all_goals split <;> simp_all

theorem settled_result {op : BinaryOp} (hop : op ∈ BinaryOp.logicalOps) (side : Bool)
    (known : Value) (k : Int64) :
    (match settled op side k with
      | none => Value.null
      | some b => if isBooleanLike known then .bool (b ≠ 0) else .int b) =
      unknownResult (reading op side k) known := by
  rw [settled_eq_reading hop]
  by_cases h : reading op side k 0 = reading op side k (-1) <;>
    cases known <;> simp [unknownResult, h, isBooleanLike]

theorem besideNull_ok {op : BinaryOp} (hop : op ∈ BinaryOp.logicalOps) {known : Value}
    {k : Int64} (hk : known.toInteger = .ok k) (side : Bool) :
    besideNull op known side = .ok (unknownResult (reading op side k) known) := by
  simp only [besideNull, hk, bind, Except.bind, pure, Except.pure]
  rw [← settled_result hop side known k]
  cases settled op side k <;> rfl

theorem besideNull_error {op : BinaryOp} {known : Value} {e : EvalError}
    (hk : known.toInteger = .error e) (side : Bool) : besideNull op known side = .error e := by
  simp only [besideNull, hk, bind, Except.bind]

theorem logical_null_left (op : BinaryOp) {known : Value} (hk : known ≠ .null) :
    logical op .null known = besideNull op known true := by
  cases known <;> first | rfl | exact absurd rfl hk

theorem logical_null_right (op : BinaryOp) {known : Value} (hk : known ≠ .null) :
    logical op known .null = besideNull op known false := by
  cases known <;> first | rfl | exact absurd rfl hk

end Logic

open Logic in
/-- Null is an unknown truth value to the logical operators. Beside a known value `k` whose
integer is `x`, an operator gives what the two readings of the unknown, as False and as True,
agree on, and Null when they differ; beside Null, Null. When `k` has no integer, the operator
fails with the coercion's error, labelled with the operator and the operand types in order. -/
theorem logic_beside_null (op : BinaryOp) (hop : op ∈ BinaryOp.logicalOps) (k : Value)
    (hk : k ≠ .null) :
    op.apply .null .null = .ok .null ∧
    (∀ e, k.toInteger = .error e →
      op.apply .null k = .error (e.onOperands op .null k.type) ∧
      op.apply k .null = .error (e.onOperands op k.type .null)) ∧
    (∀ x, k.toInteger = .ok x →
      op.apply .null k = .ok (unknownResult (fun n => bits op n x) k) ∧
      op.apply k .null = .ok (unknownResult (fun n => bits op x n) k)) := by
  simp only [BinaryOp.apply_eq_mapError, BinaryOp.applyRaw_logical hop,
    logical_null_left op hk, logical_null_right op hk]
  refine ⟨rfl, fun e he => ?_, fun x hx => ?_⟩
  · simp only [besideNull_error he]
    exact ⟨rfl, rfl⟩
  · simp only [besideNull_ok hop hx]
    exact ⟨rfl, rfl⟩

/-- `Null Imp True` is True: read as False or as True, the unknown implies True. -/
theorem null_imp_true_is_true :
    BinaryOp.imp ∈ BinaryOp.logicalOps ∧ Value.bool true ≠ .null ∧
      BinaryOp.imp.apply .null (.bool true) = .ok (.bool true) := by
  have hop : BinaryOp.imp ∈ BinaryOp.logicalOps := by simp [BinaryOp.logicalOps]
  have hk : Value.bool true ≠ .null := by simp
  refine ⟨hop, hk, ?_⟩
  rw [((logic_beside_null .imp hop (.bool true) hk).2.2 (-1) rfl).1]
  rfl

/-- A double past the 64-bit range has no integer, so `Null And 1E19` overflows, although it is
no type mismatch. -/
theorem null_and_huge_double_overflows :
    (Value.double ⟨0x43e158e460913d00⟩).toInteger = .error .overflow ∧
      BinaryOp.and.apply .null (.double ⟨0x43e158e460913d00⟩) = .error .overflow :=
  ⟨rfl, rfl⟩

end ScriptFold
