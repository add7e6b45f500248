import ScriptFold.Operator.Arith
import ScriptFold.Operator.Order
import ScriptFold.Operator.Logic
import ScriptFold.Value.Text
/-!
Applying an operator to known values, the rule that constant folding uses.

An infix operator dispatches on its family (arithmetic, integer division, power, `&`,
comparison, logic) and reports a type mismatch with its own spelling and both operand types.
`&` joins the string coercions of its operands, Null only beside Null. A prefix operator gives
Null on Null; `+` checks that its operand is numeric and keeps it as it is, `-` negates (the
least integer becomes a double), and `Not` negates a boolean or complements the bits of an
integer.
-/
namespace ScriptFold

set_option autoImplicit false

/-- `&`: the string coercions joined; Null only when both sides are Null. -/
def Value.concat (l r : Value) : Value :=
  if l.isNull && r.isNull then .null else .text (l.display ++ r.display)

namespace BinaryOp

/-- The operator on known values, before mismatches are labelled with the operator. -/
def applyRaw (op : BinaryOp) (l r : Value) : Except EvalError Value :=
  match op with
  | .add | .subtract | .multiply | .divide => Arith.arithmetic op l r
  | .intDivide | .modulo => Arith.integerDivision op l r
  | .power => Arith.power l r
  | .concat => .ok (l.concat r)
  | .equal | .notEqual | .less | .lessEqual | .greater | .greaterEqual =>
    Comparison.apply op l r
  | .and | .or | .xor | .eqv | .imp => Logic.logical op l r

/-- An infix operator on known values. -/
def apply (op : BinaryOp) (l r : Value) : Except EvalError Value :=
  match op.applyRaw l r with
  | .ok v => .ok v
  | .error e => .error (e.onOperands op l.type r.type)

end BinaryOp

namespace UnaryOp

/-- A prefix operator on known values. -/
def apply (op : UnaryOp) (v : Value) : Except EvalError Value :=
  if v.isNull then .ok .null
  else
    match op with
    | .plus => do
      let _ ← v.toNumber
      return v
    | .negate => do
      match ← v.toNumber with
      | .int i =>
        if i = Int64.minValue then return .double (.ofFloat (-(Float.ofInt i.toInt)))
        else return .int (-i)
      | .double x => return .double x.neg
    | .not =>
      match v with
      | .bool b => .ok (.bool !b)
      | other => do return .int (~~~(← other.toInteger))

end UnaryOp

end ScriptFold
