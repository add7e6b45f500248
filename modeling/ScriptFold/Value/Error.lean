import ScriptFold.Value.Basic
import ScriptFold.Operator.Basic
import ScriptFold.Numeral.Notation
/-!
Why an operation on known values fails. A failure is a type mismatch with its cause, a
division by zero, or an overflow (a result that no value can hold). An infix operator reports a
mismatch together with its own spelling and the types of both operands; a prefix operator and a
coercion report the cause alone. `EvalError.message` is the one place where the wording lives.
-/
namespace ScriptFold

set_option autoImplicit false

/-- The cause of a type mismatch. -/
inductive Mismatch where
  /-- A string that does not read as a number. -/
  | notNumeric (s : String)
  /-- Null where a number is needed. -/
  | nullUse
  /-- A string compared with a date that does not read as a date. -/
  | notDate (s : String)
  /-- A power whose result is not a number, such as a negative base and a fractional
  exponent. -/
  | fractionalPower (base exponent : Float)

/-- Numbers in messages: the shortest digits that read back, always positional, with no `.0`
on whole numbers. -/
def Mismatch.numberNotation : Numeral.Notation :=
  { positional := none, pointZero := false, mark := 'e', plusSign := false,
    exponentWidth := 1, signedZero := true }

/-- The text of a mismatch cause. -/
def Mismatch.message : Mismatch → String
  | .notNumeric s => "\"" ++ s ++ "\" is not numeric"
  | .nullUse => "invalid use of Null"
  | .notDate s => "\"" ++ s ++ "\" is not a date"
  | .fractionalPower b e =>
    numberNotation.shortest (.ofFloat b) ++ " cannot be raised to the fractional power " ++
      numberNotation.shortest (.ofFloat e)

/-- Why an operation on known values fails. -/
inductive EvalError where
  /-- A mismatch reported by a coercion or a prefix operator. -/
  | mismatch (cause : Mismatch)
  /-- A mismatch reported by an infix operator, with the operand types in order. -/
  | operandMismatch (op : BinaryOp) (left right : ValueType) (cause : Mismatch)
  | divisionByZero
  | overflow

namespace EvalError

def message : EvalError → String
  | .mismatch cause => cause.message
  | .operandMismatch op l r cause =>
    "'" ++ op.symbol ++ "' on " ++ l.name ++ " and " ++ r.name ++ ": " ++ cause.message
  | .divisionByZero => "division by zero"
  | .overflow => "overflow"

def kindName : EvalError → String
  | .mismatch _ | .operandMismatch .. => "InvalidOperandType"
  | .divisionByZero => "DivisionByZero"
  | .overflow => "Overflow"

/-- An infix operator names itself and its operand types in a mismatch it reports. -/
def onOperands (op : BinaryOp) (left right : ValueType) : EvalError → EvalError
  | .mismatch cause => .operandMismatch op left right cause
  | e => e

end EvalError

end ScriptFold
