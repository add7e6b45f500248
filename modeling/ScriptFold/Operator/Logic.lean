import ScriptFold.Value.Numeric
/-!
The logical operators `And`, `Or`, `Xor`, `Eqv` and `Imp`. They work bit by bit on 64-bit
integers; True is -1, so on two booleans the bitwise result is the truth table, and a pair of
booleans, or a boolean beside Empty, gives a boolean back.

Null stands for an unknown truth value: the result is known only when the other operand settles
it whatever Null stands for (`Null And False` is False, `True Or Null` is True, `Null Imp True`
and `False Imp Null` are True), and is Null otherwise.
-/
namespace ScriptFold

set_option autoImplicit false

namespace Logic

/-- The bitwise meaning of a logical operator. -/
def bits (op : BinaryOp) (a b : Int64) : Int64 :=
  match op with
  | .and => a &&& b
  | .or => a ||| b
  | .xor => a ^^^ b
  | .eqv => ~~~(a ^^^ b)
  | _ => ~~~a ||| b

/-- Do the operands combine as booleans rather than as integers? -/
def booleanPair : Value → Value → Bool
  | .bool _, .bool _ => true
  | .bool _, .empty => true
  | .empty, .bool _ => true
  | _, _ => false

/-- Does a known operand read as a boolean in a result? -/
def isBooleanLike : Value → Bool
  | .bool _ => true
  | .empty => true
  | _ => false

/-- The result that the known operand `k` settles beside Null, if it settles one: `And` with
0, `Or` with -1, `Null Imp` -1 and `0 Imp Null`. -/
def settled (op : BinaryOp) (nullOnLeft : Bool) (k : Int64) : Option Int64 :=
  match op with
  | .and => if k = 0 then some 0 else none
  | .or => if k = -1 then some (-1) else none
  | .imp =>
    if nullOnLeft && k = -1 then some (-1)
    else if !nullOnLeft && k = 0 then some (-1)
    else none
  | _ => none

/-- A logical operator beside Null, given the known operand and the side Null is on. -/
def besideNull (op : BinaryOp) (known : Value) (nullOnLeft : Bool) : Except EvalError Value := do
  let k ← known.toInteger
  match settled op nullOnLeft k with
  | none => return .null
  | some b => return if isBooleanLike known then .bool (b ≠ 0) else .int b

/-- A logical operator on known values. -/
def logical (op : BinaryOp) (l r : Value) : Except EvalError Value :=
  match l, r with
  | .null, .null => .ok .null
  | .null, known => besideNull op known true
  | known, .null => besideNull op known false
  | _, _ => do
    let result := bits op (← l.toInteger) (← r.toInteger)
    return if booleanPair l r then .bool (result ≠ 0) else .int result

end Logic

end ScriptFold
