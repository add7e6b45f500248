import ScriptFold.Value.Numeric
import ScriptFold.Calendar.Pattern
/-!
Comparison of known values. Null compares with nothing. Strings compare by code point, and
Empty stands for the empty string beside a string. A date beside a string reads the string as
date text, which must succeed. A string beside any other value is compared as a number when it
reads as one, and otherwise is the greater. All else compares numerically: integers exactly,
anything else as doubles, where NaN is equal to everything.

Main definitions: `Value.compare` and `Comparison.apply`, the six comparison operators.
-/
namespace ScriptFold

set_option autoImplicit false

namespace Comparison

/-- Lists of characters ordered by code point, a proper prefix first. -/
def compareChars : List Char → List Char → Ordering
  | [], [] => .eq
  | [], _ :: _ => .lt
  | _ :: _, [] => .gt
  | a :: as, b :: bs =>
    match Ord.compare a.toNat b.toNat with
    | .eq => compareChars as bs
    | o => o

/-- Strings ordered by code point. -/
def compareText (a b : String) : Ordering :=
  compareChars a.toList b.toList

/-- Doubles ordered numerically; NaN is equal to everything. -/
def compareFloats (x y : Float) : Ordering :=
  if x < y then .lt else if y < x then .gt else .eq

/-- Numbers ordered: two integers exactly, anything else as doubles. -/
def compareNumbers : Number → Number → Ordering
  | .int x, .int y => Ord.compare x.toInt y.toInt
  | a, b => compareFloats a.toFloat b.toFloat

/-- The date that a string compared with a date stands for. -/
def dateOperand (s : String) : Except EvalError Moment :=
  match Moment.ofText? s with
  | some t => .ok t
  | none => .error (.mismatch (.notDate s))

end Comparison

namespace Value

open Comparison in
/-- Three-way comparison of known values; `none` when either side is Null. -/
def compare (l r : Value) : Except EvalError (Option Ordering) :=
  match l, r with
  | .null, _ => .ok none
  | _, .null => .ok none
  | .text a, .text b => .ok (some (compareText a b))
  | .text s, .empty => .ok (some (compareText s ""))
  | .empty, .text s => .ok (some (compareText "" s))
  | .date d, .text s => do return some (d.compare (← dateOperand s))
  | .text s, .date d => do return some ((← dateOperand s).compare d)
  | .text s, other =>
    match readNumber? s with
    | some n => do return some (compareNumbers n (← other.toNumber))
    | none => .ok (some .gt)
  | other, .text s =>
    match readNumber? s with
    | some n => do return some (compareNumbers (← other.toNumber) n)
    | none => .ok (some .lt)
  | .date a, .date b => .ok (some (a.compare b))
  | a, b => do return some (compareNumbers (← a.toNumber) (← b.toNumber))

end Value

namespace Comparison

/-- Does an ordering satisfy a comparison operator? -/
def holds (op : BinaryOp) (o : Ordering) : Bool :=
  match op with
  | .equal => o == .eq
  | .notEqual => o != .eq
  | .less => o == .lt
  | .lessEqual => o != .gt
  | .greater => o == .gt
  | _ => o != .lt

/-- A comparison operator on known values: a boolean, or Null beside Null. -/
def apply (op : BinaryOp) (l r : Value) : Except EvalError Value := do
  match ← l.compare r with
  | none => return .null
  | some o => return .bool (holds op o)

end Comparison

end ScriptFold
