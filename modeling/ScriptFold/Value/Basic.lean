import ScriptFold.Calendar.Moment
import ScriptFold.Numeral.Binary64
/-!
Values of script expressions: Empty, Null, booleans, 64-bit integers, doubles, strings and
dates. A value's type has a name, which error messages use. `Number` is what numeric
coercion yields: a 64-bit integer or a double.
-/
namespace ScriptFold

set_option autoImplicit false

inductive ValueType where
  | empty
  | null
  | boolean
  | integer
  | double
  | string
  | date
deriving DecidableEq, Repr

/-- The name of a type in diagnostics. -/
def ValueType.name : ValueType → String
  | .empty => "Empty"
  | .null => "Null"
  | .boolean => "Boolean"
  | .integer => "Integer"
  | .double => "Double"
  | .string => "String"
  | .date => "Date"

/-- A fully known value. -/
inductive Value where
  /-- Uninitialised: 0 in arithmetic, the empty string in text. -/
  | empty
  /-- No valid data; it spreads through most operators. -/
  | null
  | bool (b : Bool)
  | int (i : Int64)
  | double (x : Numeral.Double)
  | text (s : String)
  | date (t : Moment)

namespace Value

def type : Value → ValueType
  | .empty => .empty
  | .null => .null
  | .bool _ => .boolean
  | .int _ => .integer
  | .double _ => .double
  | .text _ => .string
  | .date _ => .date

def isNull : Value → Bool
  | .null => true
  | _ => false

end Value

/-- The numeric view of a value: a 64-bit integer or a double. -/
inductive Number where
  | int (i : Int64)
  | double (x : Numeral.Double)

namespace Number

/-- The number as a double; a large integer rounds to the nearest double. -/
def toFloat : Number → Float
  | .int i => Float.ofInt i.toInt
  | .double x => x.toFloat

def toValue : Number → Value
  | .int i => .int i
  | .double x => .double x

end Number

end ScriptFold
