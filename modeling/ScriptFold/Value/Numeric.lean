import ScriptFold.Value.Error
import ScriptFold.Numeral.Read
import ScriptFold.Text.Blank
/-!
Numeric coercion. Empty is 0, True is -1 and False 0, a date is its serial, and a string must
read as a number: blanks around it are ignored, `&H` and `&O` introduce hexadecimal and octal
digits (a 64-bit pattern, so `&HFFFFFFFFFFFFFFFF` is -1), and otherwise only digits, points,
exponent letters and signs may appear; an integer that fits in 64 bits stays an integer, and
anything else must read as a finite double. Null has no number.

Main definitions: `Value.readNumber?`, `Value.readRadix?`, `Value.toNumber`, `Value.toInteger`.
-/
namespace ScriptFold

set_option autoImplicit false

-- Powers are core's `Nat.pow` and `Int.pow`, whatever other power instances are in scope; a
-- literal exponent is written with its type, so that no default power instance is taken for it.
attribute [local instance (high)] instPowNat

def fitsInt64 (n : Int) : Bool :=
  -2 ^ (63 : Nat) ≤ n && n < 2 ^ (63 : Nat)

def toInt64? (n : Int) : Option Int64 :=
  if fitsInt64 n then some (Int64.ofInt n) else none

namespace Value

/-- Digits of `radix` with an optional trailing `&`, as a 64-bit pattern read as a signed
integer. -/
def readRadix? (radix : Nat) (s : List Char) : Option Int64 :=
  let digits := if s.getLast? = some '&' then s.dropLast else s
  if digits.isEmpty then none
  else (Numeral.readRadix? radix digits).bind fun n =>
    if n < 2 ^ (64 : Nat) then
      some (Int64.ofInt (if n < 2 ^ (63 : Nat) then n else n - 2 ^ (64 : Nat)))
    else none

/-- Characters that may appear in decimal number text. -/
def isNumberChar (c : Char) : Bool :=
  c.isDigit || c == '.' || c == 'e' || c == 'E' || c == '+' || c == '-'

/-- Read a string the way numeric coercion does. -/
def readNumber? (s : String) : Option Number :=
  match Text.trimBlanks s.toList with
  | [] => none
  | '&' :: m :: rest@(_ :: _) =>
    if m.toUpper == 'H' then (readRadix? 16 rest).map .int
    else if m.toUpper == 'O' then (readRadix? 8 rest).map .int
    else none
  | t =>
    if !t.all isNumberChar then none
    else match (Numeral.readInt? t).bind toInt64? with
      | some i => some (.int i)
      | none => (Numeral.readFloat? t).bind fun x =>
        if x.isFinite then some (.double (.ofFloat x)) else none

def toNumber : Value → Except EvalError Number
  | .empty => .ok (.int 0)
  | .bool b => .ok (.int (if b then -1 else 0))
  | .int i => .ok (.int i)
  | .double x => .ok (.double x)
  | .date t => .ok (.double (.ofFloat t.serial))
  | .text s =>
    match readNumber? s with
    | some n => .ok n
    | none => .error (.mismatch (.notNumeric s))
  | .null => .error (.mismatch .nullUse)

end Value

namespace Number

/-- Truncate toward zero; doubles outside the 64-bit range, and NaN and the infinities,
overflow. -/
def truncate : Number → Except EvalError Int64
  | .int i => .ok i
  | .double x =>
    match x.decode.towardZero? >>= toInt64? with
    | some i => .ok i
    | none => .error .overflow

end Number

namespace Value

/-- Integer coercion: numeric coercion, then truncation. -/
def toInteger (v : Value) : Except EvalError Int64 :=
  v.toNumber >>= Number.truncate

end Value

end ScriptFold
