import ScriptFold.Value.Numeric
/-!
Arithmetic on known values: `+ - * /`, `\` and `Mod`, and `^`.

* Null on either side gives Null.
* A date moves by a number of days under `+` and `-`, and two dates subtract to a day count;
  a moved date outside the supported years overflows.
* `+ - *` stay integral while both operands are integers and the exact result fits in 64 bits,
  and otherwise work on doubles; `/` always divides doubles and refuses a zero divisor.
* `\` and `Mod` truncate both operands to integers first; the quotient truncates toward zero and
  the remainder takes the dividend's sign.
* `^` stays integral for a nonnegative integer exponent when the exact power fits.
* A double result that is infinite or NaN overflows.
-/
namespace ScriptFold

set_option autoImplicit false

-- Powers are core's `Nat.pow` and `Int.pow`, whatever other power instances are in scope.
attribute [local instance (high)] instPowNat

namespace Arith

def finite (x : Float) : Except EvalError Value :=
  if x.isFinite then .ok (.double (.ofFloat x)) else .error .overflow

/-- The 64-bit result of an exact integer operation, if it fits. -/
def exact (n : Int) : Option Int64 := toInt64? n

/-- The exact integer result of `+`, `-` or `*`, and the double operation otherwise. -/
def intOp? : BinaryOp → Option (Int → Int → Int)
  | .add => some (· + ·)
  | .subtract => some (· - ·)
  | .multiply => some (· * ·)
  | _ => none

def floatOp (op : BinaryOp) (a b : Float) : Float :=
  match op with
  | .add => a + b
  | .subtract => a - b
  | _ => a * b

/-- The date that a serial names, or an overflow. -/
def moved (serial : Float) : Except EvalError (Option Value) :=
  match Moment.ofSerial? serial with
  | some t => .ok (some (.date t))
  | none => .error .overflow

/-- Date arithmetic: a date plus or minus a number of days, and the day count between two
dates. `none` when neither rule applies. -/
def dateArithmetic (op : BinaryOp) (l r : Value) : Except EvalError (Option Value) :=
  match op, l, r with
  | .subtract, .date a, .date b => .ok (some (.double (.ofFloat (a.serial - b.serial))))
  | .add, .date d, other => do moved (d.serial + (← other.toNumber).toFloat)
  | .add, other, .date d => do moved (d.serial + (← other.toNumber).toFloat)
  | .subtract, .date d, other => do moved (d.serial - (← other.toNumber).toFloat)
  | _, _, _ => .ok none

/-- `+`, `-`, `*` and `/` on known values. -/
def arithmetic (op : BinaryOp) (l r : Value) : Except EvalError Value := do
  if l.isNull || r.isNull then return .null
  match ← dateArithmetic op l r with
  | some v => .ok v
  | none =>
    let a ← l.toNumber
    let b ← r.toNumber
    if op = .divide then
      let divisor := b.toFloat
      if divisor == 0.0 then .error .divisionByZero
      else finite (a.toFloat / divisor)
    else
      let integral : Option Int64 :=
        match a, b, intOp? op with
        | .int x, .int y, some f => exact (f x.toInt y.toInt)
        | _, _, _ => none
      match integral with
      | some i => .ok (.int i)
      | none => finite (floatOp op a.toFloat b.toFloat)

/-- `\` and `Mod`: both operands truncated to integers, the quotient toward zero and the
remainder with the dividend's sign. The least integer divided by -1 overflows; its remainder
is 0. -/
def integerDivision (op : BinaryOp) (l r : Value) : Except EvalError Value := do
  if l.isNull || r.isNull then return .null
  let a ← l.toInteger
  let b ← r.toInteger
  if b.toInt = 0 then .error .divisionByZero
  else if op = .modulo then .ok (.int (Int64.ofInt (a.toInt.tmod b.toInt)))
  else
    match exact (a.toInt.tdiv b.toInt) with
    | some q => .ok (.int q)
    | none => .error .overflow

/-- The exact power of integers, if it fits in 64 bits, for a nonnegative exponent. Bases 0,
1 and -1 never overflow however large the exponent, and `0 ^ 0` is 1; a base of magnitude 2
or more overflows past the 63rd power. -/
def intPower? (b e : Int) : Option Int64 :=
  if b = 0 then some (if e = 0 then 1 else 0)
  else if b = 1 then some 1
  else if b = -1 then some (if e % 2 = 0 then 1 else -1)
  else if e ≥ 64 then none
  else exact (b ^ e.toNat)

/-- `^` on known values. -/
def power (l r : Value) : Except EvalError Value := do
  if l.isNull || r.isNull then return .null
  let base ← l.toNumber
  let exponent ← r.toNumber
  let integral : Option Int64 :=
    match base, exponent with
    | .int b, .int e => if 0 ≤ e.toInt then intPower? b.toInt e.toInt else none
    | _, _ => none
  match integral with
  | some i => .ok (.int i)
  | none =>
    let b := base.toFloat
    let e := exponent.toFloat
    if b == 0.0 && e < 0.0 then .error .divisionByZero
    else
      let p := b.pow e
      if p.isNaN then .error (.mismatch (.fractionalPower b e))
      else finite p

end Arith

end ScriptFold
