import ScriptFold.Numeral.Digits
/-!
How a decimal is laid out as text. A `Notation` gathers the decisions of one number format:
which exponents are written positionally, whether a whole number keeps `.0`, the exponent's
mark, sign and width, and whether zero shows its sign. `Notation.render` lays out `Digits`
accordingly; `Notation.shortest` and `Notation.significant` write a double with the shortest
round-trip digits or with a fixed number of significant digits. NaN and the infinities are
written `NaN`, `inf` and `-inf` in every notation.
-/
namespace ScriptFold.Numeral

set_option autoImplicit false

/-- The layout decisions of one number format. -/
structure Notation where
  /-- The scientific exponents written positionally, both ends included; `none` for all. -/
  positional : Option (Int × Int)
  /-- A positional whole number ends in `.0`. -/
  pointZero : Bool
  /-- The letter before an exponent. -/
  mark : Char
  /-- A nonnegative exponent is written with `+`. -/
  plusSign : Bool
  /-- The least number of exponent digits, zeros padding in front. -/
  exponentWidth : Nat
  /-- Negative zero is written with its sign. -/
  signedZero : Bool
  /-- How the shortest digits settle a tie between two equally near candidates. -/
  halfway : Digits.Halfway := .up

namespace Notation

def padded (width n : Nat) : String :=
  let s := toString n
  String.ofList (List.replicate (width - s.length) '0') ++ s

/-- Is a number with scientific exponent `e` written positionally? -/
def isPositional (f : Notation) (e : Int) : Bool :=
  match f.positional with
  | none => true
  | some (lo, hi) => lo ≤ e && e ≤ hi

/-- The digits `d` laid out without the sign. -/
def body (f : Notation) (d : Digits) : String :=
  let ds := d.digits
  if f.isPositional d.exponent then
    if 0 ≤ d.exponent then
      let whole := d.exponent.toNat + 1
      let intPart := String.ofList (ds.take whole ++ List.replicate (whole - ds.length) '0')
      let fracPart := ds.drop whole
      if fracPart.isEmpty then
        if f.pointZero then intPart ++ ".0" else intPart
      else intPart ++ "." ++ String.ofList fracPart
    else
      "0." ++ String.ofList (List.replicate ((-d.exponent).toNat - 1) '0' ++ ds)
  else
    let lead := String.ofList (ds.take 1)
    let rest := ds.drop 1
    let mantissa := if rest.isEmpty then lead else lead ++ "." ++ String.ofList rest
    let sign := if d.exponent < 0 then "-" else if f.plusSign then "+" else ""
    mantissa ++ f.mark.toString ++ sign ++ padded f.exponentWidth d.exponent.natAbs

/-- A signed decimal laid out; zero's sign shows only when the notation says so. -/
def render (f : Notation) (negative : Bool) (d : Digits) : String :=
  let isZero := d.digits = ['0']
  let sign := if negative && (f.signedZero || !isZero) then "-" else ""
  sign ++ f.body d

/-- A double written with the fewest digits that read back as it. -/
def shortest (f : Notation) (x : Double) : String :=
  match x.decode with
  | .nan => "NaN"
  | .infinite negative => if negative then "-inf" else "inf"
  | .finite negative m e => f.render negative (Digits.shortest f.halfway m e)

/-- A double rounded to `places` significant digits, ties to even, trailing zeros dropped. -/
def significant (f : Notation) (places : Nat) (x : Double) : String :=
  match x.decode with
  | .nan => "NaN"
  | .infinite negative => if negative then "-inf" else "inf"
  | .finite negative m e =>
    let (num, den) := Binary64.fraction m e
    f.render negative (Digits.significant places num den)

end Notation

end ScriptFold.Numeral
