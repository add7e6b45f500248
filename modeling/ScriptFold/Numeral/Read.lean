import ScriptFold.Numeral.Digits
import ScriptFold.Numeral.Binary64
/-!
Reading number text. Three readers, each over a list of characters and each refusing anything
beyond its grammar:

* `readInt?`: an optional sign and at least one decimal digit;
* `readRadix?`: an optional `+` and at least one digit of the radix, letters in either case;
* `readFloat?`: an optional sign, digits with an optional point (at least one digit on some
  side of it), and an optional exponent `e` or `E` with an optional sign and at least one
  digit. The value is the double nearest to the decimal, a tie going to the even mantissa, as
  `Float.ofScientific` computes it; exponents far outside the range of doubles go straight to
  zero or infinity.
-/
namespace ScriptFold.Numeral

set_option autoImplicit false

/-- The value of decimal digits; the empty list reads as zero. -/
def digitsValue (cs : List Char) : Nat :=
  cs.foldl (fun n c => 10 * n + (c.toNat - '0'.toNat)) 0

/-- The value of a digit in radices up to 36: `0`–`9`, then the letters in either case. -/
def digitValue (c : Char) : Option Nat :=
  if c.isDigit then some (c.toNat - '0'.toNat)
  else if c.isLower then some (c.toNat - 'a'.toNat + 10)
  else if c.isUpper then some (c.toNat - 'A'.toNat + 10)
  else none

def splitSign : List Char → Bool × List Char
  | '-' :: rest => (true, rest)
  | '+' :: rest => (false, rest)
  | cs => (false, cs)

/-- An optional sign and at least one decimal digit. -/
def readInt? (cs : List Char) : Option Int :=
  let (negative, ds) := splitSign cs
  if !ds.isEmpty && ds.all Char.isDigit then
    let n : Int := digitsValue ds
    some (if negative then -n else n)
  else none

/-- The value of digits of `radix`, most significant first; none if one is no such digit. -/
def radixDigits (radix : Nat) (cs : List Char) : Option Nat :=
  cs.foldlM (fun n c => (digitValue c).bind fun d =>
    if d < radix then some (radix * n + d) else none) 0

/-- An optional `+` and at least one digit of `radix`. -/
def readRadix? (radix : Nat) (cs : List Char) : Option Nat :=
  let ds := match cs with
    | '+' :: rest => rest
    | _ => cs
  if ds.isEmpty then none else radixDigits radix ds

/-- The double nearest to `mantissa · 10 ^ exp10`. -/
def scaledFloat (mantissa : Nat) (exp10 : Int) : Float :=
  if mantissa = 0 then 0.0
  else
    let top := exp10 + Digits.digitCount mantissa
    -- the value lies below `10 ^ top`: past `10 ^ 310` it is infinite, under `10 ^ -326`
    -- it is nearer to zero than to the least subnormal
    if top > 310 then 1.0 / 0.0
    else if top < -326 then 0.0
    else if exp10 < 0 then Float.ofScientific mantissa true (-exp10).toNat
    else Float.ofScientific mantissa false exp10.toNat

/-- The exponent part after the mantissa: empty, or `e`/`E`, a sign and digits. -/
def readExponent? : List Char → Option Int
  | [] => some 0
  | e :: rest =>
    if e == 'e' || e == 'E' then readInt? rest else none

/-- Decimal text with an optional sign, point and exponent. -/
def readFloat? (cs : List Char) : Option Float :=
  let (negative, body) := splitSign cs
  let whole := body.takeWhile Char.isDigit
  let afterWhole := body.drop whole.length
  let (fraction, afterFraction) := match afterWhole with
    | '.' :: rest => (rest.takeWhile Char.isDigit, rest.dropWhile Char.isDigit)
    | _ => ([], afterWhole)
  if whole.isEmpty && fraction.isEmpty then none
  else
    match readExponent? afterFraction with
    | none => none
    | some exp =>
      let magnitude := scaledFloat (digitsValue (whole ++ fraction)) (exp - fraction.length)
      some (if negative then -magnitude else magnitude)

/-- Decimal text, or one of the words `inf`, `infinity` and `nan` in any letter case, with an
optional sign that also a NaN keeps. -/
def readDouble? (cs : List Char) : Option Double :=
  let (negative, body) := splitSign cs
  let word := String.ofList (body.map Char.toLower)
  let special : Option Double :=
    if word == "inf" || word == "infinity" then some Double.infinity
    else if word == "nan" then some Double.nan
    else none
  match special with
  | some x => some (if negative then x.neg else x)
  | none => (readFloat? cs).map Double.ofFloat

end ScriptFold.Numeral
