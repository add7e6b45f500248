/-!
Doubles as exact numbers. The 64 bits of a double are a sign, an 11-bit exponent field and a
52-bit fraction field; a finite double is `± mantissa · 2 ^ exponent` with a natural mantissa
below `2 ^ 53`. Everything that prints, rounds or truncates a double starts from this view,
in exact `Nat` and `Int` arithmetic.

Values keep a double as its bit pattern (`Double`): IEEE 754 negation flips the sign bit of
every double, NaN included, and the sign of a NaN is part of what a value shows, while `Float`
holds one NaN only. Arithmetic goes through `Float`.

Main definitions: `Binary64.decode`, `Binary64.towardZero?` (truncation to an integer),
`Binary64.halfAway?` (rounding half away from zero) and `Double`.
-/
namespace ScriptFold.Numeral

set_option autoImplicit false

-- Powers are core's `Nat.pow` and `Int.pow`, whatever other power instances are in scope; a
-- literal exponent is written with its type, so that no default power instance is taken for it.
attribute [local instance (high)] instPowNat

/-- What the bits of a double stand for. -/
inductive Binary64 where
  | nan
  | infinite (negative : Bool)
  /-- The number `± mantissa · 2 ^ exponent`. -/
  | finite (negative : Bool) (mantissa : Nat) (exponent : Int)
deriving DecidableEq, Repr

namespace Binary64

def fractionBits : Nat := 52

/-- The exponent of the least subnormal step, `2 ^ minExponent`. -/
def minExponent : Int := -1074

/-- Read the fields of a bit pattern: a zero exponent field is subnormal, a full one is an
infinity or a NaN, and any other adds the hidden leading bit. -/
def ofBits (bits : UInt64) : Binary64 :=
  let n : Nat := bits.toNat
  let negative : Bool := n / 2 ^ (63 : Nat) % 2 = 1
  let field : Nat := n / 2 ^ fractionBits % 2 ^ (11 : Nat)
  let fraction : Nat := n % 2 ^ fractionBits
  if field = 2047 then
    if fraction = 0 then .infinite negative else .nan
  else if field = 0 then
    .finite negative fraction minExponent
  else
    .finite negative (fraction + 2 ^ fractionBits) ((field : Int) - 1075)

def decode (x : Float) : Binary64 :=
  ofBits x.toBits

/-- The magnitude `mantissa · 2 ^ exponent` as a fraction `numerator / denominator` whose
denominator is a power of two. -/
def fraction (mantissa : Nat) (exponent : Int) : Nat × Nat :=
  if 0 ≤ exponent then (mantissa * 2 ^ exponent.toNat, 1)
  else (mantissa, 2 ^ (-exponent).toNat)

theorem fraction_den_pos (m : Nat) (e : Int) : 0 < (fraction m e).2 := by
  unfold fraction
  split
  · exact Nat.one_pos
  · exact Nat.two_pow_pos _

/-- The integer part of a finite double, rounded toward zero; none for NaN and infinities. -/
def towardZero? : Binary64 → Option Int
  | .finite negative m e =>
    let (num, den) := fraction m e
    let whole : Int := (num / den : Nat)
    some (if negative then -whole else whole)
  | _ => none

/-- The nearest integer to a finite double, a half going away from zero; none for NaN and
infinities. -/
def halfAway? : Binary64 → Option Int
  | .finite negative m e =>
    let (num, den) := fraction m e
    let whole : Int := ((2 * num + den) / (2 * den) : Nat)
    some (if negative then -whole else whole)
  | _ => none

end Binary64

structure Double where
  bits : UInt64
deriving DecidableEq, Repr

namespace Double

def ofFloat (x : Float) : Double := ⟨x.toBits⟩

def toFloat (d : Double) : Float := Float.ofBits d.bits

def decode (d : Double) : Binary64 := Binary64.ofBits d.bits

/-- Negation flips the sign bit, whatever the rest of the pattern. -/
def neg (d : Double) : Double := ⟨d.bits ^^^ 0x8000000000000000⟩

def nan : Double := ⟨0x7ff8000000000000⟩

def infinity : Double := ⟨0x7ff0000000000000⟩

def isFinite (d : Double) : Bool :=
  match d.decode with
  | .finite .. => true
  | _ => false

end Double

end ScriptFold.Numeral
