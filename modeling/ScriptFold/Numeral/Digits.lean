import ScriptFold.Numeral.Binary64
/-!
Decimal digits of a positive dyadic number, as a digit string and a decimal exponent.

Two questions are answered here, both in exact `Nat` arithmetic:

* `shortest`: the fewest significant digits whose decimal reads back as the same double. A
  double stands for the interval of reals that round to it (half the gap to each neighbour,
  ends included when the mantissa is even). For 1, 2, … digits we test the value's two
  neighbours on that decimal grid; the first grid with a neighbour inside the interval wins,
  of two such neighbours the nearer; a `Halfway` rule settles a tie.
* `significant`: the value rounded to a fixed number of significant digits, a tie going to
  the even neighbour.

Both give a `Digits` value: `d₁.d₂d₃… × 10 ^ exponent`, no trailing zero.
-/
namespace ScriptFold.Numeral

set_option autoImplicit false

-- Powers are core's `Nat.pow` and `Int.pow`, whatever other power instances are in scope.
attribute [local instance (high)] instPowNat

/-- A decimal `d₁.d₂d₃… × 10 ^ exponent`: `digits` has no leading zero, and no trailing zero
unless it is the single digit of zero. -/
structure Digits where
  digits : List Char
  exponent : Int
deriving DecidableEq, Repr

namespace Digits

def digitCount (n : Nat) : Nat :=
  if n < 10 then 1 else digitCount (n / 10) + 1
termination_by n
decreasing_by omega

def zero : Digits := ⟨['0'], 0⟩

/-- The decimal `c × 10 ^ p` for a positive `c`, trailing zeros of `c` moved into the
exponent. -/
def ofScaled (c : Nat) (p : Int) : Digits :=
  let text := (toString c).toList
  let kept := (text.reverse.dropWhile (· == '0')).reverse
  ⟨kept, p + (text.length - 1 : Nat)⟩

/-- The least `k` with `num < den · 10 ^ k`, for positive `num` and `den`: the value
`num / den` lies in `[10 ^ (k - 1), 10 ^ k)`. -/
def magnitude (num den : Nat) : Int :=
  let guess : Int := (digitCount num : Int) - digitCount den
  let below : Bool :=
    if 0 ≤ guess then decide (num < den * 10 ^ guess.toNat)
    else decide (num * 10 ^ (-guess).toNat < den)
  if below then guess else guess + 1

/-- Scale factors `(a, b)` such that `x / 10 ^ p = x · b / (den · a)` for every numerator
`x` over `den`. -/
def gridScale (den : Nat) (p : Int) : Nat × Nat :=
  if 0 ≤ p then (den * 10 ^ p.toNat, 1) else (den, 10 ^ (-p).toNat)

/-- A value `num / den` rounded to `places` significant digits, ties to even. -/
def significant (places : Nat) (num den : Nat) : Digits :=
  if num = 0 then zero else
  let k := magnitude num den
  let p := k - places
  let (a, b) := gridScale den p
  let q := num * b / a
  let r := num * b % a
  let up := 2 * r > a || (2 * r = a && q % 2 = 1)
  let c := if up then q + 1 else q
  ofScaled c p

/-- The interval of reals that round to the double `m · 2 ^ e`, for a positive `m`, as
numerators `(low, value, high)` over a common denominator: half a step to each side, and a
quarter step below a power of two where the step below is halved. -/
def roundingInterval (m : Nat) (e : Int) : Nat × Nat × Nat × Nat :=
  let narrow := m = 2 ^ Binary64.fractionBits && e > Binary64.minExponent
  let low := if narrow then 4 * m - 1 else 4 * m - 2
  let (scale, den) := Binary64.fraction 1 (e - 2)
  (low * scale, 4 * m * scale, (4 * m + 2) * scale, den)

/-- How the shortest digits choose between two neighbours equally near the value. -/
inductive Halfway where
  /-- The upper neighbour. -/
  | up
  /-- The neighbour whose last digit is even. -/
  | even
deriving DecidableEq, Repr

/-- Of the grid neighbours `c` and `c + 1`, the one a tie goes to. -/
def Halfway.pick : Halfway → Nat → Nat
  | .up, c => c + 1
  | .even, c => if c % 2 = 0 then c else c + 1

/-- On the grid `10 ^ p`, the neighbour of the value to pick when one lies inside the
interval `low..high` (ends included when `inclusive`): the nearer, `halfway` on a tie. -/
def pickOnGrid (halfway : Halfway) (low value high den : Nat) (inclusive : Bool) (p : Int) :
    Option Nat :=
  let (a, b) := gridScale den p
  let c := value * b / a
  let lowIn := if inclusive then c * a ≥ low * b else c * a > low * b
  let highIn := if inclusive then (c + 1) * a ≤ high * b else (c + 1) * a < high * b
  if lowIn && highIn then
    let twice := 2 * value * b
    let middle := (2 * c + 1) * a
    if twice < middle then some c
    else if middle < twice then some (c + 1)
    else some (halfway.pick c)
  else if lowIn then some c
  else if highIn then some (c + 1)
  else none

/-- The shortest digits that read back as the double `m · 2 ^ e` (for positive `m`).
Seventeen significant digits always single out a double; the value rounded to seventeen
digits is the answer should the search ever run out. -/
def shortest (halfway : Halfway) (m : Nat) (e : Int) : Digits :=
  if m = 0 then zero else
  let (low, value, high, den) := roundingInterval m e
  let k := magnitude value den
  let onGrid (n : Nat) : Option Digits :=
    (pickOnGrid halfway low value high den (m % 2 = 0) (k - n)).map (ofScaled · (k - n))
  match (List.range 17).findSome? (fun i => onGrid (i + 1)) with
  | some d => d
  | none => significant 17 value den

end Digits

end ScriptFold.Numeral
