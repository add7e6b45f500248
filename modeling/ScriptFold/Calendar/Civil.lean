/-!
Days of the proleptic Gregorian calendar. A `CivilDate` is a year, a month and a day; dates are
numbered by their distance in days from 30 December 1899, the day from which serial dates count.
`CivilDate.toDays` and `CivilDate.ofDays` convert between the two views by the usual
400-year-era arithmetic (years start in March inside an era, so the leap day comes last).

Supported years run from `CivilDate.minYear` to `CivilDate.maxYear`.
-/
namespace ScriptFold

set_option autoImplicit false

/-- A day of the proleptic Gregorian calendar. -/
structure CivilDate where
  year : Int
  month : Nat
  day : Nat
deriving DecidableEq, Repr

namespace CivilDate

def minYear : Int := -262143

def maxYear : Int := 262142

/-- Leap years are the multiples of 4 that are not multiples of 100, and the multiples of
400. -/
def isLeapYear (y : Int) : Bool :=
  y % 4 = 0 && (y % 100 ≠ 0 || y % 400 = 0)

def daysInMonth (y : Int) (m : Nat) : Nat :=
  match m with
  | 2 => if isLeapYear y then 29 else 28
  | 4 | 6 | 9 | 11 => 30
  | _ => 31

/-- A date names a real day of a supported year. -/
def isValid (d : CivilDate) : Bool :=
  minYear ≤ d.year && d.year ≤ maxYear && 1 ≤ d.month && d.month ≤ 12 && 1 ≤ d.day &&
    d.day ≤ daysInMonth d.year d.month

/-- Days from 1 March of year 0 to 1 January 1970. -/
def unixShift : Int := 719468

/-- Days from 30 December 1899 to 1 January 1970. -/
def serialShift : Int := 25569

/-- The day number of a date: days after 30 December 1899 (negative before it). -/
def toDays (d : CivilDate) : Int :=
  let y : Int := if d.month ≤ 2 then d.year - 1 else d.year
  let era := y.fdiv 400
  let yoe := y - era * 400
  let m : Int := d.month
  let doy := (153 * (if m > 2 then m - 3 else m + 9) + 2) / 5 + d.day - 1
  let doe := yoe * 365 + yoe / 4 - yoe / 100 + doy
  era * 146097 + doe - unixShift + serialShift

def ofDays (n : Int) : CivilDate :=
  let z := n - serialShift + unixShift
  let era := z.fdiv 146097
  let doe := z - era * 146097
  let yoe := (doe - doe / 1460 + doe / 36524 - doe / 146096) / 365
  let doy := doe - (365 * yoe + yoe / 4 - yoe / 100)
  let mp := (5 * doy + 2) / 153
  let day := doy - (153 * mp + 2) / 5 + 1
  let month := if mp < 10 then mp + 3 else mp - 9
  let year := yoe + era * 400 + (if month ≤ 2 then 1 else 0)
  ⟨year, month.toNat, day.toNat⟩

def minDay : Int := toDays ⟨minYear, 1, 1⟩

def maxDay : Int := toDays ⟨maxYear, 12, 31⟩

/-- The date moved to another year, if that year has the same day. -/
def withYear (d : CivilDate) (y : Int) : Option CivilDate :=
  let moved : CivilDate := ⟨y, d.month, d.day⟩
  if moved.isValid then some moved else none

theorem toDays_base : toDays ⟨1899, 12, 30⟩ = 0 := by decide

theorem ofDays_zero : ofDays 0 = ⟨1899, 12, 30⟩ := by decide

end CivilDate

end ScriptFold
