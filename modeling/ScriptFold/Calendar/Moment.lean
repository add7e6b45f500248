import ScriptFold.Calendar.Civil
import ScriptFold.Numeral.Binary64
/-!
Moments: a day, a second of that day and a nanosecond of that second. A leap second is held as
second 59 of its minute with a nanosecond count of a billion or more, and is shown as second 60.

Serial dates count days from 30 December 1899 as a double, the time of day as the fraction.
`Moment.serial` counts whole milliseconds, truncated toward zero, a leap second counting as the
next second; `Moment.ofSerial?` rounds to the nearest second, half away from zero, and refuses
non-finite serials, magnitudes beyond `10 ^ 14` seconds and days outside the supported years.

Main definitions: `Moment`, `Moment.serial`, `Moment.ofSerial?`, `Moment.timestamp`.
-/
namespace ScriptFold

set_option autoImplicit false

def nanosPerSecond : Nat := 1000000000

/-- A moment of a supported day, to the nanosecond. -/
structure Moment where
  /-- Days after 30 December 1899. -/
  day : Int
  /-- Seconds after midnight. -/
  second : Nat
  /-- Nanoseconds after the second; a billion or more only in a leap second. -/
  nano : Nat
  day_ge : CivilDate.minDay ≤ day
  day_le : day ≤ CivilDate.maxDay
  second_lt : second < 86400
  nano_lt : nano < 2 * nanosPerSecond
  leap : nanosPerSecond ≤ nano → second % 60 = 59

namespace Moment

/-- A moment from its parts, if they name one. -/
def make? (day : Int) (second nano : Nat) : Option Moment :=
  if h : CivilDate.minDay ≤ day ∧ day ≤ CivilDate.maxDay ∧ second < 86400 ∧
      nano < 2 * nanosPerSecond ∧ (nanosPerSecond ≤ nano → second % 60 = 59) then
    some ⟨day, second, nano, h.1, h.2.1, h.2.2.1, h.2.2.2.1, h.2.2.2.2⟩
  else none

/-- A moment of a date at a time of day, if both are valid; seconds of 60 are leap seconds. -/
def ofCivil? (d : CivilDate) (hour minute second nano : Nat) : Option Moment :=
  if d.isValid && hour < 24 && minute < 60 && second ≤ 60 && nano < nanosPerSecond then
    let (sec, ns) := if second = 60 then (59, nano + nanosPerSecond) else (second, nano)
    make? d.toDays (hour * 3600 + minute * 60 + sec) ns
  else none

def date (t : Moment) : CivilDate := CivilDate.ofDays t.day

def hour (t : Moment) : Nat := t.second / 3600

def minute (t : Moment) : Nat := t.second / 60 % 60

/-- The second of the minute as shown: 60 in a leap second. -/
def shownSecond (t : Moment) : Nat :=
  t.second % 60 + (if nanosPerSecond ≤ t.nano then 1 else 0)

def isMidnight (t : Moment) : Bool := t.second = 0 && t.nano = 0

/-- Moments are ordered by day, then second, then nanosecond. -/
def compare (a b : Moment) : Ordering :=
  (Ord.compare a.day b.day).then ((Ord.compare a.second b.second).then (Ord.compare a.nano b.nano))

/-! ## Serial dates -/

/-- Nanoseconds since midnight starting 30 December 1899; a leap second's extra billion counts
into the next second. -/
def totalNanos (t : Moment) : Int :=
  (t.day * 86400 + t.second) * nanosPerSecond + t.nano

/-- The serial date: whole milliseconds since the base, truncated toward zero, in days. -/
def serial (t : Moment) : Float :=
  Float.ofInt (t.totalNanos.tdiv 1000000) / 86400000.0

/-- The moment a whole number of seconds after the base, if its day is supported. -/
def ofSeconds? (n : Int) : Option Moment :=
  make? (n.fdiv 86400) (n.emod 86400).toNat 0

/-- The moment of a serial date, to the nearest second. -/
def ofSerial? (serial : Float) : Option Moment :=
  let seconds := serial * 86400.0
  if !seconds.isFinite || seconds > 1.0e14 || seconds < -1.0e14 then none
  else (Numeral.Binary64.decode seconds).halfAway?.bind ofSeconds?

/-! ## Text -/

def padded (width n : Nat) : String :=
  let s := toString n
  String.ofList (List.replicate (width - s.length) '0') ++ s

/-- A year: four digits for years 0 to 9999, otherwise a sign and at least four digits. -/
def yearText (y : Int) : String :=
  if 0 ≤ y ∧ y ≤ 9999 then padded 4 y.toNat
  else (if y < 0 then "-" else "+") ++ padded 4 y.natAbs

/-- The fraction of a second: empty when whole, else a point and 3, 6 or 9 digits. -/
def fractionText (nano : Nat) : String :=
  let f := nano % nanosPerSecond
  if f = 0 then ""
  else if f % 1000000 = 0 then "." ++ padded 3 (f / 1000000)
  else if f % 1000 = 0 then "." ++ padded 6 (f / 1000)
  else "." ++ padded 9 f

/-- The date as year, month and day joined by `-`, zero-padded. -/
def dateText (t : Moment) : String :=
  let d := t.date
  yearText d.year ++ "-" ++ padded 2 d.month ++ "-" ++ padded 2 d.day

/-- The time of day as hours, minutes and seconds joined by `:`, zero-padded. -/
def timeText (t : Moment) : String :=
  padded 2 t.hour ++ ":" ++ padded 2 t.minute ++ ":" ++ padded 2 t.shownSecond

/-- The full timestamp `YYYY-MM-DDTHH:MM:SS` with the fraction of the second, if any. -/
def timestamp (t : Moment) : String :=
  t.dateText ++ "T" ++ t.timeText ++ fractionText t.nano

end Moment

end ScriptFold
