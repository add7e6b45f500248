import ScriptFold.Calendar.Moment
import ScriptFold.Text.Blank
import ScriptFold.Numeral.Read
/-!
Date and time patterns, and the reading of loose date text.

A `Pattern` is a list of items: a numeric field, a month name, an am/pm marker, a run of
blanks, a fixed character, or a fraction of a second. Reading text against a pattern fills in
fields; the text must be used up. Numeric fields skip leading blanks; a year takes up to four
digits, or any number of them after an explicit sign, and the other fields take one or two
digits. A blank item takes any number of blanks, none included.

`Moment.ofText?` tries the date patterns alone, then every date pattern followed by every time
pattern, then the time patterns alone (on the base day 30 December 1899). Years 0 to 29 that a
date pattern reads are taken as 2000 to 2029, and 30 to 99 as 1930 to 1999.
-/
namespace ScriptFold

set_option autoImplicit false

-- Powers are core's `Nat.pow` and `Int.pow`, whatever other power instances are in scope.
attribute [local instance (high)] instPowNat

inductive DateField where
  | year
  | month
  | day
  | hour
  | hour12
  | minute
  | second
deriving DecidableEq, Repr

inductive PatternItem where
  | number (field : DateField)
  /-- The first three letters of a month's name, and with `long` optionally the rest. -/
  | monthName (long : Bool)
  /-- `am` or `pm` in any letter case. -/
  | meridiem
  | blanks
  | char (c : Char)
  /-- An optional point followed by the digits of a fraction of a second. -/
  | fraction
deriving DecidableEq, Repr

abbrev Pattern := List PatternItem

structure DateFields where
  year : Option Int := none
  month : Option Nat := none
  day : Option Nat := none
  /-- 1 after noon, 0 before. -/
  half : Option Nat := none
  /-- The hour within its half of the day. -/
  hourOfHalf : Option Nat := none
  minute : Option Nat := none
  second : Option Nat := none
  nano : Option Nat := none
deriving DecidableEq, Repr

namespace Pattern

open PatternItem DateField

/-! ## The patterns -/

def monthDayYear : Pattern := [number month, char '/', number day, char '/', number year]

def isoDate : Pattern := [number year, char '-', number month, char '-', number day]

def yearMonthDay : Pattern := [number year, char '/', number month, char '/', number day]

def namedMonthFirst (long : Bool) : Pattern :=
  [monthName long, blanks, number day, char ',', blanks, number year]

def namedMonthSecond (long : Bool) : Pattern :=
  [number day, blanks, monthName long, blanks, number year]

/-- The date patterns, in the order they are tried. -/
def dates : List Pattern :=
  [monthDayYear, isoDate, yearMonthDay, namedMonthFirst true, namedMonthFirst false,
    namedMonthSecond true, namedMonthSecond false]

/-- The time patterns, in the order they are tried. -/
def times : List Pattern :=
  [[number hour, char ':', number minute, char ':', number second],
    [number hour, char ':', number minute],
    [number hour12, char ':', number minute, char ':', number second, blanks, meridiem],
    [number hour12, char ':', number minute, blanks, meridiem]]

/-- A date, `T`, a time and an optional fraction of a second. -/
def timestamp : Pattern :=
  isoDate ++ [char 'T', number hour, char ':', number minute, char ':', number second, fraction]

/-! ## Reading -/

def monthAbbreviations : List String :=
  ["jan", "feb", "mar", "apr", "may", "jun", "jul", "aug", "sep", "oct", "nov", "dec"]

/-- What a month's full name adds to its abbreviation. -/
def monthRests : List String :=
  ["uary", "ruary", "ch", "il", "", "e", "y", "ust", "tember", "ober", "ember", "ember"]

def lowerAscii (cs : List Char) : List Char := cs.map Char.toLower

/-- Does `cs` start with the lower-case word `w`, in any letter case? -/
def startsWithWord (cs : List Char) (w : String) : Bool :=
  lowerAscii (cs.take w.length) == w.toList

/-- Read a month name: the number of the month and the text after it. -/
def readMonthName (long : Bool) (cs : List Char) : Option (Nat × List Char) :=
  match (List.range 12).find? (fun i => startsWithWord cs (monthAbbreviations.getD i "")) with
  | none => none
  | some i =>
    let rest := cs.drop 3
    let tail := monthRests.getD i ""
    if long && startsWithWord rest tail then some (i + 1, rest.drop tail.length)
    else some (i + 1, rest)

/-- Read `1` to `most` leading digits. -/
def readDigits (most : Nat) (cs : List Char) : Option (Nat × List Char) :=
  let ds := (cs.take most).takeWhile Char.isDigit
  if ds.isEmpty then none
  else some (Numeral.digitsValue ds, cs.drop ds.length)

/-- Read a signed year: a sign lets any number of digits follow. -/
def readYear (cs : List Char) : Option (Int × List Char) :=
  match cs with
  | '-' :: rest => (readDigits rest.length rest).map fun (n, r) => (-(n : Int), r)
  | '+' :: rest => (readDigits rest.length rest).map fun (n, r) => ((n : Int), r)
  | _ => (readDigits 4 cs).map fun (n, r) => ((n : Int), r)

/-- Store a field's value, checking its range. -/
def setField (f : DateFields) : DateField → Int → Option DateFields
  | .year, v => some { f with year := some v }
  | .month, v => if 1 ≤ v ∧ v ≤ 12 then some { f with month := some v.toNat } else none
  | .day, v => if 1 ≤ v ∧ v ≤ 31 then some { f with day := some v.toNat } else none
  | .hour, v =>
    if 0 ≤ v ∧ v ≤ 23 then
      some { f with half := some (v.toNat / 12), hourOfHalf := some (v.toNat % 12) }
    else none
  | .hour12, v =>
    if 1 ≤ v ∧ v ≤ 12 then some { f with hourOfHalf := some (v.toNat % 12) } else none
  | .minute, v => if 0 ≤ v ∧ v ≤ 59 then some { f with minute := some v.toNat } else none
  | .second, v => if 0 ≤ v ∧ v ≤ 60 then some { f with second := some v.toNat } else none

/-- Read a fraction of a second: up to nine digits count, further digits are skipped. -/
def readFraction (cs : List Char) : Option (Nat × List Char) :=
  match cs with
  | '.' :: rest =>
    (readDigits 9 rest).map fun (n, r) =>
      let used := (rest.takeWhile Char.isDigit).length.min 9
      (n * 10 ^ (9 - used), r.dropWhile Char.isDigit)
  | _ => some (0, cs)

/-- Read one item: the fields with the item's value, and the text after it. -/
def readItem (f : DateFields) (item : PatternItem) (cs : List Char) :
    Option (DateFields × List Char) :=
  match item with
  | .number .year =>
    (readYear (Text.dropBlanks cs)).bind fun (v, r) => (setField f .year v).map (·, r)
  | .number field =>
    let most := 2
    (readDigits most (Text.dropBlanks cs)).bind fun (v, r) =>
      (setField f field v).map (·, r)
  | .monthName long =>
    (readMonthName long cs).bind fun (m, r) => (setField f .month m).map (·, r)
  | .meridiem =>
    match cs with
    | a :: m :: rest =>
      if m.toLower == 'm' && a.toLower == 'a' then some ({ f with half := some 0 }, rest)
      else if m.toLower == 'm' && a.toLower == 'p' then some ({ f with half := some 1 }, rest)
      else none
    | _ => none
  | .blanks => some (f, Text.dropBlanks cs)
  | .char c =>
    match cs with
    | d :: rest => if c == d then some (f, rest) else none
    | [] => none
  | .fraction =>
    match cs with
    | '.' :: _ => (readFraction cs).map fun (n, r) => ({ f with nano := some n }, r)
    | _ => some (f, cs)

/-- Read text against a whole pattern; the text must be used up. -/
def read (p : Pattern) (cs : List Char) : Option DateFields :=
  let step (acc : Option (DateFields × List Char)) (item : PatternItem) :=
    acc.bind fun (f, r) => readItem f item r
  match p.foldl step (some ({}, cs)) with
  | some (f, []) => some f
  | _ => none

end Pattern

namespace DateFields

/-- The date the fields name, if it is a real day of a supported year. -/
def toDate? (f : DateFields) : Option CivilDate :=
  match f.year, f.month, f.day with
  | some y, some m, some d =>
    let date : CivilDate := ⟨y, m, d⟩
    if date.isValid then some date else none
  | _, _, _ => none

/-- The time of day the fields name: hour, minute, second (0 when absent) and nanosecond. -/
def toTime? (f : DateFields) : Option (Nat × Nat × Nat × Nat) :=
  match f.half, f.hourOfHalf, f.minute with
  | some h, some hh, some m => some (h * 12 + hh, m, f.second.getD 0, f.nano.getD 0)
  | _, _, _ => none

end DateFields

namespace Moment

/-- The moment at the start of a date. -/
def ofDate? (d : CivilDate) : Option Moment := ofCivil? d 0 0 0 0

/-- Two-digit years: 0 to 29 are in the 2000s and 30 to 99 in the 1900s. -/
def windowYear (d : CivilDate) : Option CivilDate :=
  if 0 ≤ d.year ∧ d.year ≤ 29 then d.withYear (d.year + 2000)
  else if 30 ≤ d.year ∧ d.year ≤ 99 then d.withYear (d.year + 1900)
  else some d

/-- A date-only reading, through the century window. -/
def readDate? (p : Pattern) (cs : List Char) : Option (Option Moment) :=
  (Pattern.read p cs).bind DateFields.toDate? |>.map fun d =>
    (windowYear d).bind ofDate?

/-- A date-and-time reading, through the century window. -/
def readDateTime? (p : Pattern) (cs : List Char) : Option (Option Moment) :=
  (Pattern.read p cs).bind fun f =>
    match f.toDate?, f.toTime? with
    | some d, some (h, m, s, ns) =>
      match ofCivil? d h m s ns with
      | some _ => some ((windowYear d).bind fun d' => ofCivil? d' h m s ns)
      | none => none
    | _, _ => none

/-- A time-only reading, on the base day. -/
def readTime? (p : Pattern) (cs : List Char) : Option Moment :=
  (Pattern.read p cs).bind fun f =>
    f.toTime?.bind fun (h, m, s, ns) => ofCivil? ⟨1899, 12, 30⟩ h m s ns

/-- Loose date text: blanks around it are ignored, and the first pattern that reads the
whole text decides. -/
def ofText? (s : String) : Option Moment :=
  let cs := Text.trimBlanks s.toList
  let dated := Pattern.dates.findSome? fun p => readDate? p cs
  let both := Pattern.dates.findSome? fun d =>
    Pattern.times.findSome? fun t => readDateTime? (d ++ [.blanks] ++ t) cs
  match dated with
  | some r => r
  | none =>
    match both with
    | some r => r
    | none => Pattern.times.findSome? fun t => readTime? t cs

/-- A timestamp `YYYY-MM-DDTHH:MM:SS` with an optional fraction, as `timestamp` writes it. -/
def ofTimestamp? (s : String) : Option Moment :=
  (Pattern.read Pattern.timestamp s.toList).bind fun f =>
    match f.toDate?, f.toTime? with
    | some d, some (h, m, sec, ns) => ofCivil? d h m sec ns
    | _, _ => none

end Moment

end ScriptFold
