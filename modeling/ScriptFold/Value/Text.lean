import ScriptFold.Value.Basic
import ScriptFold.Numeral.Notation
/-!
The two texts of a value.

* `Value.display` is string coercion, what `&` joins: doubles with at most fifteen significant
  digits, dates in month/day/year order with a twelve-hour clock.
* `Value.literal` is source text that reads back as an equal value: doubles with the shortest
  digits that read back and always a point or an exponent, strings quoted with inner quotes
  doubled, dates between `#` in year-month-day order.
-/
namespace ScriptFold

set_option autoImplicit false

namespace Value

/-! ## Numbers -/

/-- Doubles in string coercion: fifteen significant digits, positional for decimal exponents
-5 to 14, else `1.5E+20` style; zero has no sign. -/
def displayNotation : Numeral.Notation :=
  { positional := some (-5, 14), pointZero := false, mark := 'E', plusSign := true,
    exponentWidth := 2, signedZero := false }

/-- Doubles in literals: the shortest digits that read back, positional for decimal exponents
-4 to 15 and then with `.0` on whole numbers, else `1e16` style. -/
def literalNotation : Numeral.Notation :=
  { positional := some (-4, 15), pointZero := true, mark := 'e', plusSign := false,
    exponentWidth := 1, signedZero := true }

/-- The string coercion of a double. -/
def formatFloat (x : Numeral.Double) : String :=
  displayNotation.significant 15 x

/-- The literal text of a double. -/
def floatLiteral (x : Numeral.Double) : String :=
  literalNotation.shortest x

def intText (i : Int64) : String :=
  toString i.toInt

/-! ## Dates -/

/-- Is the moment on 30 December 1899, the base of serial dates? -/
def onBaseDay (t : Moment) : Bool := t.day = 0

/-- The time on a twelve-hour clock, `h:MM:SS AM`, the hour unpadded and 12 for 0. -/
def clockText (t : Moment) : String :=
  let h := t.hour % 12
  let h12 := if h = 0 then 12 else h
  toString h12 ++ ":" ++ Moment.padded 2 t.minute ++ ":" ++ Moment.padded 2 t.shownSecond ++
    (if t.hour < 12 then " AM" else " PM")

/-- The date as `m/d/yyyy`, month and day unpadded. -/
def dayText (t : Moment) : String :=
  let d := t.date
  toString d.month ++ "/" ++ toString d.day ++ "/" ++ Moment.yearText d.year

/-- The string coercion of a date: the time alone on the base day, the date alone at
midnight. -/
def dateDisplay (t : Moment) : String :=
  if onBaseDay t && t.isMidnight then "12:00:00 AM"
  else if onBaseDay t then clockText t
  else if t.isMidnight then dayText t
  else dayText t ++ " " ++ clockText t

/-- The literal of a date: the time alone on the base day, the date alone at midnight. -/
def dateLiteral (t : Moment) : String :=
  let inner :=
    if onBaseDay t && !t.isMidnight then t.timeText
    else if t.isMidnight then t.dateText
    else t.dateText ++ " " ++ t.timeText
  "#" ++ inner ++ "#"

/-! ## Values -/

/-- String coercion. -/
def display : Value → String
  | .empty => ""
  | .null => ""
  | .bool b => if b then "True" else "False"
  | .int i => intText i
  | .double x => formatFloat x
  | .text s => s
  | .date t => dateDisplay t

/-- A string in quotes, each inner quote doubled. -/
def quote (s : String) : String :=
  "\"" ++ String.join (s.toList.map fun c => if c = '"' then "\"\"" else c.toString) ++ "\""

/-- Source text that reads back as an equal value. The least integer has no literal of its
own and is written as a subtraction. -/
def literal : Value → String
  | .empty => "Empty"
  | .null => "Null"
  | .bool b => if b then "True" else "False"
  | .int i => if i = Int64.minValue then "(-9223372036854775807 - 1)" else intText i
  | .double x => floatLiteral x
  | .text s => quote s
  | .date t => dateLiteral t

end Value

end ScriptFold
