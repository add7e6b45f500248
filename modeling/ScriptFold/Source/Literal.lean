import ScriptFold.Source.Error
import ScriptFold.Value.Numeric
import ScriptFold.Calendar.Pattern
/-!
Reading a literal token into its value. The scanner has already fixed the token's shape; here
its text is read as its kind says. A decimal integer too wide for 64 bits becomes a double, a
number whose double is infinite is malformed, the `&H`/`&O` digits after the first two bytes are
a 64-bit pattern, a string's doubled quotes stand for one quote, and a date's text between the
`#` signs is loose date text. A token that is no literal is refused.
-/
namespace ScriptFold

set_option autoImplicit false

namespace Literal

/-- Each doubled quote read as one quote. -/
def undoubleQuotes : List Char → List Char
  | '"' :: '"' :: rest => '"' :: undoubleQuotes rest
  | c :: rest => c :: undoubleQuotes rest
  | [] => []

/-- The text between a first and a last character `edge`, if the text has both. -/
def between (edge : Char) (cs : List Char) : Option (List Char) :=
  match cs with
  | c :: rest@(_ :: _) => if c == edge && rest.getLast? == some edge then some rest.dropLast else none
  | _ => none

/-- The characters after the first `n` bytes, if those bytes end on a character boundary. -/
def dropBytes? : Nat → List Char → Option (List Char)
  | 0, cs => some cs
  | _ + 1, [] => none
  | n + 1, c :: cs => if c.utf8Size ≤ n + 1 then dropBytes? (n + 1 - c.utf8Size) cs else none

/-- The value of literal text of a given kind, if the text reads as that kind. -/
def read? (kind : LiteralKind) (text : String) : Option Value :=
  let cs := text.toList
  match kind with
  | .integer =>
    match (Numeral.readInt? cs).bind toInt64? with
    | some i => some (.int i)
    | none =>
      -- too wide for 64 bits: a double, if finite and written with digits alone
      (Numeral.readFloat? cs).bind fun x =>
        if x.isFinite && cs.all Char.isDigit then some (.double (.ofFloat x)) else none
  | .float =>
    (Numeral.readFloat? cs).bind fun x => if x.isFinite then some (.double (.ofFloat x)) else none
  | .hex => (dropBytes? 2 cs).bind fun ds => (Value.readRadix? 16 ds).map .int
  | .octal => (dropBytes? 2 cs).bind fun ds => (Value.readRadix? 8 ds).map .int
  | .string => (between '"' cs).map fun inner => .text (String.ofList (undoubleQuotes inner))
  | .date => (between '#' cs).bind fun inner => (Moment.ofText? (String.ofList inner)).map .date
  | .boolean =>
    let lower := String.ofList (cs.map Char.toLower)
    if lower == "true" then some (.bool true)
    else if lower == "false" then some (.bool false)
    else none
  | .empty => some .empty
  | .null => some .null

end Literal

namespace Token

/-- The value of a literal token. -/
def literalValue (t : Token) : Except ParseError Value :=
  match t.kind with
  | .literal kind =>
    match Literal.read? kind t.lexeme with
    | some v => .ok v
    | none => .error (.literalFormat kind t.lexeme t.span)
  | _ => .error (.unexpected t.lexeme .literal t.span)

end Token

end ScriptFold
