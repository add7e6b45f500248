import ScriptFold.Syntax.Expr
import ScriptFold.Value.Text
import ScriptFold.Text.Json
/-!
A tree as a JSON document, every node kept with its tokens and spans. A node is an object with
one member named after its kind (`Eval`, `Identifier`, `Additive`, …) whose value holds the
node's parts; a value is `"Empty"`, `"Null"` or an object naming its type (`Integer`, `Float`,
…); a token holds its kind, its text and its span.

Doubles are written with the shortest digits that read back, a tie going to the even digit:
positionally for decimal exponents -5 to 15 (whole numbers with `.0`), else as `1e20` or
`1.5e-7`. A double that is not finite is `null`.
-/
namespace ScriptFold

set_option autoImplicit false

/-- The layout of doubles in a dump. -/
def Value.dumpNotation : Numeral.Notation :=
  { positional := some (-5, 15), pointZero := true, mark := 'e', plusSign := false,
    exponentWidth := 1, signedZero := true, halfway := .even }

def JsonDoc.nat (n : Nat) : JsonDoc := .number (toString n)

def Span.dump (s : Span) : JsonDoc :=
  .object [("start", .nat s.start), ("end", .nat s.stop)]

/-- A token kind: its name, or for a literal an object naming the literal's kind. -/
def TokenKind.dump : TokenKind → JsonDoc
  | .literal k => .object [("LITERAL", .string k.name)]
  | k => .string k.name

def Token.dump (t : Token) : JsonDoc :=
  .object [("kind", t.kind.dump), ("lexeme", .string t.lexeme), ("span", t.span.dump)]

/-- A value, named by its type. -/
def Value.dump : Value → JsonDoc
  | .empty => .string "Empty"
  | .null => .string "Null"
  | .bool b => .object [("Boolean", .bool b)]
  | .int i => .object [("Integer", .number (Value.intText i))]
  | .double x =>
    .object [("Float", if x.isFinite then .number (dumpNotation.shortest x) else .null)]
  | .text s => .object [("String", .string s)]
  | .date t => .object [("Date", .string t.timestamp)]

namespace Expr

/-- The fields of an operator node: operator name, operator token and operands. -/
def operatorFields (op : String) (operator : Token) : List (String × JsonDoc) :=
  [("op", .string op), ("operator", operator.dump)]

mutual
/-- A tree as a JSON document. -/
def dump : Expr → JsonDoc
  | .const v s => .object [("Eval", .object [("value", v.dump), ("span", s.dump)])]
  | .name t => .object [("Identifier", t.dump)]
  | .member o n => .object [("Member", .object [("object", o.dump), ("name", n.dump)])]
  | .call f args close =>
    .object [("Call", .object [("callee", f.dump), ("paren", close.dump),
      ("arguments", .array (dumpAll args))])]
  | .group e s => .object [("Grouping", .object [("inner", e.dump), ("span", s.dump)])]
  | .unary op t e =>
    .object [((if op = .not then "Not" else "Sign"),
      .object (operatorFields op.name t ++ [("operand", e.dump)]))]
  | .binary op t l r =>
    .object [(op.nodeKind,
      .object ([("left", l.dump)] ++ operatorFields op.name t ++ [("right", r.dump)]))]

def dumpAll : List Expr → List JsonDoc
  | [] => []
  | e :: es => e.dump :: dumpAll es
end

end Expr

end ScriptFold
