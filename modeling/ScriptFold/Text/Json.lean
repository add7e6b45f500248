/-!
JSON documents and their indented text. A document keeps its members in the order they were
given, and a number is kept as the text it is written with, so whoever builds a document
decides how its numbers look. `JsonDoc.pretty` writes one element or member a line, two spaces
a level, `": "` between a key and its value, and `[]` or `{}` for an empty container. Inside a
string, quotes, backslashes and control characters are escaped; every other character is
written as it is.
-/
namespace ScriptFold

set_option autoImplicit false

inductive JsonDoc where
  | null
  | bool (b : Bool)
  /-- A number, as the text it is written with. -/
  | number (text : String)
  | string (s : String)
  | array (items : List JsonDoc)
  /-- An object, its members in order. -/
  | object (members : List (String × JsonDoc))

namespace JsonDoc

/-- A character as it is written inside a JSON string. The quote, the backslash and the
control characters below U+0020 are escaped, with a short escape where JSON has one. -/
def escapeChar (c : Char) : String :=
  match c with
  | '"' => "\\\""
  | '\\' => "\\\\"
  | '\n' => "\\n"
  | '\r' => "\\r"
  | '\t' => "\\t"
  | '\x08' => "\\b"
  | '\x0c' => "\\f"
  | c =>
    if c.toNat < 0x20 then
      "\\u00" ++ String.ofList [Nat.digitChar (c.toNat / 16), Nat.digitChar (c.toNat % 16)]
    else c.toString

def quote (s : String) : String :=
  "\"" ++ String.join (s.toList.map escapeChar) ++ "\""

def indent (level : Nat) : String :=
  String.ofList (List.replicate (2 * level) ' ')

mutual
/-- The document as indented text, its inner lines at `level + 1`. -/
def pretty (level : Nat) : JsonDoc → String
  | .null => "null"
  | .bool b => if b then "true" else "false"
  | .number t => t
  | .string s => quote s
  | .array [] => "[]"
  | .array items => "[\n" ++ prettyItems (level + 1) items ++ "\n" ++ indent level ++ "]"
  | .object [] => "\x7b\x7d"
  | .object members =>
    "\x7b\n" ++ prettyMembers (level + 1) members ++ "\n" ++ indent level ++ "\x7d"

/-- Array elements, one a line at `level`, separated by commas. -/
def prettyItems (level : Nat) : List JsonDoc → String
  | [] => ""
  | [d] => indent level ++ pretty level d
  | d :: ds => indent level ++ pretty level d ++ ",\n" ++ prettyItems level ds

/-- Object members, one a line at `level`, separated by commas. -/
def prettyMembers (level : Nat) : List (String × JsonDoc) → String
  | [] => ""
  | [(k, d)] => indent level ++ quote k ++ ": " ++ pretty level d
  | (k, d) :: ms => indent level ++ quote k ++ ": " ++ pretty level d ++ ",\n" ++
    prettyMembers level ms
end

end JsonDoc

end ScriptFold
