/-!
Tokens of script expressions: byte spans, the kinds of token, and the one-line text a token
is shown as.

A span is a half-open range of byte offsets into the UTF-8 source. Literal tokens keep their
raw text; reading that text into a value is the work of `ScriptFold.Source.Literal`.
-/
namespace ScriptFold

set_option autoImplicit false

/-! ## Spans -/

/-- A half-open range `start..stop` of byte offsets into the source. -/
structure Span where
  start : Nat
  stop : Nat
deriving DecidableEq, Repr, Inhabited

namespace Span

def cover (a b : Span) : Span :=
  ⟨min a.start b.start, max a.stop b.stop⟩

/-- A span is written `start..stop`. -/
def text (s : Span) : String :=
  toString s.start ++ ".." ++ toString s.stop

theorem cover_start (a b : Span) : (a.cover b).start = min a.start b.start := rfl

theorem cover_stop (a b : Span) : (a.cover b).stop = max a.stop b.stop := rfl

end Span

/-! ## Kinds -/

/-- How the raw text of a literal token is to be read. -/
inductive LiteralKind where
  | integer
  | float
  | hex
  | octal
  | string
  | date
  | boolean
  | empty
  | null
deriving DecidableEq, Repr, Inhabited

def LiteralKind.name : LiteralKind → String
  | .integer => "INTEGER"
  | .float => "FLOAT"
  | .hex => "HEX"
  | .octal => "OCTAL"
  | .string => "STRING"
  | .date => "DATE"
  | .boolean => "BOOLEAN"
  | .empty => "EMPTY"
  | .null => "NULL"

/-- The categories of token. Keywords are matched without regard to letter case. -/
inductive TokenKind where
  | leftParen
  | rightParen
  | comma
  | dot
  | colon
  | plus
  | minus
  | star
  | slash
  | backslash
  | caret
  | ampersand
  | equal
  | notEqual
  | less
  | lessEqual
  | greater
  | greaterEqual
  | identifier
  | literal (kind : LiteralKind)
  | andOp
  | orOp
  | notOp
  | xorOp
  | eqvOp
  | impOp
  | modOp
  | newline
  | eof
deriving DecidableEq, Repr, Inhabited

namespace TokenKind

/-- The upper-case name of a kind; a literal is named by its literal kind. -/
def name : TokenKind → String
  | .leftParen => "LEFT_PAREN"
  | .rightParen => "RIGHT_PAREN"
  | .comma => "COMMA"
  | .dot => "DOT"
  | .colon => "COLON"
  | .plus => "PLUS"
  | .minus => "MINUS"
  | .star => "STAR"
  | .slash => "SLASH"
  | .backslash => "BACKSLASH"
  | .caret => "CARET"
  | .ampersand => "AMPERSAND"
  | .equal => "EQUAL"
  | .notEqual => "NOT_EQUAL"
  | .less => "LESS"
  | .lessEqual => "LESS_EQUAL"
  | .greater => "GREATER"
  | .greaterEqual => "GREATER_EQUAL"
  | .identifier => "IDENTIFIER"
  | .literal k => k.name
  | .andOp => "AND"
  | .orOp => "OR"
  | .notOp => "NOT"
  | .xorOp => "XOR"
  | .eqvOp => "EQV"
  | .impOp => "IMP"
  | .modOp => "MOD"
  | .newline => "NEWLINE"
  | .eof => "EOF"

/-- Every kind, in declaration order; `ofName?` searches it. -/
def all : List TokenKind :=
  [.leftParen, .rightParen, .comma, .dot, .colon, .plus, .minus, .star, .slash, .backslash,
    .caret, .ampersand, .equal, .notEqual, .less, .lessEqual, .greater, .greaterEqual,
    .identifier, .literal .integer, .literal .float, .literal .hex, .literal .octal,
    .literal .string, .literal .date, .literal .boolean, .literal .empty, .literal .null,
    .andOp, .orOp, .notOp, .xorOp, .eqvOp, .impOp, .modOp, .newline, .eof]

def ofName? (n : String) : Option TokenKind :=
  all.find? (fun k => k.name == n)

def isLiteral : TokenKind → Bool
  | .literal _ => true
  | _ => false

end TokenKind

/-! ## Tokens -/

/-- A scanned token: its kind, its exact source text and where that text lies. -/
structure Token where
  kind : TokenKind
  lexeme : String
  span : Span
deriving DecidableEq, Repr, Inhabited

namespace Token

def eof (pos : Nat) : Token :=
  ⟨.eof, "", ⟨pos, pos⟩⟩

/-- A line break is shown with its characters escaped, `\r` and `\n`. -/
def escapeBreaks (s : String) : String :=
  String.join (s.toList.map fun c =>
    if c = '\n' then "\\n" else if c = '\r' then "\\r" else c.toString)

/-- The one-line text of a token: kind, lexeme and span, separated by blanks. -/
def text (t : Token) : String :=
  let shown := if t.kind = .newline then escapeBreaks t.lexeme else t.lexeme
  t.kind.name ++ " " ++ shown ++ " " ++ t.span.text

end Token

end ScriptFold
