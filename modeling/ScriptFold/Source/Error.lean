import ScriptFold.Source.Scan
import ScriptFold.Value.Error
/-!
Why source text is no expression. Every failure of scanning, literal reading, parsing and
constant folding carries the span it points at: a lexical problem, a token where something else
was expected, a literal whose text does not read as its kind, an operator that fails on known
operands (at the operator's span), or nesting beyond a limit.
-/
namespace ScriptFold

set_option autoImplicit false

/-- What the parser expected where it found something else. -/
inductive Expectation where
  | expression
  | closeAfterExpression
  | closeAfterArguments
  | memberName
  | endOfExpression
  | literal
deriving DecidableEq, Repr

def Expectation.message : Expectation → String
  | .expression => "Expected expression"
  | .closeAfterExpression => "Expected ')' after expression"
  | .closeAfterArguments => "Expected ')' after arguments"
  | .memberName => "Expected member name after '.'"
  | .endOfExpression => "Expected end of expression"
  | .literal => "Expected a literal"

/-- Why source text is no expression. -/
inductive ParseError where
  | lex (e : ScanError)
  /-- `found` is the offending lexeme, or a description of the end of a line or of the
  input. -/
  | unexpected (found : String) (expected : Expectation) (span : Span)
  | literalFormat (kind : LiteralKind) (lexeme : String) (span : Span)
  /-- An operator failed on known operands; the span is the operator's. -/
  | fold (e : EvalError) (span : Span)
  | recursionLimit (limit : Nat) (span : Span)

namespace ParseError

def span : ParseError → Span
  | .lex e => e.span
  | .unexpected _ _ s => s
  | .literalFormat _ _ s => s
  | .fold _ s => s
  | .recursionLimit _ s => s

/-- The error without its position. -/
def detail : ParseError → String
  | .lex e => "Error: " ++ e.problem.message
  | .unexpected found expected _ => "Error at '" ++ found ++ "': " ++ expected.message
  | .literalFormat kind lexeme _ => "Error: malformed " ++ kind.name ++ " literal " ++ lexeme
  | .fold e _ =>
    match e with
    | .divisionByZero | .overflow => "Error: " ++ e.message
    | _ => "Error: type mismatch: " ++ e.message
  | .recursionLimit limit _ =>
    "Error: expression nested deeper than " ++ toString limit ++ " levels"

/-- The text of the error: its span in brackets, then the detail. -/
def message (e : ParseError) : String :=
  "[" ++ e.span.text ++ "] " ++ e.detail

def kindName : ParseError → String
  | .lex _ => "Lex"
  | .unexpected .. => "UnexpectedToken"
  | .literalFormat .. => "LiteralFormat"
  | .fold e _ => e.kindName
  | .recursionLimit .. => "RecursionLimit"

end ParseError

end ScriptFold
