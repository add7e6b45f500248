import ScriptFold.Syntax.Parse
/-!
A token stream: scanned tokens and a cursor. The tokens always end with an end token, which
the cursor never passes: advancing at the end returns the end token again. The parser can run
on the stream and leaves the cursor on the first token after its expression, or where it
failed.
-/
namespace ScriptFold

set_option autoImplicit false

/-- Scanned tokens and the index of the token under the cursor. -/
structure TokenStream where
  tokens : List Token
  position : Nat

namespace TokenStream

/-- A stream at the start of `ts`, an end token appended at the last token's end (or at 0)
unless `ts` already ends with one. -/
def ofTokens (ts : List Token) : TokenStream :=
  match ts.getLast? with
  | some t => ⟨if t.kind = .eof then ts else ts ++ [Token.eof t.span.stop], 0⟩
  | none => ⟨[Token.eof 0], 0⟩

/-- Scan `src` completely; the first lexical problem is reported instead. -/
def ofSource (src : String) : Except ScanError TokenStream :=
  (Token.scanAll src).map ofTokens

def remaining (s : TokenStream) : List Token :=
  s.tokens.drop s.position

def peek (s : TokenStream) : Token :=
  Token.current s.remaining

/-- Consume the token under the cursor and return it; at the end the cursor stays. -/
def advance (s : TokenStream) : Token × TokenStream :=
  let t := s.peek
  (t, if t.kind = .eof then s else { s with position := s.position + 1 })

def check (s : TokenStream) (k : TokenKind) : Bool :=
  s.peek.kind = k

/-- Consume the token under the cursor if it is of kind `k`. -/
def consumeIf (s : TokenStream) (k : TokenKind) : Option Token × TokenStream :=
  if s.check k then
    let (t, s') := s.advance
    (some t, s')
  else (none, s)

def isAtEnd (s : TokenStream) : Bool :=
  s.check .eof

/-- Parse one expression with the default limits from the cursor; the cursor moves past
what the parser consumed, also when it fails. -/
def parseExpr (s : TokenStream) : Except ParseError Expr × TokenStream :=
  let p := Expr.parseTokens {} s.remaining
  (p.result, { s with position := s.tokens.length - p.rest.length })

/-! ## Driving a stream -/

/-- The operations a front end drives a stream with. -/
inductive Step where
  | peek
  | advance
  | check (k : TokenKind)
  /-- Consume the token under the cursor if it is of kind `k`. -/
  | consumeIf (k : TokenKind)
  | isAtEnd
  | position
  | remaining
  | parseExpr
deriving DecidableEq, Repr

/-- What an operation answers. -/
inductive Reply where
  | token (t : Token)
  | token? (t : Option Token)
  | flag (b : Bool)
  | index (n : Nat)
  | tokens (ts : List Token)
  | tree (r : Except ParseError Expr)

/-- One operation: its answer and the stream after it. -/
def Step.apply : Step → TokenStream → Reply × TokenStream
  | .peek, s => (.token s.peek, s)
  | .advance, s => (.token s.advance.1, s.advance.2)
  | .check k, s => (.flag (s.check k), s)
  | .consumeIf k, s => (.token? (s.consumeIf k).1, (s.consumeIf k).2)
  | .isAtEnd, s => (.flag s.isAtEnd, s)
  | .position, s => (.index s.position, s)
  | .remaining, s => (.tokens s.remaining, s)
  | .parseExpr, s => (.tree s.parseExpr.1, s.parseExpr.2)

/-- The streams that a run of operations passes through, the first one included. -/
def trace (s : TokenStream) : List Step → List TokenStream
  | [] => [s]
  | st :: sts => s :: trace (st.apply s).2 sts

end TokenStream

end ScriptFold
