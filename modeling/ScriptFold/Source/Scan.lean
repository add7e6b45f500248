import ScriptFold.Source.Token
/-!
The scanner: source text to a list of scanned items, each a token or a lexical problem, ending
with the one end-of-input token.

One step looks at the character under the cursor and decides how many of the following
characters belong to the same piece (`Piece`, `step`). The piece becomes a token, is skipped as
trivia (blanks, `'` comments, `_` line continuations), or is reported as a problem; scanning
goes on after a problem. Because a step always takes the character under the cursor, the text
shrinks at every step and `scanFrom` needs no fuel.

The iterator `Scanner.next` gives the same items one call at a time, skipping trivia within a
call, and answers nothing once the end token is out.

Main statement: `scanFrom_nil`, the end token closes every scan.
-/
namespace ScriptFold

set_option autoImplicit false

-- Sums start from core's `0`, whatever other `Zero` instances are in scope.
attribute [local instance (high)] Zero.ofOfNat0

/-! ## Problems -/

/-- Why a stretch of source text is no token. -/
inductive ScanProblem where
  /-- A character that starts no token; a `_` not followed by the end of its line. -/
  | stray (c : Char)
  | unterminatedString
  | unterminatedDate
  | unterminatedName
deriving DecidableEq, Repr

def ScanProblem.message : ScanProblem → String
  | .stray c => "Unexpected character: " ++ c.toString
  | .unterminatedString => "Unterminated string."
  | .unterminatedDate => "Unterminated date literal."
  | .unterminatedName => "Unterminated bracketed name."

/-- A lexical problem and the stretch of source it covers. -/
structure ScanError where
  problem : ScanProblem
  span : Span
deriving DecidableEq, Repr

/-- The text that reports the error: its span in brackets, then the problem. -/
def ScanError.message (e : ScanError) : String :=
  "[" ++ e.span.text ++ "] Error: " ++ e.problem.message

/-! ## Character classes and runs -/

namespace Scan

def isNameChar (c : Char) : Bool :=
  c.isAlphanum || c == '_'

def run (p : Char → Bool) (cs : List Char) : Nat :=
  (cs.takeWhile p).length

theorem run_le (p : Char → Bool) (cs : List Char) : run p cs ≤ cs.length :=
  (List.takeWhile_prefix p).length_le

def byteLength (cs : List Char) : Nat :=
  (cs.map Char.utf8Size).sum

/-- The kind of a word: a keyword in any letter case, or else a name. -/
def wordKind (word : List Char) : TokenKind :=
  match String.ofList (word.map Char.toLower) with
  | "and" => .andOp
  | "or" => .orOp
  | "not" => .notOp
  | "xor" => .xorOp
  | "eqv" => .eqvOp
  | "imp" => .impOp
  | "mod" => .modOp
  | "true" => .literal .boolean
  | "false" => .literal .boolean
  | "empty" => .literal .empty
  | "null" => .literal .null
  | _ => .identifier

/-! ## One step -/

/-- What one step makes of the characters it takes. -/
inductive Piece where
  | token (kind : TokenKind)
  | trivia
  | problem (p : ScanProblem)
deriving DecidableEq, Repr

/-- The length of an exponent part `e`, `e+` or `e-` followed by digits, or 0 when there is
none: an `e` without digits after it is left for the next token. -/
def exponentLength : List Char → Nat
  | e :: s :: d :: more =>
    if (e == 'e' || e == 'E') && (s == '+' || s == '-') && d.isDigit then
      3 + run Char.isDigit more
    else if (e == 'e' || e == 'E') && s.isDigit then
      2 + run Char.isDigit (d :: more)
    else 0
  | e :: s :: [] => if (e == 'e' || e == 'E') && s.isDigit then 2 else 0
  | _ => 0

/-- A number after its first character: the kind and how many more characters it takes.
A fraction needs a digit after its point, and a number that starts with a point has none. -/
def number (startsWithPoint : Bool) (rest : List Char) : Piece × Nat :=
  let whole := run Char.isDigit rest
  let afterWhole := rest.drop whole
  let fraction :=
    if startsWithPoint then 0
    else match afterWhole with
      | '.' :: d :: _ => if d.isDigit then 1 + run Char.isDigit (afterWhole.drop 1) else 0
      | _ => 0
  let exponent := exponentLength (afterWhole.drop fraction)
  let kind : LiteralKind :=
    if startsWithPoint || fraction > 0 || exponent > 0 then .float else .integer
  (.token (.literal kind), whole + fraction + exponent)

/-- A `&H` or `&O` number after its `&`: the marker letter, a run of letters and digits, and an
optional closing `&`. -/
def radixNumber (marker : Char) (rest : List Char) : Piece × Nat :=
  let digits := run Char.isAlphanum rest
  let suffix := match rest.drop digits with
    | '&' :: _ => 1
    | _ => 0
  let kind : LiteralKind := if marker.toUpper == 'H' then .hex else .octal
  (.token (.literal kind), 1 + digits + suffix)

/-- The rest of a string literal after its opening quote, up to and with its closing quote;
`""` stands for one quote, and a line break or the end of the text leaves it open. -/
def stringBody : List Char → Option Nat
  | [] => none
  | '\n' :: _ => none
  | '"' :: '"' :: more => (stringBody more).map (· + 2)
  | '"' :: _ => some 1
  | _ :: more => (stringBody more).map (· + 1)

/-- A piece closed by `close` on the same line: `#date#` and `[name]`. -/
def delimited (close : Char) (kind : TokenKind) (unclosed : ScanProblem) (rest : List Char) :
    Piece × Nat :=
  let body := run (fun c => c != close && c != '\n') rest
  match rest.drop body with
  | c :: _ => if c == close then (.token kind, body + 1) else (.problem unclosed, body)
  | [] => (.problem unclosed, body)

/-- A comment runs to its line break; a carriage return right before that break is left to
the line break. -/
def commentLength (rest : List Char) : Nat :=
  let n := run (· != '\n') rest
  -- only a comment that a line break ends gives its last carriage return back
  if 0 < n && (rest.drop n).length > 0 && (rest.drop (n - 1)).head? == some '\r' then n - 1
  else n

/-- A `_` continues the line when only blanks stand between it and the line break. -/
def continuation (rest : List Char) : Piece × Nat :=
  let blanks := run (fun c => c == ' ' || c == '\t') rest
  let afterBlanks := rest.drop blanks
  let cr := match afterBlanks with
    | '\r' :: _ => 1
    | _ => 0
  match afterBlanks.drop cr with
  | [] => (.trivia, blanks + cr)
  | c :: _ => if c == '\n' then (.trivia, blanks + cr + 1) else (.problem (.stray '_'), blanks + cr)

/-- One step at the character `c` with `rest` after it: the piece, and how many characters of
`rest` it takes beside `c`. -/
def step (c : Char) (rest : List Char) : Piece × Nat :=
  match c with
  | '(' => (.token .leftParen, 0)
  | ')' => (.token .rightParen, 0)
  | ',' => (.token .comma, 0)
  | ':' => (.token .colon, 0)
  | '+' => (.token .plus, 0)
  | '-' => (.token .minus, 0)
  | '*' => (.token .star, 0)
  | '/' => (.token .slash, 0)
  | '\\' => (.token .backslash, 0)
  | '^' => (.token .caret, 0)
  | '=' => (.token .equal, 0)
  | '.' =>
    match rest with
    | d :: _ => if d.isDigit then number true rest else (.token .dot, 0)
    | [] => (.token .dot, 0)
  | '<' =>
    match rest with
    | '>' :: _ => (.token .notEqual, 1)
    | '=' :: _ => (.token .lessEqual, 1)
    | _ => (.token .less, 0)
  | '>' =>
    match rest with
    | '=' :: _ => (.token .greaterEqual, 1)
    | _ => (.token .greater, 0)
  | '&' =>
    match rest with
    | m :: d :: more =>
      if (m.toUpper == 'H' || m.toUpper == 'O') && d.isAlphanum then radixNumber m (d :: more)
      else (.token .ampersand, 0)
    | _ => (.token .ampersand, 0)
  | ' ' => (.trivia, 0)
  | '\t' => (.trivia, 0)
  | '\r' =>
    match rest with
    | '\n' :: _ => (.token .newline, 1)
    | _ => (.trivia, 0)
  | '\n' => (.token .newline, 0)
  | '\'' => (.trivia, commentLength rest)
  | '_' => continuation rest
  | '"' =>
    match stringBody rest with
    | some n => (.token (.literal .string), n)
    | none => (.problem .unterminatedString, run (· != '\n') rest)
  | '#' => delimited '#' (.literal .date) .unterminatedDate rest
  | '[' => delimited ']' .identifier .unterminatedName rest
  | c =>
    if c.isDigit then number false rest
    else if c.isAlpha then
      let n := run isNameChar rest
      (.token (wordKind (c :: rest.take n)), n)
    else (.problem (.stray c), 0)

end Scan

/-! ## The scan -/

open Scan in
/-- Scan the characters `cs`, the first of which lies at byte offset `pos`. -/
def scanFrom (pos : Nat) : List Char → List (Except ScanError Token)
  | [] => [.ok (Token.eof pos)]
  | c :: rest =>
    let (piece, n) := step c rest
    let taken := c :: rest.take n
    let stop := pos + byteLength taken
    let more := scanFrom stop (rest.drop n)
    match piece with
    | .token kind => .ok ⟨kind, String.ofList taken, ⟨pos, stop⟩⟩ :: more
    | .trivia => more
    | .problem p => .error ⟨p, ⟨pos, stop⟩⟩ :: more
termination_by cs => cs.length
decreasing_by simp only [List.length_drop, List.length_cons]; omega

theorem scanFrom_nil (pos : Nat) : scanFrom pos [] = [.ok (Token.eof pos)] := by
  simp [scanFrom]

namespace Token

/-- Every item that scanning `src` yields: tokens and lexical problems in source order, then
the end token at the byte length of `src`. -/
def scan (src : String) : List (Except ScanError Token) :=
  scanFrom 0 src.toList

/-- The tokens of `src` up to its first lexical problem, which is reported instead. -/
def scanAll (src : String) : Except ScanError (List Token) :=
  (scan src).mapM id

end Token

/-! ## The scanner as an iterator -/

/-- The scanner between two calls: the byte offset of its cursor, the byte length of the text
and the characters from the cursor on. Giving the end token moves the cursor one byte past the
end, where every later call gives nothing. -/
structure Scanner where
  curr : Nat
  len : Nat
  rest : List Char
deriving DecidableEq, Repr

namespace Scanner

def new (src : String) : Scanner :=
  ⟨0, src.utf8ByteSize, src.toList⟩

open Scan in
/-- One call: the next item, trivia skipped, and the scanner after it. -/
def next : Scanner → Option (Except ScanError Token) × Scanner
  | ⟨curr, len, cs⟩ =>
    if len < curr then (none, ⟨curr, len, cs⟩)
    else
      match cs with
      | [] => (some (.ok (Token.eof len)), ⟨len + 1, len, []⟩)
      | c :: rest =>
        let (piece, n) := step c rest
        let taken := c :: rest.take n
        let stop := curr + byteLength taken
        let after : Scanner := ⟨stop, len, rest.drop n⟩
        match piece with
        | .token kind => (some (.ok ⟨kind, String.ofList taken, ⟨curr, stop⟩⟩), after)
        | .trivia => next after
        | .problem p => (some (.error ⟨p, ⟨curr, stop⟩⟩), after)
termination_by s => s.rest.length
decreasing_by simp only [List.length_drop, List.length_cons]; omega

/-- The answers of `n` calls in a row. -/
def answers : Nat → Scanner → List (Option (Except ScanError Token))
  | 0, _ => []
  | n + 1, s => s.next.1 :: answers n s.next.2

end Scanner

end ScriptFold
