import ScriptFold.Syntax.Expr
import ScriptFold.Source.Literal
import ScriptFold.Operator.Apply
/-!
The parser: tokens to an expression tree, folding as it goes.

The grammar, loosest level first; every infix level is left-associative except `^`:

    expression     → imp
    imp            → eqv ( "Imp" eqv )*
    eqv            → xor ( "Eqv" xor )*
    xor            → or ( "Xor" or )*
    or             → and ( "Or" and )*
    and            → not ( "And" not )*
    not            → "Not"* comparison
    comparison     → concat ( ( "=" | "<>" | "<" | "<=" | ">" | ">=" ) concat )*
    concat         → additive ( "&" additive )*
    additive       → modulo ( ( "+" | "-" ) modulo )*
    modulo         → intdiv ( "Mod" intdiv )*
    intdiv         → multiplicative ( "\" multiplicative )*
    multiplicative → sign ( ( "*" | "/" ) sign )*
    sign           → ( "+" | "-" )* exponent
    exponent       → primary ( "^" sign )?
    primary        → LITERAL | NAME ( "(" arguments? ")" | "." NAME )* | "(" expression ")"
    arguments      → expression ( "," expression )*

Every node is built through `foldBinary` and `foldUnary`, which replace an operator over known
operands by its value; a parenthesised constant becomes that constant with the parentheses'
span. A failing operator on known operands is an error at the operator's span.

Two limits apply (`Limits`). Nesting depth grows by one for each parenthesised expression,
call argument and `^` operand, and each operator of a prefix run and each call or member suffix
counts as one more level; a deferred tree may not grow taller than `maxHeight`. Either
limit reports the token under the cursor.

Each step returns the tokens it left (`Parsed`), never more than it was given, also when it
fails: a failed parse leaves the cursor where the failure was found. Every recursive call
either consumes a token first or moves to a tighter level, so the parser needs no fuel.
-/
namespace ScriptFold

set_option autoImplicit false

/-- Limits on nesting depth and on the height of deferred trees. -/
structure Limits where
  maxDepth : Nat := 32
  maxHeight : Nat := 1024
deriving DecidableEq, Repr

/-- The outcome of a grammar step over the tokens `ts`: a result, and the tokens it did not
consume, a suffix of `ts`. -/
structure Parsed (ts : List Token) (α : Type) where
  result : Except ParseError α
  rest : List Token
  rest_le : rest.length ≤ ts.length

namespace Parsed

def widen {ts us : List Token} {α : Type} (p : Parsed us α) (h : us.length ≤ ts.length) :
    Parsed ts α :=
  ⟨p.result, p.rest, Nat.le_trans p.rest_le h⟩

def here {ts : List Token} {α : Type} (r : Except ParseError α) : Parsed ts α :=
  ⟨r, ts, Nat.le_refl _⟩

end Parsed

namespace Token

/-- The token under the cursor; past the end, an end token. -/
def current : List Token → Token
  | t :: _ => t
  | [] => Token.eof 0

/-- How the parser names a token it did not expect. -/
def found (t : Token) : String :=
  match t.kind with
  | .eof => "end of input"
  | .newline => "end of line"
  | _ => t.lexeme

end Token

/-- The precedence levels of the grammar, loosest first. -/
inductive Level where
  | imp
  | eqv
  | xor
  | or
  | and
  | not
  | comparison
  | concat
  | additive
  | modulo
  | intDivision
  | multiplicative
  | sign
  | exponent
  | primary
deriving DecidableEq, Repr

namespace Level

def rank : Level → Nat
  | .imp => 14
  | .eqv => 13
  | .xor => 12
  | .or => 11
  | .and => 10
  | .not => 9
  | .comparison => 8
  | .concat => 7
  | .additive => 6
  | .modulo => 5
  | .intDivision => 4
  | .multiplicative => 3
  | .sign => 2
  | .exponent => 1
  | .primary => 0

def next : Level → Level
  | .imp => .eqv
  | .eqv => .xor
  | .xor => .or
  | .or => .and
  | .and => .not
  | .not => .comparison
  | .comparison => .concat
  | .concat => .additive
  | .additive => .modulo
  | .modulo => .intDivision
  | .intDivision => .multiplicative
  | .multiplicative => .sign
  | .sign => .exponent
  | .exponent => .primary
  | .primary => .primary

end Level

def BinaryOp.level : BinaryOp → Level
  | .imp => .imp
  | .eqv => .eqv
  | .xor => .xor
  | .or => .or
  | .and => .and
  | .equal | .notEqual | .less | .lessEqual | .greater | .greaterEqual => .comparison
  | .concat => .concat
  | .add | .subtract => .additive
  | .modulo => .modulo
  | .intDivide => .intDivision
  | .multiply | .divide => .multiplicative
  | .power => .exponent

namespace Level

/-- The infix operator of this level that a token kind spells. -/
def infixOp? (l : Level) (k : TokenKind) : Option BinaryOp :=
  match BinaryOp.ofTokenKind? k with
  | some op => if op.level = l then some op else none
  | none => none

/-- The prefix operator of this level that a token kind spells: `Not` at the `not` level,
`+` and `-` at the `sign` level. -/
def prefixOp? (l : Level) (k : TokenKind) : Option UnaryOp :=
  match l, k with
  | .not, .notOp => some .not
  | .sign, .plus => some .plus
  | .sign, .minus => some .negate
  | _, _ => none

end Level

namespace Parse

/-! ## Folding -/

/-- The node for `left op right`, folded into a constant when both operands are. -/
def foldBinary (op : BinaryOp) (operator : Token) (left right : Expr) : Except ParseError Expr :=
  match left, right with
  | .const a sa, .const b sb =>
    match op.apply a b with
    | .ok v => .ok (.const v (sa.cover sb))
    | .error e => .error (.fold e operator.span)
  | _, _ => .ok (.binary op operator left right)

/-- The node for `op operand`, folded into a constant when the operand is one. -/
def foldUnary (op : UnaryOp) (operator : Token) (operand : Expr) : Except ParseError Expr :=
  match operand with
  | .const v s =>
    match op.apply v with
    | .ok w => .ok (.const w (operator.span.cover s))
    | .error e => .error (.fold e operator.span)
  | _ => .ok (.unary op operator operand)

/-- Prefix operators applied inside-out: the one nearest the operand first. -/
def applyPrefixOps (ops : List (UnaryOp × Token)) (operand : Expr) : Except ParseError Expr :=
  ops.foldr (fun (op, t) acc => acc.bind (foldUnary op t)) (.ok operand)

/-- A tree no taller than the height limit; the limit reports the token under the cursor. -/
def checkHeight (cfg : Limits) (e : Expr) (ts : List Token) : Except ParseError Expr :=
  if e.height ≤ cfg.maxHeight then .ok e
  else .error (.recursionLimit cfg.maxHeight (Token.current ts).span)

/-- A run of prefix operators of one level, each counting as one level of nesting. -/
def prefixRun (cfg : Limits) (depth : Nat) (pick : TokenKind → Option UnaryOp) :
    (count : Nat) → (ts : List Token) → Parsed ts (List (UnaryOp × Token))
  | _, [] => .here (.ok [])
  | count, t :: rest =>
    match pick t.kind with
    | none => .here (.ok [])
    | some op =>
      if cfg.maxDepth ≤ depth + count then
        .here (.error (.recursionLimit cfg.maxDepth t.span))
      else
        let p := prefixRun cfg depth pick (count + 1) rest
        ⟨p.result.map ((op, t) :: ·), p.rest, Nat.le_succ_of_le p.rest_le⟩

/-! ## The grammar -/

mutual

/-- An expression, one level of nesting deeper. -/
def expression (cfg : Limits) (depth : Nat) (ts : List Token) : Parsed ts Expr :=
  if cfg.maxDepth ≤ depth then .here (.error (.recursionLimit cfg.maxDepth (Token.current ts).span))
  else level cfg (depth + 1) .imp ts
termination_by (ts.length, 40)
decreasing_by simp only [Prod.lex_def, Level.rank, true_and]; omega

/-- One precedence level. -/
def level (cfg : Limits) (depth : Nat) (l : Level) (ts : List Token) : Parsed ts Expr :=
  match hl : l with
  | .primary =>
    match ts with
    | [] => .here (.error (.unexpected (Token.current []).found .expression (Token.current []).span))
    | t :: rest =>
      match t.kind with
      | .literal _ => ⟨t.literalValue.map (.const · t.span), rest, Nat.le_succ _⟩
      | .identifier => (suffixes cfg depth 0 (.name t) rest).widen (Nat.le_succ _)
      | .leftParen =>
        match expression cfg depth rest with
        | ⟨.error e, r, h⟩ => ⟨.error e, r, Nat.le_succ_of_le h⟩
        | ⟨.ok inner, r, h⟩ =>
          match r with
          | c :: r' =>
            if c.kind = .rightParen then
              let span := t.span.cover c.span
              match inner with
              | .const v _ => ⟨.ok (.const v span), r', by simp at h ⊢; omega⟩
              | deferred =>
                ⟨checkHeight cfg (.group deferred span) r', r', by simp at h ⊢; omega⟩
            else
              ⟨.error (.unexpected c.found .closeAfterExpression c.span), c :: r',
                Nat.le_succ_of_le h⟩
          | [] =>
            ⟨.error (.unexpected (Token.current []).found .closeAfterExpression
              (Token.current []).span), [], Nat.zero_le _⟩
      | _ => .here (.error (.unexpected t.found .expression t.span))
  | .exponent =>
    match level cfg depth .primary ts with
    | ⟨.error e, r, h⟩ => ⟨.error e, r, h⟩
    | ⟨.ok base, r, h⟩ =>
      match r with
      | t :: rest =>
        if t.kind = .caret then
          if cfg.maxDepth ≤ depth then
            ⟨.error (.recursionLimit cfg.maxDepth (Token.current rest).span), rest,
              by simp at h; omega⟩
          else
            match level cfg (depth + 1) .sign rest with
            | ⟨.error e, r2, h2⟩ => ⟨.error e, r2, by simp at h; omega⟩
            | ⟨.ok power, r2, h2⟩ =>
              ⟨(foldBinary .power t base power).bind (checkHeight cfg · r2), r2,
                by simp at h; omega⟩
        else ⟨.ok base, t :: rest, h⟩
      | [] => ⟨.ok base, [], h⟩
  | .not | .sign =>
    match prefixRun cfg depth l.prefixOp? 0 ts with
    | ⟨.error e, r, h⟩ => ⟨.error e, r, h⟩
    | ⟨.ok ops, r, h⟩ =>
      match level cfg depth l.next r with
      | ⟨.error e, r2, h2⟩ => ⟨.error e, r2, Nat.le_trans h2 h⟩
      | ⟨.ok operand, r2, h2⟩ =>
        ⟨(applyPrefixOps ops operand).bind (checkHeight cfg · r2), r2, Nat.le_trans h2 h⟩
  | .imp | .eqv | .xor | .or | .and | .comparison | .concat | .additive | .modulo
  | .intDivision | .multiplicative =>
    match level cfg depth l.next ts with
    | ⟨.error e, r, h⟩ => ⟨.error e, r, h⟩
    | ⟨.ok first, r, h⟩ => (chain cfg depth l first r).widen h
termination_by (ts.length, 2 * l.rank + 2)
decreasing_by
  all_goals
    try subst hl
    try simp only [List.length_cons] at *
    simp only [Prod.lex_def, Level.rank, Level.next, true_and]
    omega

/-- The rest of a left-associative level after its first operand `acc`. -/
def chain (cfg : Limits) (depth : Nat) (l : Level) (acc : Expr) (ts : List Token) :
    Parsed ts Expr :=
  match ts with
  | [] => .here (.ok acc)
  | t :: rest =>
    match l.infixOp? t.kind with
    | none => .here (.ok acc)
    | some op =>
      match level cfg depth l.next rest with
      | ⟨.error e, r, h⟩ => ⟨.error e, r, Nat.le_succ_of_le h⟩
      | ⟨.ok right, r, h⟩ =>
        match (foldBinary op t acc right).bind (checkHeight cfg · r) with
        | .error e => ⟨.error e, r, Nat.le_succ_of_le h⟩
        | .ok e => (chain cfg depth l e r).widen (Nat.le_succ_of_le h)
termination_by (ts.length, 2 * l.rank + 1)
decreasing_by
  all_goals
    simp only [List.length_cons] at *
    simp only [Prod.lex_def]
    omega

/-- Call and member suffixes after a name; `count` suffixes are already taken. -/
def suffixes (cfg : Limits) (depth count : Nat) (e : Expr) (ts : List Token) : Parsed ts Expr :=
  match ts with
  | [] => .here (checkHeight cfg e [])
  | t :: rest =>
    if t.kind = .leftParen ∨ t.kind = .dot then
      if cfg.maxDepth ≤ depth + count then .here (.error (.recursionLimit cfg.maxDepth t.span))
      else if t.kind = .leftParen then
        match arguments cfg depth rest with
        | ⟨.error err, r, h⟩ => ⟨.error err, r, Nat.le_succ_of_le h⟩
        | ⟨.ok (args, close), r, h⟩ =>
          (suffixes cfg depth (count + 1) (.call e args close) r).widen (Nat.le_succ_of_le h)
      else
        match rest with
        | n :: rest' =>
          if n.kind = .identifier then
            (suffixes cfg depth (count + 1) (.member e n) rest').widen (by simp; omega)
          else ⟨.error (.unexpected n.found .memberName n.span), n :: rest', Nat.le_succ _⟩
        | [] =>
          ⟨.error (.unexpected (Token.current []).found .memberName (Token.current []).span), [],
            Nat.zero_le _⟩
    else .here (checkHeight cfg e (t :: rest))
termination_by (ts.length, 0)
decreasing_by
  all_goals
    simp only [List.length_cons] at *
    simp only [Prod.lex_def]
    omega

/-- The arguments of a call after its `(`, with the closing `)`. -/
def arguments (cfg : Limits) (depth : Nat) (ts : List Token) : Parsed ts (List Expr × Token) :=
  match ts with
  | c :: rest =>
    if c.kind = .rightParen then ⟨.ok ([], c), rest, Nat.le_succ _⟩
    else argumentList cfg depth [] (c :: rest)
  | [] => argumentList cfg depth [] []
termination_by (ts.length, 42)
decreasing_by
  all_goals
    try simp only [List.length_cons] at *
    simp only [Prod.lex_def, true_and]
    omega

/-- Arguments after those in `acc` (read so far, the latest first): an expression, then a comma
and more, or the `)`. -/
def argumentList (cfg : Limits) (depth : Nat) (acc : List Expr) (ts : List Token) :
    Parsed ts (List Expr × Token) :=
  match expression cfg depth ts with
  | ⟨.error e, r, h⟩ => ⟨.error e, r, h⟩
  | ⟨.ok arg, r, h⟩ =>
    match r with
    | c :: rest =>
      if c.kind = .comma then
        (argumentList cfg depth (arg :: acc) rest).widen (by simp at h; omega)
      else if c.kind = .rightParen then ⟨.ok ((arg :: acc).reverse, c), rest, by simp at h; omega⟩
      else ⟨.error (.unexpected c.found .closeAfterArguments c.span), c :: rest, h⟩
    | [] =>
      ⟨.error (.unexpected (Token.current []).found .closeAfterArguments
        (Token.current []).span), [], h⟩
termination_by (ts.length, 41)
decreasing_by
  all_goals
    try simp only [List.length_cons] at *
    simp only [Prod.lex_def, true_and]
    omega

end

end Parse

/-- Parse one expression from the start of `ts` with the given limits, leaving the rest. -/
def Expr.parseTokens (cfg : Limits) (ts : List Token) : Parsed ts Expr :=
  Parse.expression cfg 0 ts

/-- Scan and parse `src` as exactly one expression; line breaks may follow it, nothing
else. -/
def Expr.parse (src : String) (cfg : Limits := {}) : Except ParseError Expr :=
  match Token.scanAll src with
  | .error e => .error (.lex e)
  | .ok tokens =>
    let p := Expr.parseTokens cfg tokens
    match p.result with
    | .error e => .error e
    | .ok e =>
      match p.rest.dropWhile (·.kind = .newline) with
      | t :: _ =>
        if t.kind = .eof then .ok e
        else .error (.unexpected t.lexeme .endOfExpression t.span)
      | [] => .ok e

end ScriptFold
