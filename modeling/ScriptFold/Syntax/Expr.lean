import ScriptFold.Operator.Basic
import ScriptFold.Value.Basic
/-!
Expression trees. A subtree whose operands were all known has been folded into a constant that
keeps the span of everything it replaced; names, member accesses and calls stay deferred, and
so does every operator above them.

Main definitions: `Expr`, `Expr.height` (the number of nodes on the longest path down, call
arguments, member objects and grouped contents included), `Expr.span`, `Expr.isFoldable`.
-/
namespace ScriptFold

set_option autoImplicit false

/-- An expression tree. -/
inductive Expr where
  /-- A folded constant and the span of the source it stands for. -/
  | const (value : Value) (span : Span)
  /-- A name, plain or bracketed. -/
  | name (token : Token)
  /-- `object.name` -/
  | member (object : Expr) (name : Token)
  /-- `callee(args)`, with the closing parenthesis; indexing looks the same. -/
  | call (callee : Expr) (args : List Expr) (close : Token)
  /-- A parenthesised deferred expression and the span with its parentheses. -/
  | group (inner : Expr) (span : Span)
  /-- A prefix operator on a deferred operand. -/
  | unary (op : UnaryOp) (operator : Token) (operand : Expr)
  /-- An infix operator with a deferred operand. -/
  | binary (op : BinaryOp) (operator : Token) (left right : Expr)

namespace Expr

mutual
/-- The number of nodes on the longest path down from the root. -/
def height : Expr → Nat
  | .const .. => 1
  | .name _ => 1
  | .member o _ => o.height + 1
  | .call f args _ => max f.height (heights args) + 1
  | .group e _ => e.height + 1
  | .unary _ _ e => e.height + 1
  | .binary _ _ l r => max l.height r.height + 1

def heights : List Expr → Nat
  | [] => 0
  | e :: es => max e.height (heights es)
end

/-- The source range the tree covers. -/
def span : Expr → Span
  | .const _ s => s
  | .name t => t.span
  | .member o n => o.span.cover n.span
  | .call f _ close => f.span.cover close.span
  | .group _ s => s
  | .unary _ t e => t.span.cover e.span
  | .binary _ _ l r => l.span.cover r.span

/-- Is the tree made of known values and operators alone? Names, members and calls may be
anything when the script runs. -/
def isFoldable : Expr → Bool
  | .const .. => true
  | .name _ => false
  | .member .. => false
  | .call .. => false
  | .group e _ => e.isFoldable
  | .unary _ _ e => e.isFoldable
  | .binary _ _ l r => l.isFoldable && r.isFoldable

def folded? : Expr → Option Value
  | .const v _ => some v
  | _ => none

def isOperator : Expr → Bool
  | .unary .. => true
  | .binary .. => true
  | _ => false

end Expr

/-- The node kind of an infix operator: operators of one precedence level share it, except
that `\` and `Mod` have levels of their own. -/
def BinaryOp.nodeKind : BinaryOp → String
  | .power => "Exponent"
  | .multiply | .divide => "Multiplicative"
  | .intDivide => "IntDivision"
  | .modulo => "Modulo"
  | .add | .subtract => "Additive"
  | .concat => "Concat"
  | .equal | .notEqual | .less | .lessEqual | .greater | .greaterEqual => "Comparison"
  | .and => "And"
  | .or => "Or"
  | .xor => "Xor"
  | .eqv => "Eqv"
  | .imp => "Imp"

def Expr.kind : Expr → String
  | .const .. => "Eval"
  | .name _ => "Identifier"
  | .member .. => "Member"
  | .call .. => "Call"
  | .group .. => "Grouping"
  | .unary op .. => if op = .not then "Not" else "Sign"
  | .binary op .. => op.nodeKind

end ScriptFold
