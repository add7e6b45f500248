import ScriptFold.Syntax.Expr
import ScriptFold.Value.Text
/-!
Printing a tree back to source text. Every operator node brings its own parentheses, so the
text reads back with the same grouping whatever the precedence levels say. A folded constant
prints as its literal, in parentheses when it starts with a minus sign (`-5 ^ x` would read as
`-(5 ^ x)`). A group around an operator node adds no second pair of parentheses.
-/
namespace ScriptFold

set_option autoImplicit false

namespace Expr

/-- The text of a constant: its literal, parenthesised when it starts with a minus sign. -/
def constText (v : Value) : String :=
  let lit := v.literal
  if lit.startsWith "-" then "(" ++ lit ++ ")" else lit

mutual
/-- Source text for a tree. -/
def print : Expr → String
  | .const v _ => constText v
  | .name t => t.lexeme
  | .member o n => o.print ++ "." ++ n.lexeme
  | .call f args _ => f.print ++ "(" ++ ", ".intercalate (printAll args) ++ ")"
  | .group e _ => if e.isOperator then e.print else "(" ++ e.print ++ ")"
  | .unary op _ e =>
    if op = .not then "(Not " ++ e.print ++ ")" else "(" ++ op.symbol ++ e.print ++ ")"
  | .binary op _ l r => "(" ++ l.print ++ " " ++ op.symbol ++ " " ++ r.print ++ ")"

def printAll : List Expr → List String
  | [] => []
  | e :: es => e.print :: printAll es
end

end Expr

end ScriptFold
