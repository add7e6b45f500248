import ScriptFold.Source.Token
/-!
The operators of script expressions: nineteen infix operators and three prefix operators, the
token kinds that spell them, their canonical spelling and their names.
-/
namespace ScriptFold

set_option autoImplicit false

/-- Infix operators, loosest first. -/
inductive BinaryOp where
  | imp
  | eqv
  | xor
  | or
  | and
  | equal
  | notEqual
  | less
  | lessEqual
  | greater
  | greaterEqual
  | concat
  | add
  | subtract
  | modulo
  | intDivide
  | multiply
  | divide
  | power
deriving DecidableEq, Repr

namespace BinaryOp

def ofTokenKind? : TokenKind → Option BinaryOp
  | .impOp => some .imp
  | .eqvOp => some .eqv
  | .xorOp => some .xor
  | .orOp => some .or
  | .andOp => some .and
  | .equal => some .equal
  | .notEqual => some .notEqual
  | .less => some .less
  | .lessEqual => some .lessEqual
  | .greater => some .greater
  | .greaterEqual => some .greaterEqual
  | .ampersand => some .concat
  | .plus => some .add
  | .minus => some .subtract
  | .modOp => some .modulo
  | .backslash => some .intDivide
  | .star => some .multiply
  | .slash => some .divide
  | .caret => some .power
  | _ => none

/-- The canonical source spelling. -/
def symbol : BinaryOp → String
  | .imp => "Imp"
  | .eqv => "Eqv"
  | .xor => "Xor"
  | .or => "Or"
  | .and => "And"
  | .equal => "="
  | .notEqual => "<>"
  | .less => "<"
  | .lessEqual => "<="
  | .greater => ">"
  | .greaterEqual => ">="
  | .concat => "&"
  | .add => "+"
  | .subtract => "-"
  | .modulo => "Mod"
  | .intDivide => "\\"
  | .multiply => "*"
  | .divide => "/"
  | .power => "^"

def name : BinaryOp → String
  | .imp => "Imp"
  | .eqv => "Eqv"
  | .xor => "Xor"
  | .or => "Or"
  | .and => "And"
  | .equal => "Equal"
  | .notEqual => "NotEqual"
  | .less => "Less"
  | .lessEqual => "LessEqual"
  | .greater => "Greater"
  | .greaterEqual => "GreaterEqual"
  | .concat => "Concat"
  | .add => "Add"
  | .subtract => "Subtract"
  | .modulo => "Modulo"
  | .intDivide => "IntDivide"
  | .multiply => "Multiply"
  | .divide => "Divide"
  | .power => "Power"

def all : List BinaryOp :=
  [.imp, .eqv, .xor, .or, .and, .equal, .notEqual, .less, .lessEqual, .greater,
    .greaterEqual, .concat, .add, .subtract, .modulo, .intDivide, .multiply, .divide, .power]

def ofName? (n : String) : Option BinaryOp :=
  all.find? (·.name == n)

end BinaryOp

inductive UnaryOp where
  | negate
  | plus
  | not
deriving DecidableEq, Repr

namespace UnaryOp

def ofTokenKind? : TokenKind → Option UnaryOp
  | .minus => some .negate
  | .plus => some .plus
  | .notOp => some .not
  | _ => none

/-- The canonical source spelling. -/
def symbol : UnaryOp → String
  | .negate => "-"
  | .plus => "+"
  | .not => "Not"

def name : UnaryOp → String
  | .negate => "Negate"
  | .plus => "Plus"
  | .not => "Not"

def ofName? (n : String) : Option UnaryOp :=
  [UnaryOp.negate, .plus, .not].find? (·.name == n)

end UnaryOp

end ScriptFold
