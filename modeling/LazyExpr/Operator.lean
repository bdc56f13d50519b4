/-!
# Operators

The prefix operators and the binary operators with their symbols, binding strengths and grouping.  A
binary operator asks of each operand that it binds at least as tightly as `leftPrecedence` and
`rightPrecedence` say; the two differ by one, on the side to which the operator does not group.
-/

namespace LazyExpr

/-! ## 1. Binding strengths beside the operators' own -/

namespace Precedence

/-- A position that admits everything: lambda bodies, list elements, whatever stands in brackets. -/
def lowest : Nat := 0

/-- Application by juxtaposition. -/
def application : Nat := 12

/-- Prefix operators and negative numbers. -/
def unary : Nat := 13

/-- Literals, names and bracketed forms. -/
def atom : Nat := 14

end Precedence

/-! ## 2. Prefix operators -/

/-- A prefix operator. -/
inductive UnaryOp where
  | negate
  | not
  deriving DecidableEq, Repr

/-- The symbol of a prefix operator. -/
def UnaryOp.symbol : UnaryOp → String
  | negate => "-"
  | not => "!"

/-! ## 3. Binary operators -/

/-- A binary operator. -/
inductive BinaryOp where
  | or
  | and
  | equal
  | notEqual
  | less
  | lessEqual
  | greater
  | greaterEqual
  | concat
  | prepend
  | add
  | sub
  | mul
  | div
  | mod
  deriving DecidableEq, Repr

namespace BinaryOp

/-- All binary operators. -/
def all : List BinaryOp :=
  [or, and, equal, notEqual, less, lessEqual, greater, greaterEqual, concat, prepend, add, sub, mul,
    div, mod]

/-- How tightly the operator binds. -/
def precedence : BinaryOp → Nat
  | or => 2
  | and => 3
  | equal | notEqual | less | lessEqual | greater | greaterEqual => 4
  | concat | prepend => 5
  | add | sub => 6
  | mul | div | mod => 7

/-- Whether a chain of the operator groups from the right. -/
def isRightAssociative : BinaryOp → Bool
  | concat | prepend => true
  | _ => false

/-- The least binding strength of a left operand without brackets. -/
def leftPrecedence (op : BinaryOp) : Nat :=
  if op.isRightAssociative then op.precedence + 1 else op.precedence

/-- The least binding strength of a right operand without brackets. -/
def rightPrecedence (op : BinaryOp) : Nat :=
  if op.isRightAssociative then op.precedence else op.precedence + 1

/-- The symbol of the operator. -/
def symbol : BinaryOp → String
  | or => "||"
  | and => "&&"
  | equal => "=="
  | notEqual => "!="
  | less => "<"
  | lessEqual => "<="
  | greater => ">"
  | greaterEqual => ">="
  | concat => "++"
  | prepend => ":"
  | add => "+"
  | sub => "-"
  | mul => "*"
  | div => "/"
  | mod => "%"

/-- The operator with the given symbol. -/
def ofSymbol? (symbol : String) : Option BinaryOp := all.find? fun op => op.symbol == symbol

theorem mem_all (op : BinaryOp) : op ∈ all := by cases op <;> decide

theorem ofSymbol?_symbol (op : BinaryOp) : ofSymbol? op.symbol = some op := by cases op <;> decide

theorem leftPrecedence_add_rightPrecedence (op : BinaryOp) :
    op.leftPrecedence + op.rightPrecedence = 2 * op.precedence + 1 := by cases op <;> decide

end BinaryOp

end LazyExpr
