import LazyExpr.Expr.Inline

/-!
# Faults

A fault ends an evaluation without a value.  It holds the operands it is about, and its text
describes them by kind and source text.

The text is written when it is asked for.  An interpreter that keeps texts in its faults writes it
at once, and a value whose captured arguments lead back to themselves has no finite text: with such
an operand it would not come back from the fault.  What predicts a fault, or that an evaluation
ends, therefore asks that the operands can be written.

* `Expr.explain?` describes a value; `Fault.message?` is the text of a fault.  Both take the fuel
  that writing a value takes.
-/

namespace LazyExpr

/-! ## 1. Describing values -/

/-- The kind of a value, as people are told. -/
def Expr.kind : Expr → String
  | .number (.integer _) => "integer"
  | .number (.decimal _) => "decimal"
  | .bool _ => "boolean"
  | .str _ | .interpolated _ => "string"
  | .null => "null"
  | .list _ | .range .. => "list"
  | .function _ => "function"
  | .lambda .. | .closure .. => "lambda"
  | .applied .. => "partial application"
  | .leftSection .. | .rightSection .. => "operator section"
  | .call .. | .argument _ | .unary .. | .binary .. | .conditional .. => "expression"

/-- A value by its kind and its text. -/
def Expr.explain? (fuel : Nat) : Expr → Option String
  | .null => some "null"
  | .function f => some ("function " ++ f.name)
  | e => (e.display? fuel).map fun text => e.kind ++ " " ++ text

/-- A number by its kind and its bare text. -/
def Number.explain : Number → String
  | .integer n => "integer " ++ (Number.integer n).text
  | .decimal d => "decimal " ++ (Number.decimal d).text

/-! ## 2. Faults -/

/-- A type that a value can be asked to have. -/
inductive Target where
  | boolean
  | integer
  | number
  | string
  | list
  deriving DecidableEq, Repr

/-- The name of a type. -/
def Target.name : Target → String
  | boolean => "boolean"
  | integer => "integer"
  | number => "number"
  | string => "string"
  | list => "list"

/-- Why an evaluation has no value. -/
inductive Fault where
  /-- A binary operator does not take these operands. -/
  | typeMismatch (op : BinaryOp) (left right : Expr)
  /-- Numbers were to be combined by an operator that does not do arithmetic. -/
  | notArithmetic (op : BinaryOp) (left right : Number)
  /-- A prefix operator does not take this operand. -/
  | invalidOperand (op : UnaryOp) (operand : Expr)
  /-- What was applied is no function. -/
  | notCallable (value : Expr)
  /-- A value cannot be taken as the type its place asks for. -/
  | invalidCast (value : Expr) (target : Target)
  /-- A function was called with another number of arguments than it takes. -/
  | arityMismatch (function : String) (expected found : Nat)
  /-- A function that goes through a whole list was given one without an end. -/
  | infiniteList (function : String)
  /-- A function that has to give a value had none. -/
  | emptyResult (function : String)
  | divisionByZero
  /-- A decimal result, or the step of a range, is out of range. -/
  | overflow (operation : String)
  /-- A parameter was evaluated outside of a call of its lambda. -/
  | unboundArgument (name : String)
  /-- Evaluations were nested too deeply. -/
  | recursionLimit (limit : Nat)
  /-- The evaluation was asked to stop. -/
  | cancelled

namespace Fault

/-- Whether the fault is a request to stop and no failure of the expression. -/
def isCancelled : Fault → Bool
  | cancelled => true
  | _ => false

/-- The text about a binary operator and descriptions of its operands. -/
def operandsMessage (op : BinaryOp) (left right : String) : String :=
  "Type error: cannot apply '" ++ op.symbol ++ "' to " ++ left ++ " and " ++ right ++ "."

/-- The text of a fault. -/
def message? (fuel : Nat) : Fault → Option String
  | typeMismatch op left right => do
    return operandsMessage op (← left.explain? fuel) (← right.explain? fuel)
  | notArithmetic op left right => some (operandsMessage op left.explain right.explain)
  | invalidOperand op operand => do
    return "Type error: cannot apply '" ++ op.symbol ++ "' to " ++ (← operand.explain? fuel) ++ "."
  | notCallable value => do
    return "Type error: " ++ (← value.explain? fuel) ++ " is not a function."
  | invalidCast value target => do
    return "Cannot convert " ++ (← value.explain? fuel) ++ " to " ++ target.name ++ "."
  | arityMismatch function expected found =>
    some ("'" ++ function ++ "' takes " ++ toString expected ++ " argument(s) but received " ++
      toString found ++ ".")
  | infiniteList function => some ("'" ++ function ++ "' cannot consume an infinite list.")
  | emptyResult function => some ("'" ++ function ++ "' produced no value.")
  | divisionByZero => some "Division by zero."
  | overflow operation => some ("Overflow while computing '" ++ operation ++ "'.")
  | unboundArgument name => some ("Internal error: argument '" ++ name ++ "' is not bound.")
  | recursionLimit limit =>
    some ("Evaluation nested more than " ++ toString limit ++ " levels deep.")
  | cancelled => some "Evaluation was cancelled."

end Fault

end LazyExpr
