import LazyExpr.Expr.Cast

/-!
# What operators do

Operators on values that are already known.  Each family of binary operators has its rule; the rules
are total in the operator, so an operator of another family is answered too.

* Two integers give an integer, wrapping around on overflow; with a decimal on either side the
  result is a decimal.  A sum of two strings joins them.
* Equality is defined between numbers, between booleans, between strings, and with null; order
  between numbers only.
* `++` and `:` build views and look at no element.
-/

namespace LazyExpr

/-! ## 1. Arithmetic -/

/-- Arithmetic on integers. -/
def BinaryOp.onIntegers (op : BinaryOp) (a b : Int64) : Except Fault Int64 :=
  match op with
  | .add => .ok (a + b)
  | .sub => .ok (a - b)
  | .mul => .ok (a * b)
  | .div => if b = 0 then .error .divisionByZero else .ok (a / b)
  | .mod => if b = 0 then .error .divisionByZero else .ok (a % b)
  | _ => .error (.notArithmetic op (.integer a) (.integer b))

/-- A decimal result, or the overflow of the operator. -/
def BinaryOp.inRange (op : BinaryOp) : Option Decimal → Except Fault Decimal
  | some d => .ok d
  | none => .error (.overflow op.symbol)

/-- Arithmetic on decimals. -/
def BinaryOp.onDecimals (op : BinaryOp) (a b : Decimal) : Except Fault Decimal :=
  match op with
  | .add => op.inRange (a.add? b)
  | .sub => op.inRange (a.sub? b)
  | .mul => op.inRange (a.mul? b)
  | .div => if b.isZero then .error .divisionByZero else op.inRange (a.div? b)
  | .mod => if b.isZero then .error .divisionByZero else op.inRange (a.rem? b)
  | _ => .error (.notArithmetic op (.decimal a) (.decimal b))

/-- Arithmetic on numbers. -/
def BinaryOp.onNumbers (op : BinaryOp) (a b : Number) : Except Fault Number :=
  match a.promote b with
  | (.integer m, .integer n) => (op.onIntegers m n).map .integer
  | (a, b) => (op.onDecimals a.toDecimal b.toDecimal).map .decimal

/-- Arithmetic on values. -/
def BinaryOp.arithmetic (op : BinaryOp) (left right : Expr) : Except Fault Expr :=
  match op, left, right with
  | .add, .str a, .str b => .ok (.str (a ++ b))
  | op, .number a, .number b => (op.onNumbers a b).map .number
  | op, left, right => .error (.typeMismatch op left right)

/-! ## 2. Comparison -/

/-- Whether two values are equal, where that is defined. -/
def Expr.equal? : Expr → Expr → Option Bool
  | .null, .null => some true
  | .null, _ => some false
  | _, .null => some false
  | .bool a, .bool b => some (a == b)
  | .str a, .str b => some (a == b)
  | .number a, .number b => some (a.compare b == .eq)
  | _, _ => none

/-- What an ordering operator says of an order. -/
def BinaryOp.ofOrdering? : BinaryOp → Ordering → Option Bool
  | .less, o => some (o == .lt)
  | .lessEqual, o => some (o != .gt)
  | .greater, o => some (o == .gt)
  | .greaterEqual, o => some (o != .lt)
  | _, _ => none

/-- The answer of a comparison, where it is defined. -/
def BinaryOp.compares? (op : BinaryOp) (left right : Expr) : Option Bool :=
  match op with
  | .equal => left.equal? right
  | .notEqual => (left.equal? right).map (!·)
  | op => do
    let a ← left.number?
    let b ← right.number?
    op.ofOrdering? (a.compare b)

/-- Comparison of values. -/
def BinaryOp.comparison (op : BinaryOp) (left right : Expr) : Except Fault Expr :=
  match op.compares? left right with
  | some b => .ok (.bool b)
  | none => .error (.typeMismatch op left right)

/-! ## 3. Logic -/

/-- Both operands as booleans, joined; every operator but `or` is taken as `and`. -/
def BinaryOp.logic (op : BinaryOp) (left right : Expr) : Except Fault Expr := do
  let a ← left.asBool
  let b ← right.asBool
  return .bool (if op = .or then a || b else a && b)

/-! ## 4. Lists -/

/-- Views of lists. -/
def BinaryOp.onLists (op : BinaryOp) (left right : Expr) : Except Fault Expr :=
  match op, left, right with
  | .concat, .list first, .list second => .ok (.list (.concat first second))
  | .prepend, head, .list tail => .ok (.list (.prepend head tail))
  | op, left, right => .error (.typeMismatch op left right)

/-! ## 5. All of them -/

/-- A binary operator on two values. -/
def BinaryOp.onValues (op : BinaryOp) (left right : Expr) : Except Fault Expr :=
  match op with
  | .or | .and => op.logic left right
  | .equal | .notEqual | .less | .lessEqual | .greater | .greaterEqual => op.comparison left right
  | .concat | .prepend => op.onLists left right
  | .add | .sub | .mul | .div | .mod => op.arithmetic left right

/-- A prefix operator on a value. -/
def UnaryOp.onValue (op : UnaryOp) (operand : Expr) : Except Fault Expr :=
  match op, operand with
  | .negate, .number (.integer n) => .ok (.integer (-n))
  | .negate, .number (.decimal d) => .ok (.decimal d.neg)
  | .negate, e => .error (.invalidOperand .negate e)
  | .not, e => do return .bool !(← e.asBool)

end LazyExpr
