import LazyExpr.Expr
import LazyExpr.Text.Escape

/-!
# Expressions as source text

`Expr.source` writes an expression so that it reads back, with brackets only where the binding
strength of an operand asks for them.  Captured environments are not consulted here: a parameter
slot is written by its name.  Values that captured arguments are written after `Expr.inline` has put
the arguments in their places.

* `bracketed` is the one place where brackets are decided.
* `Expr.precedence` says how tightly the written form of an expression binds.
-/

namespace LazyExpr

/-! ## 1. Binding strength of written forms -/

/-- How tightly a written number binds: a minus sign in front binds like a prefix operator. -/
def Number.precedence (n : Number) : Nat :=
  if n.isNegative && decide (n ≠ .integer Int64.minValue) then Precedence.unary else Precedence.atom

/-- How tightly a written list binds. -/
def LazyList.precedence : LazyList → Nat
  | .prepend .. | .concat .. => BinaryOp.concat.precedence
  | .mapped .. | .filtered .. | .dropped .. => Precedence.application
  | .items .. | .progression _ => Precedence.atom

/-- How tightly a written expression binds. -/
def Expr.precedence : Expr → Nat
  | .number n => n.precedence
  | .list l => l.precedence
  | .call .. | .applied .. => Precedence.application
  | .lambda .. | .closure .. | .conditional .. => Precedence.lowest
  | .unary .. => Precedence.unary
  | .binary op .. => op.precedence
  | _ => Precedence.atom

/-- Text in brackets if it binds less tightly than its place asks for. -/
def bracketed (least strength : Nat) (text : String) : String :=
  if strength < least then "(" ++ text ++ ")" else text

/-! ## 2. Writing -/

/-- The head of a lambda. -/
def lambdaHead (parameters : List String) : String :=
  "\\" ++ " ".intercalate parameters ++ " -> "

mutual

/-- The source text of an expression. -/
def Expr.source : Expr → String
  | .number n => n.source
  | .bool b => if b then "true" else "false"
  | .str text => "\"" ++ Text.escape text ++ "\""
  | .null => "null"
  | .list l => l.source
  | .range start second stop =>
    "[" ++ start.source ++ (match second with | some e => ", " ++ e.source | none => "") ++ ".." ++
      (match stop with | some e => e.source | none => "") ++ "]"
  | .call function argument =>
    bracketed Precedence.application function.precedence function.source ++ " " ++
      bracketed Precedence.atom argument.precedence argument.source
  | .function f => f.name
  | .lambda _ parameters body => lambdaHead parameters ++ body.source
  | .closure _ parameters body _ => lambdaHead parameters ++ body.source
  | .argument slot => slot.name
  | .applied target arguments =>
    bracketed Precedence.application target.precedence target.source ++ argumentsSource arguments
  | .unary op operand =>
    op.symbol ++ bracketed Precedence.atom operand.precedence operand.source
  | .binary op left right =>
    bracketed op.leftPrecedence left.precedence left.source ++ " " ++ op.symbol ++ " " ++
      bracketed op.rightPrecedence right.precedence right.source
  | .leftSection op left =>
    "(" ++ bracketed op.leftPrecedence left.precedence left.source ++ " " ++ op.symbol ++ ")"
  | .rightSection op right =>
    "(" ++ op.symbol ++ " " ++ bracketed op.rightPrecedence right.precedence right.source ++ ")"
  | .conditional condition yes no =>
    "if " ++ condition.source ++ " then " ++ yes.source ++ " else " ++ no.source
  | .interpolated fragments => "p\"" ++ fragmentsSource fragments ++ "\""

/-- The source text of a list. -/
def LazyList.source : LazyList → String
  | .items [] _ _ => "[]"
  | .items (x :: xs) _ _ => "[" ++ x.source ++ elementsSource xs ++ "]"
  | .progression range => range.source
  | .prepend head tail =>
    bracketed BinaryOp.prepend.leftPrecedence head.precedence head.source ++ " : " ++
      bracketed BinaryOp.prepend.rightPrecedence tail.precedence tail.source
  | .concat first second =>
    bracketed BinaryOp.concat.leftPrecedence first.precedence first.source ++ " ++ " ++
      bracketed BinaryOp.concat.rightPrecedence second.precedence second.source
  | .mapped function source =>
    "map " ++ bracketed Precedence.atom function.precedence function.source ++ " " ++
      bracketed Precedence.atom source.precedence source.source
  | .filtered predicate source =>
    "filter " ++ bracketed Precedence.atom predicate.precedence predicate.source ++ " " ++
      bracketed Precedence.atom source.precedence source.source
  | .dropped count source =>
    "drop " ++ String.ofList (Nat.toDigits 10 count) ++ " " ++
      bracketed Precedence.atom source.precedence source.source

/-- The elements of a list behind the first. -/
def elementsSource : List Expr → String
  | [] => ""
  | x :: xs => ", " ++ x.source ++ elementsSource xs

/-- The arguments that a function has received. -/
def argumentsSource : List Expr → String
  | [] => ""
  | x :: xs => " " ++ bracketed Precedence.atom x.precedence x.source ++ argumentsSource xs

/-- The body of an interpolated string; an embedded expression is escaped like the text around
it. -/
def fragmentsSource : List Fragment → String
  | [] => ""
  | .text text :: rest => Text.escape text ++ fragmentsSource rest
  | .embedded e :: rest => "$\x7b" ++ Text.escape e.source ++ "\x7d" ++ fragmentsSource rest

end

end LazyExpr
