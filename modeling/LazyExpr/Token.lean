import LazyExpr.Location
import LazyExpr.Number
import LazyExpr.Operator

/-!
# Tokens

The words and signs of the language.  Strings are held with their escapes resolved.
-/

namespace LazyExpr

/-- A token of source text. -/
inductive Token where
  | decimal (value : Decimal)
  | integer (value : Int64)
  | bool (value : Bool)
  | null
  | ifWord
  | thenWord
  | elseWord
  | identifier (name : String)
  | str (text : String)
  /-- The body of an interpolated string. -/
  | template (body : String)
  | backslash
  | arrow
  | leftParen
  | rightParen
  | leftBracket
  | rightBracket
  | comma
  | dots
  | dollar
  | operator (op : BinaryOp)
  | bang
  deriving DecidableEq

/-- Whether two tokens say the same. Decimals are compared by value. -/
def Token.agrees : Token → Token → Bool
  | .decimal a, .decimal b => a.sameValue b
  | a, b => decide (a = b)

/-- The keywords. -/
def Token.keywords : List (String × Token) :=
  [("null", .null), ("if", .ifWord), ("then", .thenWord), ("else", .elseWord)]

/-- A token with its place. -/
structure Spanned where
  token : Token
  location : Location
  deriving DecidableEq

end LazyExpr
