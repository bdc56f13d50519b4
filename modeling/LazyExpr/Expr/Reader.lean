import LazyExpr.Expr.Interpolation
import LazyExpr.Scope
import LazyExpr.Token.Stream

/-!
# Reading expressions

An expression starts with a single value and is extended by whatever may follow it: binary operators
that bind tightly enough, the application sign, and further values, which are arguments.  Names are
resolved in the scope as they are read, parameters to their slots and all else to what it is bound
to.

The readers reach the text and the names through a few operations (`Reading`), so that the same
readers also run where more is kept beside the text.  They call each other, and `fuel` bounds how
deep.  Between two calls at most a few levels deeper a token is taken, so the amount that `parseIn`
gives is never used up.

* `Reader.expression` reads one expression, `Reader.value` a single value, `Reader.extend` what
  follows.
* `parseIn` reads a whole text in a scope and `parse` in the standard one.
-/

namespace LazyExpr

/-! ## 1. What readers need -/

/-- What is read one level deeper than what it is part of. -/
inductive Activation where
  | expression
  /-- The operand of a prefix operator. -/
  | operand
  deriving DecidableEq

/-- What readers do with the text and with names, where `σ` is what they may look at and change, and
`ι` stands for the scopes in it. -/
class Reading (σ : Type) (ι : outParam Type) where
  /-- Looks at the next token; `none` is the end of the text. -/
  peek : ParseM σ (Option Spanned)
  /-- Takes the token that was looked at. -/
  advance : ParseM σ Spanned
  /-- Reads one level deeper and comes up again, also after an error. -/
  deeper {α : Type} (what : Activation) (reader : ParseM σ α) : ParseM σ α
  /-- Reads an expression that stands in an interpolated string, as a text of its own. -/
  embedded (source : String) (location : Location) (reader : ParseM σ Expr) : ParseM σ Expr
  /-- What a name stands for. -/
  resolve (scope : ι) (name : String) (location : Location) : ParseM σ Expr
  /-- Begins the head of a lambda: the scope that its parameters are bound in, and its depth. -/
  enterLambda (scope : ι) : ParseM σ (ι × Nat)
  /-- Binds one more parameter to its slot. -/
  bindParameter (inner : ι) (depth index : Nat) (name : String) : ParseM σ Unit
  /-- The scope of the body, when all parameters are read. -/
  inside (inner : ι) (names : List String) : ι

/-- A single value as read. Brackets around several expressions hold arguments, and are refused
where no arguments can stand. -/
inductive Parsed where
  | single (expr : Expr)
  /-- Expressions in brackets, with the place of the first comma. -/
  | group (items : List Expr) (comma : Location)

/-- The arguments that a value stands for. -/
def Parsed.arguments : Parsed → List Expr
  | single e => [e]
  | group items _ => items

namespace Reader

open Reading

variable {σ ι : Type}

/-- The value, if it is not a group. -/
def toSingle : Parsed → ParseM σ Expr
  | .single e => pure e
  | .group _ comma => throw (.unexpectedToken comma)

variable [Reading σ ι]

/-! ## 2. Parts that need no recursion -/

/-- Looks at the next token without its place. -/
def peekToken : ParseM σ (Option Token) := do return (← peek).map Spanned.token

/-- Takes the next token, which has to be `token`; an error calls it `description`. -/
def expect (token : Token) (description : String) : ParseM σ Spanned := do
  match ← peek with
  | some spanned =>
    if spanned.token.agrees token then advance
    else throw (.expectedToken description spanned.location)
  | none => throw (.unexpectedEnd description)

/-- The error for something that is required and does not start here. -/
def missing {α : Type} (description : String) : ParseM σ α := do
  match ← peek with
  | some spanned => throw (.expectedToken description spanned.location)
  | none => throw (.unexpectedEnd description)

/-- Reads an expression that has to be there. -/
def required (description : String) (reader : ParseM σ (Option Expr)) : ParseM σ Expr := do
  match ← reader with
  | some e => pure e
  | none => missing description

/-- Reads one expression and makes sure that nothing follows. -/
def complete (reader : ParseM σ (Option Expr)) : ParseM σ Expr := do
  match ← reader with
  | none =>
    match ← peek with
    | some spanned => throw (.unexpectedToken spanned.location)
    | none => throw (.unexpectedEnd "an expression")
  | some e =>
    match ← peek with
    | some spanned => throw (.unexpectedToken spanned.location)
    | none => pure e

/-- Reads the operand of a prefix operator: a single value, one level deeper. -/
def operand (op : UnaryOp) (reader : ParseM σ (Option Parsed)) : ParseM σ Expr := do
  match ← deeper .operand reader with
  | some parsed => return .unary op (← toSingle parsed)
  | none => missing "an operand"

/-- Reads a conditional behind its first word. -/
def conditional (reader : ParseM σ (Option Expr)) : ParseM σ Expr := do
  let condition ← required "a condition" reader
  let _ ← expect .thenWord "'then'"
  let yes ← required "an expression after 'then'" reader
  let _ ← expect .elseWord "'else'"
  let no ← required "an expression after 'else'" reader
  return .conditional condition yes no

/-- Reads the parameters of a lambda up to its arrow and binds each as soon as it is read; `names`
are those read before, the latest first. -/
def parameters (inner : ι) (depth : Nat) :
    (fuel : Nat) → (names : List String) → ParseM σ (List String)
  | 0, _ => throw .nothingPeeked
  | fuel + 1, names => do
    match ← peek with
    | some ⟨.identifier name, _⟩ =>
      bindParameter inner depth names.length name
      let _ ← advance
      parameters inner depth fuel (name :: names)
    | some ⟨.arrow, location⟩ =>
      if names.isEmpty then throw (.expectedToken "a parameter" location)
      let _ ← advance
      return names.reverse
    | _ => missing "a parameter or '->'"

/-- Reads the end of a range behind its dots. -/
def range (items : List Expr) (reader : ParseM σ (Option Expr)) : ParseM σ Expr := do
  let stop ← reader
  let _ ← expect .rightBracket "']'"
  match items with
  | [start] => return .range start none stop
  | [start, second] => return .range start (some second) stop
  | _ => throw (.unexpectedEnd "a range start")

/-! ## 3. The readers -/

mutual

/-- Reads an expression whose operators bind at least as tightly as `least`, if one starts here. -/
def expression : (fuel : Nat) → ι → (least : Nat) → ParseM σ (Option Expr)
  | 0, _, _ => throw .nothingPeeked
  | fuel + 1, scope, least => deeper .expression do
    match ← value fuel scope with
    | none => return none
    | some parsed =>
      let first ← toSingle parsed
      return some (← extend fuel scope least first)

/-- Extends an expression by what follows it. -/
def extend : (fuel : Nat) → ι → (least : Nat) → (left : Expr) → ParseM σ Expr
  | 0, _, _, _ => throw .nothingPeeked
  | fuel + 1, scope, least, left => do
    match ← peekToken with
    | none => return left
    | some (.operator op) =>
      if op.precedence < least then return left
      let _ ← advance
      if least = Precedence.lowest then
        if (← peekToken) = some .rightParen then return .leftSection op left
      let right ← required "an operand" (expression fuel scope op.rightPrecedence)
      extend fuel scope least (.binary op left right)
    | some .dollar =>
      if least ≠ Precedence.lowest then return left
      let _ ← advance
      let argument ← required "an argument after '$'" (expression fuel scope Precedence.lowest)
      extend fuel scope least (.call left argument)
    | some _ =>
      match ← value fuel scope with
      | none => return left
      | some parsed => extend fuel scope least (left.callAll parsed.arguments)

/-- Reads a single value, if one starts here. -/
def value : (fuel : Nat) → ι → ParseM σ (Option Parsed)
  | 0, _ => throw .nothingPeeked
  | fuel + 1, scope => do
    match ← peekToken with
    | some (.integer n) => let _ ← advance; return some (.single (.integer n))
    | some (.decimal d) => let _ ← advance; return some (.single (.decimal d))
    | some (.bool b) => let _ ← advance; return some (.single (.bool b))
    | some .null => let _ ← advance; return some (.single .null)
    | some (.str text) => let _ ← advance; return some (.single (.str text))
    | some (.template body) =>
      let ⟨_, location⟩ ← advance
      let fragments ← fragments fuel scope location (Piece.pieces body)
      return some (.single (.interpolated fragments))
    | some (.identifier name) =>
      let ⟨_, location⟩ ← advance
      return some (.single (← resolve scope name location))
    | some (.operator .sub) =>
      let _ ← advance
      return some (.single (← operand .negate (value fuel scope)))
    | some .bang =>
      let _ ← advance
      return some (.single (← operand .not (value fuel scope)))
    | some .leftParen =>
      let _ ← advance
      return some (← inParens fuel scope)
    | some .leftBracket =>
      let _ ← advance
      if (← peekToken) = some .rightBracket then
        let _ ← advance
        return some (.single (.literal []))
      return some (.single (← elements fuel scope []))
    | some .backslash =>
      let _ ← advance
      let ⟨inner, depth⟩ ← enterLambda scope
      let names ← parameters inner depth fuel []
      let body ← required "a lambda body" (expression fuel (inside σ inner names) Precedence.lowest)
      return some (.single (.lambda depth names body))
    | some .ifWord =>
      let _ ← advance
      return some (.single (← conditional (expression fuel scope Precedence.lowest)))
    | none | some (.operator _) | some .thenWord | some .elseWord | some .arrow | some .rightParen
    | some .rightBracket | some .comma | some .dots | some .dollar => return none

/-- Reads behind an opening parenthesis: a negation with what follows it, an operator with its right
operand, an expression, or a group. -/
def inParens : (fuel : Nat) → ι → ParseM σ Parsed
  | 0, _ => throw .nothingPeeked
  | fuel + 1, scope => do
    match ← peekToken with
    | none => throw (.unexpectedEnd "an expression")
    | some (.operator .sub) =>
      let _ ← advance
      let negated ← operand .negate (value fuel scope)
      let e ← extend fuel scope Precedence.lowest negated
      let _ ← expect .rightParen "')'"
      return .single e
    | some (.operator op) =>
      let _ ← advance
      let right ← required "an operand" (expression fuel scope Precedence.lowest)
      let _ ← expect .rightParen "')'"
      return .single (.rightSection op right)
    | some _ =>
      let first ← required "an expression" (expression fuel scope Precedence.lowest)
      match ← peek with
      | some ⟨.comma, comma⟩ => return .group (← group fuel scope [first]) comma
      | _ =>
        let _ ← expect .rightParen "')'"
        return .single first

/-- Reads the rest of a group from a comma or its closing parenthesis on; `items` are those read
before, the latest first. -/
def group : (fuel : Nat) → ι → (items : List Expr) → ParseM σ (List Expr)
  | 0, _, _ => throw .nothingPeeked
  | fuel + 1, scope, items => do
    match ← peekToken with
    | some .comma =>
      let _ ← advance
      let item ← required "an expression after ','" (expression fuel scope Precedence.lowest)
      group fuel scope (item :: items)
    | _ =>
      let _ ← expect .rightParen "')'"
      return items.reverse

/-- Reads the elements of a list, or the bounds of a range, from one element on; `items` are those
read before, the latest first. -/
def elements : (fuel : Nat) → ι → (items : List Expr) → ParseM σ Expr
  | 0, _, _ => throw .nothingPeeked
  | fuel + 1, scope, items => do
    let item ← required "a list element" (expression fuel scope Precedence.lowest)
    let items := item :: items
    match ← peek with
    | some ⟨.comma, _⟩ =>
      let _ ← advance
      elements fuel scope items
    | some ⟨.rightBracket, _⟩ =>
      let _ ← advance
      return .literal items.reverse
    | some ⟨.dots, location⟩ =>
      if items.length > 2 then throw (.tooManyRangeValues items.length location)
      let _ ← advance
      range items.reverse (expression fuel scope Precedence.lowest)
    | _ => missing "',' or ']'"

/-- Reads the pieces of an interpolated string that stands at `location`. -/
def fragments : (fuel : Nat) → ι → Location → List Piece → ParseM σ (List Fragment)
  | 0, _, _, _ => throw .nothingPeeked
  | fuel + 1, scope, location, pieces =>
    pieces.mapM fun piece =>
      match piece with
      | .text text => pure (.text text)
      | .name name => Fragment.embedded <$> resolve scope name location
      | .source source => Fragment.embedded <$>
        embedded source location (complete (expression fuel scope Precedence.lowest))
      | .unclosed => throw (.invalidInterpolation "unclosed '$\x7b'" location)

end

end Reader

/-! ## 4. Reading a stream -/

/-- What a name stands for. -/
def Scope.resolve (scope : Scope) (name : String) (location : Location) : Except ParseError Expr :=
  match scope.lookup name with
  | some e => .ok e
  | none => .error (.undefinedIdentifier name location)

/-- Reads an expression that stands in an interpolated string, as a text of its own. -/
def TokenStream.embedded (source : String) (location : Location) (reader : Parse Expr) :
    Except ParseError Expr :=
  match reader (ofSource source) with
  | .ok e _ => .ok e
  | .error e _ => .error (.invalidInterpolation e.message location)

/-- Reading a stream alone: nothing is kept of the lambdas but what their scopes say. -/
instance : Reading TokenStream Scope where
  peek := TokenStream.peek
  advance := TokenStream.advance
  deeper _ reader := TokenStream.deeper reader
  embedded source location reader :=
    MonadExcept.ofExcept (TokenStream.embedded source location reader)
  resolve scope name location := MonadExcept.ofExcept (scope.resolve name location)
  enterLambda scope := pure (scope, scope.depth + 1)
  bindParameter _ _ _ _ := pure ()
  inside := Scope.inside

@[simp] theorem Reading.peek_stream : (peek : Parse (Option Spanned)) = TokenStream.peek := rfl

@[simp] theorem Reading.advance_stream : (advance : Parse Spanned) = TokenStream.advance := rfl

namespace TokenStream

/-- Looks at the next token of a stream without its place. -/
def peekToken : Parse (Option Token) := Reader.peekToken

/-- Takes the next token of a stream, which has to be `token`; an error calls it `description`. -/
def expect (token : Token) (description : String) : Parse Spanned :=
  Reader.expect token description

end TokenStream

/-! ## 5. Whole texts -/

/-- Enough fuel to read a text. -/
def readingFuel (source : String) : Nat := 8 * (source.length + 1)

/-- Reads a text as one expression with the names of a scope. -/
def parseIn (scope : Scope) (source : String) : Except ParseError Expr :=
  match Reader.complete (Reader.expression (readingFuel source) scope Precedence.lowest)
      (TokenStream.ofSource source) with
  | .ok e _ => .ok e
  | .error e _ => .error e

/-- Reads a text as one expression with the names of the standard library. -/
def parse (source : String) : Except ParseError Expr := parseIn .standard source

end LazyExpr
