import LazyExpr.Location

/-!
# Errors of reading

Every way in which source text can fail to be an expression, with the place where it shows.  At the
end of the text there is no place to name.

* `ParseError.message` is the text of an error, `ParseError.pretty` adds the source line and carets.
-/

namespace LazyExpr

/-- Why source text is not an expression. -/
inductive ParseError where
  /-- No token starts with the character. -/
  | unrecognizedCharacter (character : Char) (place : Location)
  /-- A string has no closing quote on its line. -/
  | unterminatedString (place : Location)
  /-- A backslash in a string is followed by a character that is no escape. -/
  | invalidEscape (escape : Char) (place : Location)
  /-- A numeric literal does not fit its type. -/
  | malformedNumber (place : Location)
  /-- A token stands where it cannot be used. -/
  | unexpectedToken (place : Location)
  /-- Something was required and another token was found. -/
  | expectedToken (expected : String) (place : Location)
  /-- Something was required and the text ends. -/
  | unexpectedEnd (expected : String)
  /-- A name is bound nowhere. -/
  | undefinedIdentifier (name : String) (place : Location)
  /-- More than two values stand in front of the dots of a range. -/
  | tooManyRangeValues (count : Nat) (place : Location)
  /-- An interpolated string has a part that cannot be read. -/
  | invalidInterpolation (reason : String) (place : Location)
  /-- Expressions are nested too deeply. -/
  | nestingTooDeep (limit : Nat) (place : Location)
  /-- A token was taken that nobody had looked at. -/
  | nothingPeeked
  deriving DecidableEq, Repr

namespace ParseError

/-- The place of an error. -/
def location? : ParseError → Option Location
  | unrecognizedCharacter _ l | unterminatedString l | invalidEscape _ l | malformedNumber l
  | unexpectedToken l | expectedToken _ l | undefinedIdentifier _ l | tooManyRangeValues _ l
  | invalidInterpolation _ l | nestingTooDeep _ l => some l
  | unexpectedEnd _ | nothingPeeked => none

/-- The code point of a character as at least four hexadecimal digits in capitals. -/
def codePoint (c : Char) : String :=
  let digits := (Nat.toDigits 16 c.toNat).map Char.toUpper
  String.ofList (List.replicate (4 - digits.length) '0' ++ digits)

/-- A message with the line it is about in front. -/
def onLine (l : Location) (message : String) : String :=
  "Error on line " ++ toString l.line ++ ": " ++ message

/-- The text of an error. -/
def message : ParseError → String
  | unrecognizedCharacter c l =>
    onLine l ("Unrecognized character '" ++ c.toString ++ "' (U+" ++ codePoint c ++ ").")
  | unterminatedString l => onLine l "Unterminated string literal."
  | invalidEscape c l => onLine l ("Invalid escape sequence '\\" ++ c.toString ++ "'.")
  | malformedNumber l => onLine l ("Malformed numeric literal '" ++ l.text ++ "'.")
  | unexpectedToken l => onLine l ("Unexpected token '" ++ l.text ++ "'.")
  | expectedToken expected l =>
    onLine l ("Expected " ++ expected ++ " but found '" ++ l.text ++ "'.")
  | unexpectedEnd expected => "Unexpected end of input, expected " ++ expected ++ "."
  | undefinedIdentifier name l => onLine l ("Undefined identifier '" ++ name ++ "'.")
  | tooManyRangeValues count l =>
    onLine l ("A range takes at most two values before '..', but found " ++ toString count ++ ".")
  | invalidInterpolation reason l => onLine l ("Invalid interpolation: " ++ reason)
  | nestingTooDeep limit _ => "Expression nested more than " ++ toString limit ++ " levels deep."
  | nothingPeeked => "Internal error: advance called without a pending token."

/-- The text of an error with its source line and carets under the place. -/
def pretty (e : ParseError) : String :=
  match e.location? with
  | none => e.message
  | some l => e.message ++ "\n" ++ l.marker

end ParseError

end LazyExpr
