import LazyExpr.Token
import LazyExpr.Text.Escape

/-!
# The next lexeme

`scan` reads the lexeme at the front of source text: a token, a stretch that is passed over, a line
feed, or something that is no token.  It answers with the lexeme and the number of characters that
belong to it behind the first, so the rest of the text is always shorter.

The longest lexeme wins: `++` is one operator, `--` starts a comment, a word is read to its end
before it is compared with the keywords, and `p"` opens an interpolated string.
-/

namespace LazyExpr

/-! ## 1. Lexemes -/

/-- Why characters form no token. -/
inductive LexError where
  | unrecognizedCharacter
  | unterminatedString
  | invalidEscape (escape : Char)
  | malformedNumber
  deriving DecidableEq, Repr

/-- What stands at the front of source text. -/
inductive Lexeme where
  | token (token : Token)
  | error (error : LexError)
  /-- White space or a comment. -/
  | skipped
  | lineFeed
  deriving DecidableEq

namespace Lexeme

/-! ## 2. Character classes -/

/-- White space inside a line. -/
def isSpace (c : Char) : Bool := c = ' ' || c = '\t' || c = '\x0c' || c = '\r'

/-- A character that starts a name. -/
def isWordStart (c : Char) : Bool := c.isAlpha || c = '_'

/-- A character that continues a name. -/
def isWordPart (c : Char) : Bool := c.isAlphanum || c = '_' || c = '\x27'

/-! ## 3. Numbers and words -/

/-- The integer of a row of digits, if it fits. -/
def integerOfDigits (digits : List Char) : Lexeme :=
  match int64OfText? (String.ofList digits) with
  | some n => .token (.integer n)
  | none => .error .malformedNumber

/-- The decimal with these digits in front of the point and behind it, if it fits. -/
def decimalOfDigits (whole fraction : List Char) : Lexeme :=
  match Decimal.ofDigits? false whole fraction with
  | some d => .token (.decimal d)
  | none => .error .malformedNumber

/-- A number that starts with the digit `c`. A point belongs to it only if a digit follows. -/
def scanNumber (c : Char) (cs : List Char) : Lexeme × Nat :=
  let whole := cs.takeWhile Char.isDigit
  match cs.dropWhile Char.isDigit with
  | '.' :: rest =>
    let fraction := rest.takeWhile Char.isDigit
    if fraction.isEmpty then (integerOfDigits (c :: whole), whole.length)
    else (decimalOfDigits (c :: whole) fraction, whole.length + 1 + fraction.length)
  | _ => (integerOfDigits (c :: whole), whole.length)

/-- The token of a word: a keyword, a boolean in any letter case, or a name. -/
def tokenOfWord (word : String) : Token :=
  match Token.keywords.lookup word with
  | some keyword => keyword
  | none =>
    let plain := String.ofList (word.toList.map Char.toLower)
    if plain = "true" then .bool true
    else if plain = "false" then .bool false
    else .identifier word

/-- A word that starts with `c`. -/
def scanWord (c : Char) (cs : List Char) : Lexeme × Nat :=
  let rest := cs.takeWhile isWordPart
  (.token (tokenOfWord (String.ofList (c :: rest))), rest.length)

/-! ## 4. Strings -/

/-- Reads the characters behind an opening quote: the contents up to the closing quote, or why there
is no string, and how many characters that took. A string stays on its line. -/
def scanBody : List Char → Except LexError (List Char) × Nat
  | [] => (.error .unterminatedString, 0)
  | '"' :: _ => (.ok [], 1)
  | '\n' :: _ => (.error .unterminatedString, 0)
  | '\\' :: [] => (.error .unterminatedString, 1)
  | '\\' :: '\n' :: _ => (.error .unterminatedString, 1)
  | '\\' :: c :: cs =>
    match Text.unescape? c with
    | some d =>
      let (contents, taken) := scanBody cs
      (contents.map (d :: ·), taken + 2)
    | none => (.error (.invalidEscape c), 2)
  | c :: cs =>
    let (contents, taken) := scanBody cs
    (contents.map (c :: ·), taken + 1)

/-- A string whose opening quote was read, with `opened` characters behind the first one. -/
def scanString (make : String → Token) (opened : Nat) (cs : List Char) : Lexeme × Nat :=
  match scanBody cs with
  | (.ok contents, taken) => (.token (make (String.ofList contents)), opened + taken)
  | (.error e, taken) => (.error e, opened + taken)

/-! ## 5. Signs -/

/-- The signs of two characters. -/
def pairs : List ((Char × Char) × Token) :=
  [(('-', '>'), .arrow), (('.', '.'), .dots), (('|', '|'), .operator .or),
    (('&', '&'), .operator .and), (('=', '='), .operator .equal), (('!', '='), .operator .notEqual),
    (('<', '='), .operator .lessEqual), (('>', '='), .operator .greaterEqual),
    (('+', '+'), .operator .concat)]

/-- The signs of one character. -/
def singles : List (Char × Token) :=
  [('\\', .backslash), ('(', .leftParen), (')', .rightParen), ('[', .leftBracket),
    (']', .rightBracket), (',', .comma), ('$', .dollar), ('<', .operator .less),
    ('>', .operator .greater), (':', .operator .prepend), ('+', .operator .add),
    ('-', .operator .sub), ('*', .operator .mul), ('/', .operator .div), ('%', .operator .mod),
    ('!', .bang)]

/-- A sign that starts with `c`, two characters before one. -/
def scanSign (c : Char) (cs : List Char) : Lexeme × Nat :=
  match cs.head?.bind fun next => pairs.lookup (c, next) with
  | some sign => (.token sign, 1)
  | none =>
    match singles.lookup c with
    | some sign => (.token sign, 0)
    | none => (.error .unrecognizedCharacter, 0)

/-! ## 6. All of them -/

/-- The lexeme that starts with `c`, and how many characters of `cs` belong to it. -/
def scan (c : Char) (cs : List Char) : Lexeme × Nat :=
  if c = '\n' then (.lineFeed, 0)
  else if isSpace c then (.skipped, (cs.takeWhile isSpace).length)
  else if c = '-' ∧ cs.head? = some '-' then (.skipped, (cs.takeWhile (· ≠ '\n')).length)
  else if c = '"' then scanString .str 0 cs
  else if c = 'p' ∧ cs.head? = some '"' then scanString .template 1 cs.tail
  else if c.isDigit then scanNumber c cs
  else if isWordStart c then scanWord c cs
  else scanSign c cs

end Lexeme

end LazyExpr
