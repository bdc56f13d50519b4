import LazyExpr.ParseError
import LazyExpr.Token.Lexeme

/-!
# Token streams

A stream reads source text token by token, with one token of lookahead, and counts how many
expressions the reader is inside of.  An error in the text is reported when it is looked at, and the
stream then stands behind it.

* `Point.next` finds the next token or error from a point of the text on.
* `TokenStream.peek` looks, `TokenStream.advance` takes what was looked at.
* `TokenStream.deeper` runs a reader one level further down and comes up again, whatever happens.
-/

namespace LazyExpr

/-! ## 1. Points of source text -/

/-- A point of source text: what is left to read, and where on its line that starts. -/
structure Point where
  rest : List Char
  line : Nat
  column : Nat
  /-- The line that the point stands on, without its line feed. -/
  lineText : String

namespace Point

/-- The line at the front of the text. -/
def firstLine (cs : List Char) : String := String.ofList (cs.takeWhile (· ≠ '\n'))

/-- The start of a text. -/
def ofSource (source : String) : Point :=
  ⟨source.toList, 1, 1, firstLine source.toList⟩

/-- The start of the next line, behind a line feed. -/
def newLine (p : Point) (rest : List Char) : Point := ⟨rest, p.line + 1, 1, firstLine rest⟩

/-- The point behind some characters of the same line. -/
def skip (p : Point) (text rest : List Char) : Point :=
  { p with rest, column := p.column + byteLength text }

/-- The place of some characters at the point. -/
def locate (p : Point) (text : List Char) : Location :=
  ⟨p.line, p.column, String.ofList text, p.lineText⟩

end Point

/-- The error that a location makes of characters that form no token. -/
def LexError.toParseError (first : Char) (l : Location) : LexError → ParseError
  | unrecognizedCharacter => .unrecognizedCharacter first l
  | unterminatedString => .unterminatedString l
  | invalidEscape c => .invalidEscape c l
  | malformedNumber => .malformedNumber l

/-- The next token or error, and the point behind it; white space and comments are passed over. -/
def Point.next (p : Point) : Except ParseError (Option Spanned) × Point :=
  match p with
  | ⟨[], _, _, _⟩ => (.ok none, p)
  | ⟨c :: cs, line, column, lineText⟩ =>
    let point : Point := ⟨c :: cs, line, column, lineText⟩
    let (lexeme, taken) := Lexeme.scan c cs
    let text := c :: cs.take taken
    let rest := cs.drop taken
    match lexeme with
    | .skipped => (point.skip text rest).next
    | .lineFeed => (point.newLine rest).next
    | .token token => (.ok (some ⟨token, point.locate text⟩), point.skip text rest)
    | .error e => (.error (e.toParseError c (point.locate text)), point.skip text rest)
termination_by p.rest.length
decreasing_by
  all_goals
    simp only [Point.skip, Point.newLine, List.length_drop, List.length_cons]
    omega

/-! ## 2. Streams -/

/-- How many expressions the reader may be inside of at once. -/
def maxNesting : Nat := 128

/-- Source text with one token of lookahead. -/
structure TokenStream where
  source : String
  point : Point
  pending : Option Spanned
  /-- How many expressions the reader is inside of. -/
  nesting : Nat

/-- A step of reading, which may fail; `σ` is what it looks at and changes. -/
abbrev ParseM (σ : Type) := EStateM ParseError σ

/-- A step of reading a stream. -/
abbrev Parse := ParseM TokenStream

namespace TokenStream

/-- A stream at the start of its text. -/
def ofSource (source : String) : TokenStream := ⟨source, .ofSource source, none, 0⟩

/-- Looks at the next token; `none` is the end of the text. -/
def peek : Parse (Option Spanned) := fun s =>
  match s.pending with
  | some spanned => .ok (some spanned) s
  | none =>
    match s.point.next with
    | (.ok next, point) => .ok next { s with point, pending := next }
    | (.error e, point) => .error e { s with point }

/-- Takes the token that was looked at. -/
def advance : Parse Spanned := fun s =>
  match s.pending with
  | some spanned => .ok spanned { s with pending := none }
  | none => .error .nothingPeeked s

/-- Enters one more expression, up to the limit. -/
def descend : Parse Unit := do
  let s ← get
  if s.nesting < maxNesting then set { s with nesting := s.nesting + 1 }
  else
    match ← peek with
    | some spanned => throw (.nestingTooDeep maxNesting spanned.location)
    | none => throw (.unexpectedEnd "an expression")

/-- Leaves the expression entered last. -/
def ascend (s : TokenStream) : TokenStream := { s with nesting := s.nesting - 1 }

/-- Runs `body` one level deeper and comes up again, also when it fails. -/
def deeper {α : Type} (body : Parse α) : Parse α := fun s =>
  match descend s with
  | .error e s => .error e s
  | .ok () s =>
    match body s with
    | .ok a s => .ok a s.ascend
    | .error e s => .error e s.ascend

end TokenStream

end LazyExpr
