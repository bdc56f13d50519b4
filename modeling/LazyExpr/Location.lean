import LazyExpr.Text.Blank

/-!
# Places in source text

A location names a stretch of one source line: its line number, the byte column where it starts, the
text itself and the whole line.  Lines and columns count from one.

* `Location.marker` draws carets under the text, below the line without its indentation.  Columns
  are counted in bytes and carets in characters; `charsWithin?` converts.
-/

namespace LazyExpr

/-- How many bytes the characters take up. -/
def byteLength (cs : List Char) : Nat := cs.foldl (fun bytes c => bytes + c.utf8Size) 0

/-- The characters at the front that take up exactly `bytes` bytes; `none` if the front cannot be
cut there. -/
def charsWithin? : (bytes : Nat) → List Char → Option (List Char)
  | 0, _ => some []
  | _ + 1, [] => none
  | bytes + 1, c :: cs =>
    if c.utf8Size ≤ bytes + 1 then (charsWithin? (bytes + 1 - c.utf8Size) cs).map (c :: ·) else none

/-- A stretch of a source line. -/
structure Location where
  line : Nat
  /-- The column of the first byte. -/
  column : Nat
  text : String
  /-- The whole line, without its line feed. -/
  lineText : String
  deriving DecidableEq, Repr

namespace Location

/-- The length of the text in bytes. -/
def length (l : Location) : Nat := l.text.utf8ByteSize

/-- The line as it is shown: without blanks on either side. -/
def shownLine (l : Location) : List Char := Text.trim l.lineText.toList

/-- How many characters of the shown line stand in front of the text; none if the text does not
start inside it. -/
def shownOffset (l : Location) : Nat :=
  let line := Text.trimRight l.lineText.toList
  let indent := byteLength line - byteLength l.shownLine
  if l.column - 1 < indent then 0
  else ((charsWithin? (l.column - 1 - indent) l.shownLine).map List.length).getD 0

/-- The shown line, and a line of carets under the text. -/
def marker (l : Location) : String :=
  String.ofList ("    ".toList ++ l.shownLine ++ '\n' :: "    ".toList ++
    List.replicate l.shownOffset ' ' ++ List.replicate (max l.text.length 1) '^')

end Location

end LazyExpr
