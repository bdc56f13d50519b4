import LazyExpr.Token.Lexeme

/-!
# The pieces of an interpolated string

The body of an interpolated string is text with two kinds of holes: a dollar sign before a name, and
a dollar sign before an expression in braces.  Any other dollar sign is text.

* `closingBrace?` finds the brace that ends an embedded expression; braces nest, and braces inside a
  string literal do not count.
* `pieces` cuts a body from left to right; `unclosed` marks a hole whose brace is missing, behind
  which nothing is read.
-/

namespace LazyExpr

/-- A piece of the body of an interpolated string. -/
inductive Piece where
  | text (text : String)
  | name (name : String)
  | source (source : String)
  | unclosed
  deriving DecidableEq, Repr

namespace Piece

/-! ## 1. The end of an embedded expression -/

/-- Where a search for the closing brace stands. -/
inductive Region where
  | code
  | string
  /-- Behind a backslash in a string. -/
  | escaped
  deriving DecidableEq, Repr

/-- The number of characters in front of the brace that closes an expression with `depth` braces
open. -/
def closingBrace? (depth : Nat) (region : Region) : List Char → Option Nat
  | [] => none
  | c :: cs =>
    match region with
    | .escaped => (closingBrace? depth .string cs).map (· + 1)
    | .string =>
      let next := if c = '\\' then Region.escaped else if c = '"' then Region.code
        else Region.string
      (closingBrace? depth next cs).map (· + 1)
    | .code =>
      if c = '"' then (closingBrace? depth .string cs).map (· + 1)
      else if c = '\x7b' then (closingBrace? (depth + 1) .code cs).map (· + 1)
      else if c = '\x7d' then
        if depth = 0 then some 0 else (closingBrace? (depth - 1) .code cs).map (· + 1)
      else (closingBrace? depth .code cs).map (· + 1)

/-! ## 2. Cutting a body -/

/-- The text gathered so far, the last character first, as a piece if there is any. -/
def ofGathered (gathered : List Char) : List Piece :=
  if gathered.isEmpty then [] else [.text (String.ofList gathered.reverse)]

/-- Cuts a body; `gathered` is the text in front of it, the last character first. -/
def cut (gathered : List Char) : List Char → List Piece
  | [] => ofGathered gathered
  | '$' :: '\x7b' :: rest =>
    match closingBrace? 0 .code rest with
    | none => ofGathered gathered ++ [.unclosed]
    | some n =>
      ofGathered gathered ++ .source (String.ofList (rest.take n)) :: cut [] (rest.drop (n + 1))
  | '$' :: c :: rest =>
    if Lexeme.isWordStart c then
      let tail := rest.takeWhile Lexeme.isWordPart
      ofGathered gathered ++
        .name (String.ofList (c :: tail)) :: cut [] (rest.drop tail.length)
    else cut ('$' :: gathered) (c :: rest)
  | c :: rest => cut (c :: gathered) rest
termination_by cs => cs.length

/-- The pieces of a body. -/
def pieces (body : String) : List Piece := cut [] body.toList

end Piece

end LazyExpr
