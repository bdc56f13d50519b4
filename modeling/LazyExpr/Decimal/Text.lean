import LazyExpr.Decimal

/-!
# Writing and reading decimals

A decimal is written with as many digits behind the point as its scale says.  In source text a point
is always written, so that a decimal never reads back as an integer.

Reading takes the digits from left to right.  A whole part that does not fit is refused; behind the
point, the first digit that does not fit rounds the ones before it and the rest is ignored.
-/

namespace LazyExpr.Decimal

/-! ## 1. Writing -/

/-- The digits of a coefficient with at least one digit in front of the last `scale`. -/
def paddedDigits (coefficient scale : Nat) : List Char :=
  let digits := Nat.toDigits 10 coefficient
  List.replicate (scale + 1 - digits.length) '0' ++ digits

/-- The digits with the point in its place; without digits behind it there is no point. -/
def magnitudeText (coefficient scale : Nat) : List Char :=
  let digits := paddedDigits coefficient scale
  let whole := digits.take (digits.length - scale)
  let fraction := digits.drop (digits.length - scale)
  if scale = 0 then digits else whole ++ '.' :: fraction

/-- The plain text of a decimal. -/
def text (d : Decimal) : String :=
  String.ofList ((if d.negative then ['-'] else []) ++ magnitudeText d.coefficient d.scale)

/-- The text of a decimal as a literal: whole decimals get a digit behind the point. -/
def source (d : Decimal) : String := if d.scale = 0 then d.text ++ ".0" else d.text

/-! ## 2. Reading -/

/-- The value of a digit character. -/
def digitValue (c : Char) : Nat := c.toNat - '0'.toNat

/-- Takes the digits in front of the point. -/
def readWhole (m : Nat) : List Char → Option Nat
  | [] => some m
  | c :: cs =>
    let next := m * 10 + digitValue c
    if next < coefficientBound then readWhole next cs else none

/-- Takes the digits behind the point, `scale` of which were taken before. -/
def readFraction (m scale : Nat) : List Char → Option (Nat × Nat)
  | [] => some (m, scale)
  | c :: cs =>
    let next := m * 10 + digitValue c
    if scale < maxScale ∧ next < coefficientBound then readFraction next (scale + 1) cs
    else
      let rounded := if 5 ≤ digitValue c then m + 1 else m
      if rounded < coefficientBound then some (rounded, scale)
      else if scale = 0 then none
      else some ((rounded + 4) / 10, scale - 1)

/-- The decimal written with these digits in front of the point and behind it. A zero has no
sign. -/
def ofDigits? (negative : Bool) (whole fraction : List Char) : Option Decimal := do
  let m ← readWhole 0 whole
  let (m, scale) ← readFraction m 0 fraction
  ofParts? (negative && m != 0) m scale

/-- The text without a minus sign in front, and whether there was one. -/
def splitSign : List Char → Bool × List Char
  | '-' :: cs => (true, cs)
  | cs => (false, cs)

/-- Reads digits with an optional sign and an optional point. -/
def ofText? (text : String) : Option Decimal :=
  let (negative, cs) := splitSign text.toList
  let whole := cs.takeWhile Char.isDigit
  match cs.dropWhile Char.isDigit with
  | [] => if whole.isEmpty then none else ofDigits? negative whole []
  | '.' :: fraction =>
    if whole.isEmpty || fraction.isEmpty || !fraction.all Char.isDigit then none
    else ofDigits? negative whole fraction
  | _ => none

end LazyExpr.Decimal
