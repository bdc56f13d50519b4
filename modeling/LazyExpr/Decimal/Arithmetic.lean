import LazyExpr.Decimal.Rounding

/-!
# Decimal arithmetic

Every operation gives nothing when the result is out of range.  Sums and differences are exact at
the larger scale and then fitted; a zero operand leaves the other one as it is, scale and sign
included. Products are exact at the sum of the scales and then fitted.  Quotients are developed
digit by digit, and lose their trailing zeros in blocks when they did not come out at once.
Remainders are exact and take the sign of the dividend.
-/

namespace LazyExpr.Decimal

/-! ## 1. Sums and differences -/

/-- The sum of two signed coefficients at one scale; a zero sum is positive. -/
def sumAt (x y : Int) (scale : Nat) : Option Decimal :=
  fit (decide (x + y < 0)) (x + y).natAbs scale

/-- `a + b`. -/
def add? (a b : Decimal) : Option Decimal :=
  if a.isZero then some b
  else if b.isZero then some a
  else
    let (x, y) := aligned a b
    sumAt x y (max a.scale b.scale)

/-- `a - b`; zero minus a zero gives the second zero as it is. -/
def sub? (a b : Decimal) : Option Decimal :=
  if a.isZero then some (if b.isZero then b else b.neg)
  else if b.isZero then some a
  else
    let (x, y) := aligned a b
    sumAt x (-y) (max a.scale b.scale)

/-! ## 2. Products -/

/-- A coefficient of one machine word. -/
def isShort (d : Decimal) : Bool := d.coefficient < Nat.pow 2 32

/-- Products of two short coefficients with more digits behind the point than this are zero. -/
def shortProductScale : Nat := 47

/-- `a * b`; a product of short coefficients that rounds to zero is positive. -/
def mul? (a b : Decimal) : Option Decimal :=
  let short := a.isShort && b.isShort
  let scale := a.scale + b.scale
  if a.isZero || b.isZero || (short && decide (shortProductScale < scale)) then some zero
  else do
    let product ← fit (xor a.negative b.negative) (a.coefficient * b.coefficient) scale
    return if short && product.isZero then { product with negative := false } else product

/-! ## 3. Quotients -/

/-- A quotient being developed: digits so far, remainder, scale (which may still be below zero), and
whether a remainder was ever left, which is when trailing zeros are removed at the end. -/
structure Quotient where
  digits : Nat
  remainder : Nat
  scale : Int
  inexact : Bool

namespace Quotient

/-- The most digits, at most nine, that can be appended at once without leaving the range. -/
def room (q : Quotient) : Nat :=
  ((List.range 10).filter fun (p : Nat) =>
    q.scale + (p : Int) ≤ (maxScale : Int) &&
      q.digits * Nat.pow 10 p < coefficientBound).foldl max 0

/-- One digit less, for digits that reached the bound: nothing when none stands behind the point. -/
def shorten (q : Quotient) (digits : Nat) : Option Quotient :=
  if q.scale - 1 < 0 then none
  else some { q with digits, scale := q.scale - 1 }

/-- The last digit goes and `rest` beyond it decides a tie. -/
def dropDigit (digits rest : Nat) : Nat :=
  let q := digits / 10
  let last := digits % 10
  if 5 < last ∨ (last = 5 ∧ (rest ≠ 0 ∨ q % 2 = 1)) then q + 1 else q

/-- No digit can be appended: the remainder rounds the last one, a tie going to the even digit. -/
def settle (q : Quotient) (divisor : Nat) : Option Quotient :=
  let rounded := nearestEven (q.digits * divisor + q.remainder) divisor
  if rounded < coefficientBound then some { q with digits := rounded }
  else q.shorten ((rounded + 5) / 10)

/-- Appends `p` digits of the development; the quotient is complete when it reached the bound. -/
def append (q : Quotient) (divisor p : Nat) : Option (Quotient × Bool) :=
  let shifted := q.digits * Nat.pow 10 p
  if coefficientBound ≤ shifted then none
  else
    let carried := q.remainder * Nat.pow 10 p
    let next : Quotient :=
      { q with digits := shifted + carried / divisor, remainder := carried % divisor,
               scale := q.scale + p }
    if next.digits < coefficientBound then some (next, false)
    else (next.shorten (dropDigit next.digits next.remainder)).map (·, true)

/-- How many digits the next round appends, or how the development ends: with the quotient, or with
nothing when it is out of range. -/
def plan (q : Quotient) (divisor : Nat) : Sum (Option Quotient) (Quotient × Nat) :=
  if q.remainder = 0 then
    if 0 ≤ q.scale then .inl (some q) else .inr (q, min 9 (-q.scale).toNat)
  else
    let p := q.room
    let marked := { q with inexact := true }
    if (p = 0 ∧ q.scale < 0) ∨ (p < 9 ∧ q.scale + (p : Int) < 0) then .inl none
    else if p = 0 then .inl (marked.settle divisor)
    else .inr (marked, p)

/-- Develops the quotient until nothing remains or no digit fits. The scale grows in every round, so
`rounds` above the number of scales is never used up. -/
def develop (divisor : Nat) : (rounds : Nat) → Quotient → Option Quotient
  | 0, _ => none
  | rounds + 1, q =>
    match q.plan divisor with
    | .inl result => result
    | .inr (q, p) =>
      match q.append divisor p with
      | none => none
      | some (next, complete) => if complete then some next else develop divisor rounds next

/-- Removes `n` zeros from the end if they are there and stand behind the point. -/
def stripOnce (n : Nat) (digits scale : Nat) : Nat × Nat :=
  if n ≤ scale ∧ digits % Nat.pow 10 n = 0 then (digits / Nat.pow 10 n, scale - n)
    else (digits, scale)

/-- Removes blocks of eight zeros as long as the digits are a multiple of `2 ^ 32` as well. -/
def stripBlocks : (rounds : Nat) → (digits scale : Nat) → Nat × Nat
  | 0, digits, scale => (digits, scale)
  | rounds + 1, digits, scale =>
    if digits % Nat.pow 2 32 = 0 ∧ 8 ≤ scale ∧ digits % Nat.pow 10 8 = 0 then
      stripBlocks rounds (digits / Nat.pow 10 8) (scale - 8)
    else (digits, scale)

/-- The digits and scale without the trailing zeros that are removed: blocks of eight, then four,
two and one. -/
def strip (digits scale : Nat) : Nat × Nat :=
  let (digits, scale) := stripBlocks 4 digits scale
  let (digits, scale) := stripOnce 4 digits scale
  let (digits, scale) := stripOnce 2 digits scale
  stripOnce 1 digits scale

end Quotient

/-- `a / b` for a divisor that is not zero; a quotient that rounds to zero is positive. -/
def div? (a b : Decimal) : Option Decimal :=
  if a.isZero then some zero
  else do
    let start : Quotient :=
      { digits := a.coefficient / b.coefficient, remainder := a.coefficient % b.coefficient,
        scale := (a.scale : Int) - b.scale, inexact := false }
    let q ← Quotient.develop b.coefficient 64 start
    let (digits, scale) :=
      if q.inexact then Quotient.strip q.digits q.scale.toNat else (q.digits, q.scale.toNat)
    ofParts? (digits != 0 && xor a.negative b.negative) digits scale

/-! ## 4. Remainders -/

/-- The remainder of `a` by a divisor `b` that is not zero. -/
def rem? (a b : Decimal) : Option Decimal :=
  let scale := max a.scale b.scale
  let x := (a.signedAt scale).natAbs
  let y := (b.signedAt scale).natAbs
  if a.isZero || x == y then some zero
  else if x < y then some a
  else ofParts? (x % y != 0 && a.negative) (x % y) scale

end LazyExpr.Decimal
