/-!
# Decimals

A decimal is a sign, a coefficient below `2 ^ 96` and a scale of at most 28: it stands for
`± coefficient / 10 ^ scale`.  Two decimals may stand for the same value and differ in scale, and
the scale is kept when a decimal is written; a zero may carry a minus sign.

* `Decimal.ofParts?` builds a decimal when the parts fit, and only then (`ofParts?_eq_some_iff`).
* `Decimal.compare` orders decimals by value; `aligned` brings two of them to one scale first.
-/

namespace LazyExpr

/-! ## 1. The type -/

/-- Coefficients lie below `2 ^ 96`. -/
def coefficientBound : Nat := 79228162514264337593543950336

/-- The largest number of digits behind the point. -/
def maxScale : Nat := 28

/-- A decimal number with its sign, its digits and its number of digits behind the point. -/
structure Decimal where
  /-- Whether a minus sign is written; a zero may have one. -/
  negative : Bool
  /-- All digits, without the point. -/
  coefficient : Nat
  /-- How many of the digits stand behind the point. -/
  scale : Nat
  coefficient_lt : coefficient < coefficientBound
  scale_le : scale ≤ maxScale
  deriving DecidableEq

namespace Decimal

/-- The decimal with the given parts, if they fit. -/
def ofParts? (negative : Bool) (coefficient scale : Nat) : Option Decimal :=
  if h : coefficient < coefficientBound ∧ scale ≤ maxScale then
    some ⟨negative, coefficient, scale, h.1, h.2⟩
  else none

theorem ofParts?_eq_some_iff {s : Bool} {m k : Nat} {d : Decimal} :
    ofParts? s m k = some d ↔ d.negative = s ∧ d.coefficient = m ∧ d.scale = k := by
  unfold ofParts?
  constructor
  · intro h
    split at h
    · cases h; exact ⟨rfl, rfl, rfl⟩
    · cases h
  · rintro ⟨rfl, rfl, rfl⟩
    simp [d.coefficient_lt, d.scale_le]

/-- Zero without digits behind the point. -/
def zero : Decimal := ⟨false, 0, 0, by decide, by decide⟩

instance : Inhabited Decimal := ⟨zero⟩

/-- A 64-bit integer as a decimal without digits behind the point. -/
def ofInt64 (n : Int64) : Decimal where
  negative := decide (n.toInt < 0)
  coefficient := n.toInt.natAbs
  scale := 0
  coefficient_lt := by
    have h₁ := n.le_toInt
    have h₂ := n.toInt_lt
    have h₃ : coefficientBound = 2 ^ 96 := rfl
    omega
  scale_le := by decide

/-! ## 2. Sign and value -/

/-- Zero of either sign. -/
def isZero (d : Decimal) : Bool := d.coefficient == 0

/-- Strictly below zero: a negative zero is not. -/
def isNegative (d : Decimal) : Bool := d.negative && !d.isZero

/-- The opposite number; the opposite of a zero has the opposite sign. -/
def neg (d : Decimal) : Decimal := { d with negative := !d.negative }

/-- The coefficient with its sign. -/
def signed (d : Decimal) : Int := if d.negative then -(d.coefficient : Int) else d.coefficient

/-- The signed coefficient the decimal has when it is written with `scale` digits behind the
point; for a scale not below its own this is exact. -/
def signedAt (d : Decimal) (scale : Nat) : Int := d.signed * Int.pow 10 (scale - d.scale)

/-- Two decimals as signed coefficients at the larger of their scales. -/
def aligned (a b : Decimal) : Int × Int :=
  let scale := max a.scale b.scale
  (a.signedAt scale, b.signedAt scale)

/-- The order of the values; scales and the sign of zero play no part. -/
def compare (a b : Decimal) : Ordering :=
  let (x, y) := aligned a b
  Ord.compare x y

/-- Whether two decimals have the same value. -/
def sameValue (a b : Decimal) : Bool := a.compare b == .eq

/-- The 64-bit integer of the same value, if the decimal is whole and in range. -/
def toInt64? (d : Decimal) : Option Int64 :=
  let unit : Int := Int.pow 10 d.scale
  let whole := d.signed / unit
  if d.signed % unit = 0 ∧ Int64.minValue.toInt ≤ whole ∧ whole ≤ Int64.maxValue.toInt then
    some (Int64.ofInt whole)
  else none

theorem neg_neg (d : Decimal) : d.neg.neg = d := by simp [neg]

theorem isZero_neg (d : Decimal) : d.neg.isZero = d.isZero := rfl

end Decimal

end LazyExpr
