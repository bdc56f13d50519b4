import LazyExpr.Decimal.Arithmetic
import LazyExpr.Decimal.Text

/-!
# Numbers

A number is a 64-bit integer or a decimal.  Two integers stay integers; as soon as one of two
operands is a decimal, both are taken as decimals.

* `Number.promote` is that rule, and `compare`, `add?` and `sub?` follow it.
* `int64OfInt?_eq_some_iff`: an integer has a 64-bit form exactly when it is in range.
-/

namespace LazyExpr

/-! ## 1. 64-bit integers -/

/-- The 64-bit integer with the value `n`, if there is one. -/
def int64OfInt? (n : Int) : Option Int64 :=
  if Int64.minValue.toInt ≤ n ∧ n ≤ Int64.maxValue.toInt then some (Int64.ofInt n) else none

theorem int64OfInt?_eq_some_iff {n : Int} {m : Int64} : int64OfInt? n = some m ↔ m.toInt = n := by
  unfold int64OfInt?
  have hmin : Int64.minValue.toInt = -2 ^ 63 := by decide
  have hmax : Int64.maxValue.toInt = 2 ^ 63 - 1 := by decide
  constructor
  · intro h
    split at h
    · next hn =>
      cases h
      rw [Int64.toInt_ofInt_of_le (by omega) (by omega)]
    · cases h
  · rintro rfl
    have h₁ := m.le_toInt
    have h₂ := m.toInt_lt
    rw [if_pos ⟨by omega, by omega⟩, Int64.ofInt_toInt]

/-- Reads decimal digits with an optional minus sign as a 64-bit integer. -/
def int64OfText? (text : String) : Option Int64 :=
  let (negative, digits) := Decimal.splitSign text.toList
  if digits.isEmpty || !digits.all Char.isDigit then none
  else
    let magnitude := digits.foldl (fun (m : Nat) c => m * 10 + Decimal.digitValue c) 0
    int64OfInt? (if negative then -(magnitude : Int) else magnitude)

/-- A count given by a program: negative counts are none at all. -/
def countOfInt64 (n : Int64) : Nat := n.toInt.toNat

/-- A length as a 64-bit integer; what is too long counts as the largest one. -/
def int64OfLength (n : Nat) : Int64 := Int64.ofNat (min n Int64.maxValue.toInt.toNat)

/-! ## 2. Numbers -/

/-- A number of either kind. -/
inductive Number where
  | integer (value : Int64)
  | decimal (value : Decimal)
  deriving DecidableEq

namespace Number

/-- The number as a decimal. -/
def toDecimal : Number → Decimal
  | integer n => .ofInt64 n
  | decimal d => d

/-- Whether the number is a decimal. -/
def isDecimal : Number → Bool
  | integer _ => false
  | decimal _ => true

/-- Whether the number equals zero. -/
def isZero : Number → Bool
  | integer n => n == 0
  | decimal d => d.isZero

/-- Whether the number is strictly below zero. -/
def isNegative : Number → Bool
  | integer n => n < 0
  | decimal d => d.isNegative

/-- A pair of operands, both taken as decimals if one of them is. -/
def promote (a b : Number) : Number × Number :=
  if a.isDecimal || b.isDecimal then (decimal a.toDecimal, decimal b.toDecimal) else (a, b)

/-- The order of two numbers. -/
def compare (a b : Number) : Ordering :=
  match a, b with
  | integer m, integer n => Ord.compare m.toInt n.toInt
  | a, b => a.toDecimal.compare b.toDecimal

/-- The sum, if it is in range. -/
def add? (a b : Number) : Option Number :=
  match a, b with
  | integer m, integer n => (int64OfInt? (m.toInt + n.toInt)).map integer
  | a, b => (a.toDecimal.add? b.toDecimal).map decimal

/-- The difference, if it is in range. -/
def sub? (a b : Number) : Option Number :=
  match a, b with
  | integer m, integer n => (int64OfInt? (m.toInt - n.toInt)).map integer
  | a, b => (a.toDecimal.sub? b.toDecimal).map decimal

/-- Reads a number: a decimal if the text has a point, else an integer. -/
def ofText? (text : String) : Option Number :=
  if text.toList.contains '.' then (Decimal.ofText? text).map decimal
  else (int64OfText? text).map integer

/-- The digits of an integer with its sign. -/
def integerDigits (n : Int64) : List Char :=
  (if n < 0 then ['-'] else []) ++ Nat.toDigits 10 n.toInt.natAbs

/-- The number as source text. The least integer is written as an expression, because its magnitude
is no integer literal. -/
def source : Number → String
  | integer n =>
    if n = Int64.minValue then "(-9223372036854775807 - 1)" else String.ofList (integerDigits n)
  | decimal d => d.source

/-- The number as bare text: an integer's digits, a decimal's digits at its scale. -/
def text : Number → String
  | integer n => String.ofList (integerDigits n)
  | decimal d => d.text

end Number

end LazyExpr
