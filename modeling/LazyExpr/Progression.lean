import LazyExpr.Number

/-!
# Arithmetic progressions

The elements `start, start + step, …` up to an optional inclusive end.  A progression without an
end, or one that never moves, does not stop; one whose next element is out of range stops there.

* `Progression.ofBounds` takes all three bounds as decimals if one of them is.
* `Progression.head?` and `Progression.tail?` take one element off.
-/

namespace LazyExpr

/-- An arithmetic progression, given by its first element. -/
structure Progression where
  start : Number
  step : Number
  stop : Option Number
  deriving DecidableEq

namespace Progression

/-- The progression with these bounds, all of one kind. -/
def ofBounds (start step : Number) (stop : Option Number) : Progression :=
  if start.isDecimal || step.isDecimal || stop.any Number.isDecimal then
    { start := .decimal start.toDecimal, step := .decimal step.toDecimal,
      stop := stop.map fun n => .decimal n.toDecimal }
  else { start, step, stop }

/-- Without an end, or without a move, there is always one more element. -/
def isInfinite (p : Progression) : Bool := p.stop.isNone || p.step.isZero

/-- The first element lies beyond the end, in the direction of the step. -/
def isOver (p : Progression) : Bool :=
  match p.stop with
  | none => false
  | some stop =>
    !p.step.isZero &&
      p.start.compare stop == (if p.step.isNegative then Ordering.lt else Ordering.gt)

/-- The first element. -/
def head? (p : Progression) : Option Number := if p.isOver then none else some p.start

/-- The progression from its second element on; out of range there is none. -/
def tail? (p : Progression) : Option Progression :=
  (p.start.add? p.step).map fun next => { p with start := next }

/-- The progression as source text. The second element is written when the step is not one. -/
def source (p : Progression) : String :=
  let second :=
    if p.step.compare (.integer 1) = .eq then ""
    else ((p.start.add? p.step).map fun n => ", " ++ n.source).getD ""
  "[" ++ p.start.source ++ second ++ ".." ++ (p.stop.map Number.source).getD "" ++ "]"

end Progression

end LazyExpr
