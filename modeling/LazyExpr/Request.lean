import LazyExpr.Eval
import LazyExpr.Expr.Reader

/-!
# One-shot requests

A request reads a text, evaluates it and writes the value, within a deadline if there is one.

* `evaluateText` answers a request with source text that reads back to the value, or with a failure.
* Time is measured in checks: `checksPerSecond` says how many of them make a second.
-/

namespace LazyExpr

/-! ## 1. Bounds -/

/-- A bound on evaluations that nothing reaches in practice. -/
def ampleFuel : Nat := Nat.pow 2 62

/-- How many checks of an evaluation count as a second. -/
def checksPerSecond : Nat := 2000000

/-- The number of checks in some milliseconds. -/
def checksIn (milliseconds : Nat) : Nat := milliseconds * (checksPerSecond / 1000)

/-! ## 2. Failures -/

/-- Why a request has no answer. -/
inductive Failure where
  | parse (error : ParseError)
  | fault (fault : Fault)
  /-- The bound on the evaluation was reached. -/
  | unfinished

namespace Failure

/-- The failure that an evaluation ended with. -/
def ofHalt : Halt → Failure
  | .fault f => .fault f
  | .outOfFuel => .unfinished

/-- Whether the request was stopped by its deadline. -/
def isTimeout : Failure → Bool
  | fault f => f.isCancelled
  | _ => false

/-- The text of a failure. -/
def message : Failure → String
  | parse e => e.message
  | fault f => (f.message? ampleFuel).getD ""
  | unfinished => "Evaluation did not end."

end Failure

/-! ## 3. Requests -/

/-- The result of an evaluation without the machine. -/
def Eval.result {σ α : Type} (body : Eval σ α) (m : Machine σ) : Except Failure α :=
  match body m with
  | .ok a _ => .ok a
  | .error halt _ => .error (.ofHalt halt)

/-- Evaluates an expression and writes its value, within `deadline` checks. -/
def evaluateExpr (deadline : Option Nat) (e : Expr) : Except Failure String :=
  let body : Eval Unit String := do
    let value ← Eval.eval .standard ampleFuel .top e
    Eval.render .standard ampleFuel value
  body.result ((Machine.fresh ()).withDeadline deadline)

/-- Reads a text, evaluates it and writes the value, within `deadline` checks. -/
def evaluateText (deadline : Option Nat) (source : String) : Except Failure String :=
  match parse source with
  | .error e => .error (.parse e)
  | .ok e => evaluateExpr deadline e

end LazyExpr
