import LazyExpr.Operator.Meaning

/-!
# The machine

What an evaluation reads and changes: the cells of evaluated list literals, how deep evaluations are
nested, whether it was asked to stop, and the state of the embedding application.

An evaluation ends with a value, with a fault, or out of fuel; the machine is kept in every case.

* A cell is empty until the element it belongs to was evaluated, and is never changed again
  (`Machine.fill`).
* A request to stop is seen at the next check.  A deadline is a number of checks that still pass:
  the check after the last of them sees the request.
* `Eval.nested` counts one level and restores the count, whatever happens inside.
-/

namespace LazyExpr

/-! ## 1. The state -/

/-- The state of an evaluation, with the embedding application's own state in it. -/
structure Machine (σ : Type) where
  /-- The elements of evaluated list literals, as far as they are known. -/
  cells : Array (Option Expr)
  /-- How many evaluations are going on inside each other. -/
  depth : Nat
  /-- Whether the evaluation was asked to stop. -/
  cancelled : Bool
  /-- How many checks pass before the deadline, if there is one. -/
  checksLeft : Option Nat
  host : σ

namespace Machine

variable {σ : Type}

/-- A machine before any evaluation. -/
def fresh (host : σ) : Machine σ := ⟨#[], 0, false, none, host⟩

/-- The machine with a deadline. -/
def withDeadline (m : Machine σ) (checks : Option Nat) : Machine σ :=
  { m with checksLeft := checks }

/-- What a cell holds. -/
def cell? (m : Machine σ) (address : Nat) : Option Expr := (m.cells[address]?).join

/-- Fills a cell that is still empty. -/
def fill (m : Machine σ) (address : Nat) (value : Expr) : Machine σ :=
  match m.cell? address with
  | some _ => m
  | none => { m with cells := m.cells.setIfInBounds address (some value) }

end Machine

/-! ## 2. Evaluations -/

/-- Why an evaluation gives no value. -/
inductive Halt where
  | fault (fault : Fault)
  /-- The bound on the evaluation was too small to tell. -/
  | outOfFuel

/-- An evaluation that works on a machine. -/
abbrev Eval (σ : Type) := EStateM Halt (Machine σ)

namespace Eval

variable {σ α : Type}

/-- Ends with a fault. -/
def fail (fault : Fault) : Eval σ α := throw (.fault fault)

/-- Ends because the fuel is used up. -/
def outOfFuel : Eval σ α := throw .outOfFuel

/-- A result that needs no machine. -/
def lift : Except Fault α → Eval σ α
  | .ok a => pure a
  | .error fault => fail fault

/-- Something that is there unless the fuel was too small. -/
def fueled : Option α → Eval σ α
  | some a => pure a
  | none => outOfFuel

/-- A fault as a result; running out of fuel stays what it is. -/
def attempt (body : Eval σ α) : Eval σ (Except Fault α) := fun m =>
  match body m with
  | .ok a m => .ok (.ok a) m
  | .error (.fault fault) m => .ok (.error fault) m
  | .error .outOfFuel m => .error .outOfFuel m

/-- Fails once the evaluation was asked to stop or its deadline has passed. -/
def check : Eval σ Unit := fun m =>
  if m.cancelled then .error (.fault .cancelled) m
  else
    match m.checksLeft with
    | none => .ok () m
    | some 0 => .error (.fault .cancelled) { m with cancelled := true }
    | some (left + 1) => .ok () { m with checksLeft := some left }

/-- Asks the evaluation to stop. -/
def cancel : Eval σ Unit := modify fun m => { m with cancelled := true }

/-- Runs `body` at the level above `depth` and comes back to `depth`. -/
def above (depth : Nat) (body : Eval σ α) : Eval σ α := fun m =>
  match body { m with depth := depth + 1 } with
  | .ok a m => .ok a { m with depth }
  | .error halt m => .error halt { m with depth }

/-- Runs `body` one level deeper, unless that passes the limit, and restores the level. -/
def nested (limit : Option Nat) (body : Eval σ α) : Eval σ α := fun m =>
  let depth := m.depth
  match limit with
  | some l => if l ≤ depth then .error (.fault (.recursionLimit l)) m else above depth body m
  | none => above depth body m

/-- Empty cells in a row; the first one's address. -/
def allocate (count : Nat) : Eval σ Nat := fun m =>
  let address := m.cells.size
  .ok address { m with cells := m.cells ++ Array.replicate count none }

/-- A list with empty cells of its own. -/
def newList (elements : List Expr) (env : Env) : Eval σ Expr := do
  let address ← allocate elements.length
  return .list (.items elements env (some address))

/-- What is known of an element, if elements are remembered. -/
def known (remembers : Bool) (cell : Option Nat) : Eval σ (Option Expr) := fun m =>
  .ok (if remembers then cell.bind m.cell? else none) m

/-- Remembers an element; an element that is known already stays what it is. -/
def remember (remembers : Bool) (cell : Option Nat) (value : Expr) : Eval σ Expr := fun m =>
  match remembers, cell with
  | true, some address =>
    let m := m.fill address value
    .ok ((m.cell? address).getD value) m
  | _, _ => .ok value m

end Eval

end LazyExpr
