import LazyExpr.Fault

/-!
# Functions of the embedding application

An embedding application adds functions to the language.  A call of such a function is answered by
an action: a finite program that reads and changes the application's state and may ask the evaluator
for a new list, for the text of a value, for the application of a function, or to stop.

That is all that a function can do while it is being called.  It is given values and gives one back,
but it does not itself traverse a list, materialize or render a value, or evaluate an expression;
these are for the requests that an application makes between calls.
-/

namespace LazyExpr

/-- What a function of the embedding application does.  There is no action for traversing a list,
materializing a value or evaluating an expression. -/
inductive Action (σ : Type) where
  /-- Ends with a value. -/
  | give (value : Expr)
  /-- Ends with a fault. -/
  | fail (fault : Fault)
  /-- Looks at the application's state. -/
  | read (next : σ → Action σ)
  /-- Changes the application's state. -/
  | write (state : σ) (next : Action σ)
  /-- Asks for a list of values. -/
  | newList (elements : List Expr) (next : Expr → Action σ)
  /-- Asks for the text that a value has inside other text. -/
  | display (value : Expr) (next : String → Action σ)
  /-- Asks for the application of a function to an argument. -/
  | apply (function argument : Expr) (next : Expr → Action σ)
  /-- Asks the evaluation to stop. -/
  | cancel (next : Action σ)

/-- An embedding application: what each of its functions does with its arguments. -/
abbrev Host (σ : Type) := (entry : Nat) → (arguments : List Expr) → Action σ

/-- The application that adds no functions. -/
def Host.absent : Host Unit := fun _ _ => .give .null

end LazyExpr
