import LazyExpr.Host

/-!
# Functions with a counter

A small embedding application whose state is a counter.  Its functions count their calls, hand back
or pack their arguments, use the evaluator, fail, or stop the evaluation at a chosen count.
-/

namespace LazyExpr

/-- A function of the application. -/
inductive Native where
  /-- Counts and gives the count. -/
  | tick
  /-- Counts and gives its last argument. -/
  | echo
  /-- Gives the list of its arguments. -/
  | pack
  /-- Gives a greeting with the text of its first argument. -/
  | greet
  /-- Applies its first argument to its second. -/
  | apply
  /-- Fails. -/
  | fail
  /-- Counts, and fails at a given count. -/
  | failAt (count : Nat)
  /-- Counts, and stops the evaluation at a given count. -/
  | cancelAt (count : Nat)
  deriving DecidableEq, Repr

namespace Native

/-- Counts, then goes on with the count. -/
def counting (next : Nat → Action Nat) : Action Nat :=
  .read fun count => .write (count + 1) (next (count + 1))

/-- A count as a value. -/
def countValue (count : Nat) : Expr := .integer (Int64.ofNat count)

/-- What a function does with its arguments. -/
def act (native : Native) (arguments : List Expr) : Action Nat :=
  match native with
  | tick => counting fun count => .give (countValue count)
  | echo => counting fun _ => .give (arguments.getLast?.getD .null)
  | pack => .newList arguments .give
  | greet => .display (arguments.head?.getD .null) fun text => .give (.str ("hi " ++ text))
  | apply => .apply (arguments[0]?.getD .null) (arguments[1]?.getD .null) .give
  | fail => .fail (.emptyResult "fail")
  | failAt n => counting fun count =>
    if count = n then .fail .divisionByZero else .give (countValue count)
  | cancelAt n => counting fun count =>
    if count = n then .cancel (.give (countValue count)) else .give (countValue count)

end Native

/-- The application with a table of functions. -/
def Host.ofTable (table : Array Native) : Host Nat := fun entry arguments =>
  match table[entry]? with
  | some native => native.act arguments
  | none => .give .null

end LazyExpr
