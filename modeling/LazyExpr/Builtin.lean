/-!
# Built-in functions

The standard library has nine functions, each with a fixed number of arguments.
-/

namespace LazyExpr

/-- A function of the standard library. -/
inductive Builtin where
  | map
  | filter
  | sum
  | length
  | take
  | drop
  | head
  | tail
  | join
  deriving DecidableEq, Repr

namespace Builtin

/-- All built-in functions, in the order of the standard library. -/
def all : List Builtin := [map, filter, sum, length, take, drop, head, tail, join]

/-- The name of a built-in function. -/
def name : Builtin → String
  | map => "map"
  | filter => "filter"
  | sum => "sum"
  | length => "length"
  | take => "take"
  | drop => "drop"
  | head => "head"
  | tail => "tail"
  | join => "join"

/-- How many arguments a built-in function takes. -/
def arity : Builtin → Nat
  | map | filter | take | drop | join => 2
  | sum | length | head | tail => 1

/-- The built-in function of a name. -/
def ofName? (name : String) : Option Builtin := all.find? fun b => b.name == name

theorem mem_all (b : Builtin) : b ∈ all := by cases b <;> decide

theorem ofName?_name (b : Builtin) : ofName? b.name = some b := by cases b <;> decide

theorem arity_pos (b : Builtin) : 0 < b.arity := by cases b <;> decide

end Builtin

end LazyExpr
