import LazyExpr.Builtin
import LazyExpr.Operator
import LazyExpr.Progression

/-!
# Expressions and values

One type holds both: evaluation turns an expression into an expression that is its own value.  A
value is a number, a boolean, a string, null, a function in one of its forms, or a list.

Lists are lazy.  A list is either a sequence of element expressions, with the environment in which
they are to be evaluated, or a progression, or a view of other lists: an element put in front, one
list after another, a function applied throughout, a condition, a number of elements left out.

* A list literal in source text has no cells.  The value of a list literal names the first of its
  cells in the evaluator's store, where elements that were evaluated are kept; the others follow it.
* `LazyList.isInfinite` is decided by the shape of a list alone.
* `Env.lookup` finds the argument that a parameter slot stands for, by depth and position.
-/

namespace LazyExpr

/-! ## 1. Names for what is called and what is passed -/

/-- What a function does when it is called: a built-in, or an entry of the embedding application. -/
inductive Code where
  | builtin (function : Builtin)
  | foreign (entry : Nat)
  deriving DecidableEq, Repr

/-- A named function. -/
structure Function where
  name : String
  /-- How many arguments are collected before the function is called. -/
  arity : Nat
  code : Code
  deriving DecidableEq, Repr

/-- A built-in function under its own name. -/
def Builtin.toFunction (b : Builtin) : Function := ⟨b.name, b.arity, .builtin b⟩

/-- A parameter of a lambda: how deep the lambda stands, the position of the parameter, its name. -/
structure Slot where
  depth : Nat
  index : Nat
  name : String
  deriving DecidableEq, Repr

/-! ## 2. Expressions, lists and environments -/

mutual

/-- An expression, which may be a value. -/
inductive Expr where
  | number (value : Number)
  | bool (value : Bool)
  | str (text : String)
  | null
  | list (elements : LazyList)
  /-- A range literal whose bounds are still to be evaluated. -/
  | range (start : Expr) (second stop : Option Expr)
  | call (function argument : Expr)
  | function (value : Function)
  /-- A lambda as written; the outermost lambda has depth 1. -/
  | lambda (depth : Nat) (parameters : List String) (body : Expr)
  /-- A lambda with the environment it was evaluated in. -/
  | closure (depth : Nat) (parameters : List String) (body : Expr) (env : Env)
  | argument (slot : Slot)
  /-- A function that has received some of its arguments. -/
  | applied (target : Expr) (arguments : List Expr)
  | unary (op : UnaryOp) (operand : Expr)
  | binary (op : BinaryOp) (left right : Expr)
  /-- An operator with its left operand only. -/
  | leftSection (op : BinaryOp) (left : Expr)
  /-- An operator with its right operand only. -/
  | rightSection (op : BinaryOp) (right : Expr)
  | conditional (condition yes no : Expr)
  | interpolated (fragments : List Fragment)

/-- A part of an interpolated string. -/
inductive Fragment where
  | text (text : String)
  | embedded (expr : Expr)

/-- A list whose elements are found when they are asked for. -/
inductive LazyList where
  /-- Element expressions with their environment. An evaluated literal also has a first cell. -/
  | items (elements : List Expr) (env : Env) (cell : Option Nat)
  | progression (range : Progression)
  | prepend (head : Expr) (tail : LazyList)
  | concat (first second : LazyList)
  | mapped (function : Expr) (source : LazyList)
  | filtered (predicate : Expr) (source : LazyList)
  | dropped (count : Nat) (source : LazyList)

/-- The calls that enclose an expression, the innermost first: the depth of the called lambda, its
parameters and their arguments. -/
inductive Env where
  | top
  | frame (depth : Nat) (parameters : List String) (arguments : List Expr) (parent : Env)

end

instance : Inhabited Expr := ⟨.null⟩

/-! ## 3. Environments -/

namespace Env

/-- The argument of a slot: the frame of the slot's depth is searched outward, and a frame of
smaller depth ends the search. -/
def lookup (slot : Slot) : Env → Option Expr
  | top => none
  | frame depth _ arguments parent =>
    if depth = slot.depth then arguments[slot.index]?
    else if depth < slot.depth then none
    else parent.lookup slot

/-- The depth of the innermost call, if there is one. -/
def depth? : Env → Option Nat
  | top => none
  | frame depth _ _ _ => some depth

/-- The captured environment, or the current one where nothing was captured. -/
def orElse : Env → Env → Env
  | top, current => current
  | captured, _ => captured

end Env

/-! ## 4. Lists -/

namespace LazyList

/-- The list without elements. -/
def empty : LazyList := .items [] .top none

/-- Whether the shape of the list says that it never ends. -/
def isInfinite : LazyList → Bool
  | items .. => false
  | progression range => range.isInfinite
  | prepend _ tail => tail.isInfinite
  | concat first second => first.isInfinite || second.isInfinite
  | mapped _ source => source.isInfinite
  | filtered _ source => source.isInfinite
  | dropped _ source => source.isInfinite

end LazyList

/-! ## 5. Building expressions -/

namespace Expr

/-- An integer. -/
def integer (n : Int64) : Expr := .number (.integer n)

/-- A decimal. -/
def decimal (d : Decimal) : Expr := .number (.decimal d)

/-- A list literal. -/
def literal (elements : List Expr) : Expr := .list (.items elements .top none)

/-- The application of a function to several arguments, one after another. -/
def callAll (function : Expr) (arguments : List Expr) : Expr := arguments.foldl .call function

end Expr

end LazyExpr
