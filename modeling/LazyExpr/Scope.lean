import LazyExpr.Expr

/-!
# Scopes

A scope binds names to expressions, with an enclosing scope behind it unless it is the global one.
Names are resolved while source text is read, so evaluation never looks a name up.

The scope of a lambda's parameters stands one level deeper than the scope around the lambda, and its
depth is the depth of the lambda.

* `Scope.lookup` finds the innermost binding, and of one scope the latest (`lookup_define`).
* `Scope.setGlobal` binds in the outermost scope.
* `Scope.standard` holds the built-in functions.
-/

namespace LazyExpr

/-- Names with what they stand for, the latest binding first. -/
abbrev Bindings := List (String × Expr)

/-- A chain of bindings that ends with the global ones. -/
inductive Scope where
  | global (bindings : Bindings)
  | child (bindings : Bindings) (parent : Scope)

namespace Scope

/-- The global scope without any names. -/
def empty : Scope := .global []

/-- How many scopes enclose this one. -/
def depth : Scope → Nat
  | global _ => 0
  | child _ parent => parent.depth + 1

/-- What a name stands for, searched from this scope outward. -/
def lookup (name : String) : Scope → Option Expr
  | global bindings => bindings.lookup name
  | child bindings parent => (bindings.lookup name).or (parent.lookup name)

/-- Binds a name in this scope. -/
def define (name : String) (e : Expr) : Scope → Scope
  | global bindings => .global ((name, e) :: bindings)
  | child bindings parent => .child ((name, e) :: bindings) parent

/-- Binds a name in the global scope. -/
def setGlobal (name : String) (e : Expr) : Scope → Scope
  | global bindings => .global ((name, e) :: bindings)
  | child bindings parent => .child bindings (parent.setGlobal name e)

/-- Binds a function in the global scope under its name. -/
def register (f : Function) (scope : Scope) : Scope := scope.setGlobal f.name (.function f)

/-- The global scope with the built-in functions. -/
def standard : Scope := Builtin.all.foldl (fun scope b => scope.register b.toFunction) empty

/-- The slots of a lambda's parameters; of two parameters with one name the later is bound. -/
def parameterBindings (depth : Nat) (parameters : List String) : Bindings :=
  (parameters.mapIdx fun index name => (name, Expr.argument ⟨depth, index, name⟩)).reverse

/-- The scope inside a lambda with these parameters. -/
def inside (scope : Scope) (parameters : List String) : Scope :=
  .child (parameterBindings (scope.depth + 1) parameters) scope

theorem lookup_define (scope : Scope) (a b : String) (e : Expr) :
    (scope.define a e).lookup b = if b = a then some e else scope.lookup b := by
  by_cases h : b = a
  · cases scope <;> simp [define, lookup, h]
  · have hb : (b == a) = false := by simpa using h
    cases scope <;> simp [define, lookup, List.lookup_cons, h, hb]

theorem depth_define (scope : Scope) (a : String) (e : Expr) :
    (scope.define a e).depth = scope.depth := by
  cases scope <;> rfl

theorem depth_setGlobal (scope : Scope) (a : String) (e : Expr) :
    (scope.setGlobal a e).depth = scope.depth := by
  induction scope with
  | global => rfl
  | child _ parent ih => simp [setGlobal, depth, ih]

end Scope

end LazyExpr
