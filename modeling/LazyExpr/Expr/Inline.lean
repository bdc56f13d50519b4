import LazyExpr.Expr.Source

/-!
# Captured arguments in their places

A closure, and a list literal evaluated inside a call, remember the arguments of the calls around
them. `Expr.inline` replaces every parameter slot that is bound there by the argument itself, so
that what is left is a plain expression and can be written.  A list without an environment of its
own is read in the environment around it.

Arguments may lead back to themselves, and then there is no finite text: `fuel` bounds how deep the
replacement goes, and `none` says that it was not enough.

* `Expr.display?` is the text of an expression or value, captured arguments in their places.
-/

namespace LazyExpr

mutual

/-- The expression with the arguments that `env` binds in place of their slots. -/
def Expr.inline : (fuel : Nat) → (env : Env) → Expr → Option Expr
  | 0, _, _ => none
  | fuel + 1, env, e =>
    match e with
    | .number _ | .bool _ | .str _ | .null | .function _ => some e
    | .list l => (l.inline fuel env).map .list
    | .range start second stop => do
      let start ← start.inline fuel env
      let second ← second.mapM (Expr.inline fuel env)
      let stop ← stop.mapM (Expr.inline fuel env)
      return .range start second stop
    | .call function argument => do
      let function ← function.inline fuel env
      let argument ← argument.inline fuel env
      return .call function argument
    | .lambda depth parameters body => (body.inline fuel env).map (.lambda depth parameters)
    | .closure depth parameters body captured =>
      (body.inline fuel captured).map (.lambda depth parameters)
    | .argument slot =>
      match env.lookup slot with
      | some value => value.inline fuel env
      | none => some e
    | .applied target arguments => do
      let target ← target.inline fuel env
      let arguments ← arguments.mapM (Expr.inline fuel env)
      return .applied target arguments
    | .unary op operand => (operand.inline fuel env).map (.unary op)
    | .binary op left right => do
      let left ← left.inline fuel env
      let right ← right.inline fuel env
      return .binary op left right
    | .leftSection op left => (left.inline fuel env).map (.leftSection op)
    | .rightSection op right => (right.inline fuel env).map (.rightSection op)
    | .conditional condition yes no => do
      let condition ← condition.inline fuel env
      let yes ← yes.inline fuel env
      let no ← no.inline fuel env
      return .conditional condition yes no
    | .interpolated fragments => do
      let fragments ← fragments.mapM fun fragment =>
        match fragment with
        | .text _ => some fragment
        | .embedded e => (e.inline fuel env).map .embedded
      return .interpolated fragments

/-- The list with the arguments that its own environment, or else `env`, binds in place of their
slots. -/
def LazyList.inline : (fuel : Nat) → (env : Env) → LazyList → Option LazyList
  | 0, _, _ => none
  | fuel + 1, env, l =>
    match l with
    | .items elements captured _ => do
      let elements ← elements.mapM (Expr.inline fuel (captured.orElse env))
      return .items elements .top none
    | .progression _ => some l
    | .prepend head tail => do
      let head ← head.inline fuel env
      let tail ← tail.inline fuel env
      return .prepend head tail
    | .concat first second => do
      let first ← first.inline fuel env
      let second ← second.inline fuel env
      return .concat first second
    | .mapped function source => do
      let function ← function.inline fuel env
      let source ← source.inline fuel env
      return .mapped function source
    | .filtered predicate source => do
      let predicate ← predicate.inline fuel env
      let source ← source.inline fuel env
      return .filtered predicate source
    | .dropped count source => (source.inline fuel env).map (.dropped count)

end

/-- The text of an expression or value, with captured arguments in their places. -/
def Expr.display? (fuel : Nat) (e : Expr) : Option String := (e.inline fuel .top).map Expr.source

/-- The text of a list, with captured arguments in their places. -/
def LazyList.display? (fuel : Nat) (l : LazyList) : Option String :=
  (l.inline fuel .top).map LazyList.source

end LazyExpr
