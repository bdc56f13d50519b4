import LazyExpr.Request
import LazyExpr.Scope.Tree
import LazyExpr.Session.Native

/-!
# Sessions

A session is what an embedding application keeps between requests: its scopes, its functions, the
machine with all cells, and the contexts in which evaluations run.  A context is known by the token
through which its evaluations are asked to stop; several contexts may share one.

* `Session.run` carries out an evaluation under a token and keeps what it did to the machine,
  whether it succeeded or not.
* `Session.next` takes one more element from a traversal.
-/

namespace LazyExpr

/-! ## 1. The state -/

/-- What lives between requests. -/
structure Session where
  scopes : ScopeTree
  /-- The functions that were registered, by entry. -/
  natives : Array Native
  machine : Machine Nat
  /-- For every token, whether it asks to stop. -/
  tokens : Array Bool
  /-- The token of the current context. -/
  current : Nat

/-- A traversal of a list under way. One with a token of its own runs under that token and is over
after its end or its first fault; one without runs under the current context and goes on behind a
fault. -/
structure Traversal where
  rest : LazyList
  token : Option Nat
  finished : Bool := false

namespace Session

/-- The number of the scope with the built-in functions. -/
def standardScope : Nat := 0

/-- The number of the scope without names. -/
def emptyScope : Nat := 1

/-- A session with its two first scopes. -/
def fresh : Session where
  scopes := ((ScopeTree.empty.addGlobal Builtin.bindings).2.addGlobal []).2
  natives := #[]
  machine := .fresh 0
  tokens := #[false]
  current := 0

/-- The setting of the session's evaluations. -/
def setting (s : Session) : Setting Nat := { host := Host.ofTable s.natives }

/-- The count that the session's functions keep. -/
def counter (s : Session) : Nat := s.machine.host

/-! ## 2. Contexts -/

/-- Whether a token asks to stop. -/
def isCancelled (s : Session) (token : Nat) : Bool := (s.tokens[token]?).getD false

/-- Makes the current token ask to stop. -/
def cancel (s : Session) : Session := { s with tokens := s.tokens.setIfInBounds s.current true }

/-- A new current context, with the token of the old one or a fresh one. -/
def newContext (s : Session) (share : Bool) : Session :=
  if share then s else { s with tokens := s.tokens.push false, current := s.tokens.size }

/-! ## 3. Evaluations -/

/-- Carries out an evaluation under a token. -/
def run {α : Type} (s : Session) (token : Nat) (body : Eval Nat α) : Except Failure α × Session :=
  let keep (m : Machine Nat) : Session :=
    { s with
      machine := { m with cancelled := false }
      tokens := s.tokens.setIfInBounds token m.cancelled }
  match body { s.machine with cancelled := s.isCancelled token } with
  | .ok a m => (.ok a, keep m)
  | .error halt m => (.error (.ofHalt halt), keep m)

/-- Reads a text with the names of a scope. -/
def parse (s : Session) (scope : Nat) (source : String) : Except Failure Expr :=
  (parseIn (s.scopes.view scope) source).mapError .parse

/-- Evaluates an expression in an environment. -/
def eval (s : Session) (env : Env) (e : Expr) : Except Failure Expr × Session :=
  s.run s.current (Eval.eval s.setting ampleFuel env e)

/-- Applies a function value to an argument. -/
def apply (s : Session) (function argument : Expr) : Except Failure Expr × Session :=
  s.run s.current (Eval.apply s.setting ampleFuel function argument)

/-- Replaces the finite lists of a value by lists of their elements. -/
def materialize (s : Session) (value : Expr) : Except Failure Expr × Session :=
  s.run s.current (Eval.materialize s.setting ampleFuel value)

/-- The source text of a value. -/
def render (s : Session) (value : Expr) : Except Failure String × Session :=
  s.run s.current (Eval.render s.setting ampleFuel value)

/-- The text that a value has inside other text. -/
def displayText (s : Session) (value : Expr) : Except Failure String × Session :=
  s.run s.current (Eval.displayText s.setting ampleFuel value)

/-- Fails if the current context was asked to stop. -/
def check (s : Session) : Except Failure Unit × Session := s.run s.current Eval.check

/-! ## 4. Functions -/

/-- Registers one of the application's functions in the global scope around `scope`. -/
def register (s : Session) (scope : Nat) (name : String) (arity : Nat) (native : Native) :
    Session :=
  { s with
    natives := s.natives.push native
    scopes := s.scopes.register scope ⟨name, arity, .foreign s.natives.size⟩ }

/-- Registers a built-in function under another name or number of arguments. -/
def registerBuiltin (s : Session) (scope : Nat) (name : String) (arity : Nat) (b : Builtin) :
    Session :=
  { s with scopes := s.scopes.register scope ⟨name, arity, .builtin b⟩ }

/-! ## 5. Traversals -/

/-- Takes the next element, with a bound on the evaluation; `none` at the end. -/
def nextWithin (s : Session) (fuel : Nat) (t : Traversal) :
    Except Failure (Option Expr) × Traversal × Session :=
  match t.token with
  | none =>
    match s.run s.current (Eval.advance s.setting fuel t.rest) with
    | (.ok ⟨outcome, rest⟩, s) => (outcome.mapError .fault, { t with rest }, s)
    | (.error f, s) => (.error f, t, s)
  | some token =>
    if t.finished then (.ok none, t, s)
    else
      let body : Eval Nat Step := do
        Eval.check
        Eval.advance s.setting fuel t.rest
      match s.run token body with
      | (.ok ⟨.ok (some x), rest⟩, s) => (.ok (some x), { t with rest }, s)
      | (.ok ⟨outcome, rest⟩, s) => (outcome.mapError .fault, { t with rest, finished := true }, s)
      | (.error f, s) => (.error f, { t with finished := true }, s)

/-- Takes the next element; `none` at the end. -/
def next (s : Session) (t : Traversal) : Except Failure (Option Expr) × Traversal × Session :=
  s.nextWithin ampleFuel t

end Session

end LazyExpr
