import LazyExpr.Expr.Reader
import LazyExpr.Scope.Tree

/-!
# Reading in a tree of scopes

A scope that text is read in is shared: an application keeps it, and other scopes refer to it.  The
reader itself makes scopes as well, one inside another, for the parameters of the lambdas that it
meets, and it binds each parameter as soon as it has read its name, long before it knows whether the
text is well-formed.

Here the readers have the tree of scopes beside the stream, and where they read the head of a lambda
they add a scope to the tree and bind in it.  An error leaves everything in the tree that was put
there until then.

* `ScopeTree.read` — reads a text in a member of a tree; gives the outcome and the tree that
  remains.
* `ScopeTree.enterLambda`, `ScopeTree.bindParameter` — the steps that write to the tree.
-/

namespace LazyExpr

/-! ## 1. A stream beside a tree -/

/-- A stream and the scopes that are shared with it. -/
structure Workplace where
  stream : TokenStream
  scopes : ScopeTree

/-- A step of reading that may look at the scopes and change them. -/
abbrev TreeParse := ParseM Workplace

namespace ScopeTree

/-- A step that has to do with the stream alone. -/
def onStream {α : Type} (p : Parse α) : TreeParse α := fun t =>
  match p t.stream with
  | .ok a s => .ok a { t with stream := s }
  | .error e s => .error e { t with stream := s }

/-- What a name stands for. -/
def resolve (id : Nat) (name : String) (location : Location) : TreeParse Expr := fun t =>
  match t.scopes.lookup id name with
  | some e => .ok e t
  | none => .error (.undefinedIdentifier name location) t

/-- Adds a scope for the parameters of a lambda; its depth is the depth of the lambda. -/
def enterLambda (id : Nat) : TreeParse (Nat × Nat) := fun t =>
  let (inner, scopes) := t.scopes.addChild id
  .ok (inner, (scopes.view inner).depth) { t with scopes }

/-- Binds a parameter of the lambda with this scope and depth to its slot. -/
def bindParameter (inner depth index : Nat) (name : String) : TreeParse Unit := fun t =>
  .ok () { t with scopes := t.scopes.define inner name (.argument ⟨depth, index, name⟩) }

/-- Runs `body` one level deeper and comes up again, also when it fails. -/
def deeper {α : Type} (body : TreeParse α) : TreeParse α := fun t =>
  match onStream TokenStream.descend t with
  | .error e t => .error e t
  | .ok () t =>
    match body t with
    | .ok a t => .ok a { t with stream := t.stream.ascend }
    | .error e t => .error e { t with stream := t.stream.ascend }

/-- Reads an expression that stands in an interpolated string, from a stream of its own and in the
same tree. -/
def embedded (source : String) (location : Location) (reader : TreeParse Expr) :
    TreeParse Expr := fun t =>
  match reader { t with stream := .ofSource source } with
  | .ok e t' => .ok e { t with scopes := t'.scopes }
  | .error e t' => .error (.invalidInterpolation e.message location) { t with scopes := t'.scopes }

/-! ## 2. Reading -/

/-- The readers write to the tree where they read the head of a lambda. -/
instance : Reading Workplace Nat where
  peek := onStream TokenStream.peek
  advance := onStream TokenStream.advance
  deeper _ reader := ScopeTree.deeper reader
  embedded := ScopeTree.embedded
  resolve := ScopeTree.resolve
  enterLambda := ScopeTree.enterLambda
  bindParameter := ScopeTree.bindParameter
  inside inner _ := inner

/-- Reads a text in a member of the tree. The scopes of lambdas stay in the tree that remains,
whether the text was well-formed or not. -/
def read (tree : ScopeTree) (id : Nat) (source : String) : Except ParseError Expr × ScopeTree :=
  match Reader.complete (Reader.expression (readingFuel source) id Precedence.lowest)
      (⟨.ofSource source, tree⟩ : Workplace) with
  | .ok e t => (.ok e, t.scopes)
  | .error e t => (.error e, t.scopes)

end ScopeTree

end LazyExpr
