import LazyExpr.Scope

/-!
# Trees of scopes

An embedding application keeps many scopes at once.  They form trees: each scope was made global or
as a child of an earlier one, and all of them can be extended at any time.

* `ScopeTree.view` is the scope that a member of the tree stands for, with all scopes around it.
* `ScopeTree.define` binds in one member, `ScopeTree.setGlobal` in the global scope around it.
-/

namespace LazyExpr

/-- A member of a tree of scopes. -/
structure ScopeNode where
  bindings : Bindings
  /-- The enclosing scope, which was made earlier. -/
  parent : Option Nat

/-- Scopes by number, in the order they were made. -/
structure ScopeTree where
  nodes : Array ScopeNode

namespace ScopeTree

/-- A tree without scopes. -/
def empty : ScopeTree := ⟨#[]⟩

/-- The scope of a member, followed outward for at most `steps` members. -/
def viewWithin (tree : ScopeTree) : (steps : Nat) → (id : Nat) → Scope
  | 0, _ => .empty
  | steps + 1, id =>
    match tree.nodes[id]? with
    | none => .empty
    | some ⟨bindings, none⟩ => .global bindings
    | some ⟨bindings, some parent⟩ => .child bindings (tree.viewWithin steps parent)

/-- The scope of a member. Enclosing scopes have smaller numbers, so the number bounds the way
out. -/
def view (tree : ScopeTree) (id : Nat) : Scope := tree.viewWithin (id + 1) id

/-- Adds a global scope. -/
def addGlobal (tree : ScopeTree) (bindings : Bindings) : Nat × ScopeTree :=
  (tree.nodes.size, ⟨tree.nodes.push ⟨bindings, none⟩⟩)

/-- Adds an empty scope inside another. -/
def addChild (tree : ScopeTree) (parent : Nat) : Nat × ScopeTree :=
  (tree.nodes.size, ⟨tree.nodes.push ⟨[], some parent⟩⟩)

/-- Binds a name in a member. -/
def define (tree : ScopeTree) (id : Nat) (name : String) (e : Expr) : ScopeTree :=
  ⟨tree.nodes.modify id fun node => { node with bindings := (name, e) :: node.bindings }⟩

/-- The global scope around a member, followed outward for at most `steps` members. -/
def rootWithin (tree : ScopeTree) : (steps : Nat) → (id : Nat) → Nat
  | 0, id => id
  | steps + 1, id =>
    match tree.nodes[id]? with
    | some ⟨_, some parent⟩ => tree.rootWithin steps parent
    | _ => id

/-- The global scope around a member. -/
def root (tree : ScopeTree) (id : Nat) : Nat := tree.rootWithin (id + 1) id

/-- Binds a name in the global scope around a member. -/
def setGlobal (tree : ScopeTree) (id : Nat) (name : String) (e : Expr) : ScopeTree :=
  tree.define (tree.root id) name e

/-- Binds a function in the global scope around a member, under its name. -/
def register (tree : ScopeTree) (id : Nat) (f : Function) : ScopeTree :=
  tree.setGlobal id f.name (.function f)

/-- What a name stands for in a member. -/
def lookup (tree : ScopeTree) (id : Nat) (name : String) : Option Expr := (tree.view id).lookup name

end ScopeTree

/-- The bindings of the standard library, the latest first. -/
def Builtin.bindings : Bindings := (all.map fun b => (b.name, Expr.function b.toFunction)).reverse

end LazyExpr
