import Mathlib.Data.List.Induction
import LazyExpr.Proofs.Scope.Agreement

/-!
# Scopes over whole runs

An application makes scopes, binds names in them and reads texts in them, in any order.  What a name
stands for is told here from the record of what was done, without a look at the tree: which scope
was made inside which other one, and which name was bound where, the latest first.

The record and the tree are kept in step: after every operation the tree is the tree of the record.
That is shown for one operation of each kind and carried along a run by induction.  For a text that
is read it is the reader that has to be followed, since it makes scopes and binds names as well.

* `ScopeOp` — what an application does; `ScopeTree.run` carries out a sequence of operations.
* `Chronicle` — the record; `Chronicle.path` goes from a scope outward, and `Chronicle.latest` is
  what a name was bound to last in one scope.
* `run_eq_toTree` — the tree after a run is the tree of its record.
* `scope_laws` — **scopes behave as chains over whole runs**: a name stands for its latest binding
  in the nearest scope that has one, and each operation changes what can be found in exactly the
  places that it should.
-/

namespace LazyExpr

/-! ## 1. Runs -/

/-- What an application does with scopes, which are named by the order they were made in. -/
inductive ScopeOp where
  /-- Makes a global scope with some bindings, the latest first. -/
  | global (bindings : Bindings)
  | child (parent : Nat)
  | define (scope : Nat) (name : String) (e : Expr)
  | setGlobal (scope : Nat) (name : String) (e : Expr)
  | register (scope : Nat) (f : Function)
  /-- Reads a text, with success or without. -/
  | parse (scope : Nat) (source : String)

namespace ScopeTree

/-- The scopes that were made first. -/
def upTo (tree : ScopeTree) (count : Nat) : ScopeTree := ⟨tree.nodes.take count⟩

/-- Carries out one operation. Nothing can be made inside of, or read in, a scope that is not there.
The scopes that a reader made for lambdas are gone with it, since no expression refers to a
scope. -/
def step (tree : ScopeTree) : ScopeOp → ScopeTree
  | .global bindings => (tree.addGlobal bindings).2
  | .child parent => if parent < tree.nodes.size then (tree.addChild parent).2 else tree
  | .define id name e => tree.define id name e
  | .setGlobal id name e => tree.setGlobal id name e
  | .register id f => tree.register id f
  | .parse id source =>
    if id < tree.nodes.size then (tree.read id source).2.upTo tree.nodes.size else tree

/-- Carries out operations, one after another, from no scopes on. -/
def run (ops : List ScopeOp) : ScopeTree := ops.foldl step empty

/-- What a scope itself binds a name to. -/
def bound (tree : ScopeTree) (id : Nat) (name : String) : Option Expr :=
  tree.nodes[id]?.bind fun node => node.bindings.lookup name

/-- In a tree that was extended, the scopes that were there make up the former tree. -/
theorem Extends.upTo_eq {tree tree' : ScopeTree} (h : tree.Extends tree') :
    tree'.upTo tree.nodes.size = tree := by
  have hnodes : tree'.nodes.take tree.nodes.size = tree.nodes := by
    refine Array.ext_getElem? fun id => ?_
    rw [Array.take, Array.getElem?_extract, Nat.min_eq_left h.size_le, Nat.zero_add, Nat.sub_zero]
    split
    · next hid => exact h.kept id hid
    · next hid => exact (Array.getElem?_eq_none (Nat.le_of_not_lt hid)).symm
  rw [upTo, hnodes]

end ScopeTree

/-! ## 2. Records -/

/-- A name that was bound in a scope. -/
structure Entry where
  scope : Nat
  name : String
  expr : Expr

/-- The record of a run: for each scope what it was made inside of, and what was bound where, the
latest first. -/
structure Chronicle where
  parents : List (Option Nat)
  log : List Entry

namespace Chronicle

/-- The record of nothing. -/
def empty : Chronicle := ⟨[], []⟩

/-- A scope and those around it, the innermost first, for at most so many steps. -/
def pathWithin (parents : List (Option Nat)) : (steps : Nat) → (s : Nat) → List Nat
  | 0, _ => []
  | steps + 1, s =>
    match parents[s]? with
    | none => []
    | some none => [s]
    | some (some parent) => s :: pathWithin parents steps parent

/-- The scopes from one outward to the global one. -/
def path (c : Chronicle) (s : Nat) : List Nat := pathWithin c.parents (s + 1) s

/-- The global scope around a scope. -/
def root? (c : Chronicle) (s : Nat) : Option Nat := (c.path s).getLast?

/-- What a name was bound to last in a scope. -/
def latest (c : Chronicle) (s : Nat) (name : String) : Option Expr :=
  (c.log.find? fun entry => entry.scope == s && entry.name == name).map Entry.expr

/-- What a name stands for: its latest binding in the nearest scope that has one. -/
def lookup (c : Chronicle) (s : Nat) (name : String) : Option Expr :=
  (c.path s).findSome? fun t => c.latest t name

/-- From `s` outward, no scope before `t` binds the name. -/
def Sees (c : Chronicle) (s t : Nat) (name : String) : Prop :=
  t ∈ c.path s ∧ ∀ nearer ∈ (c.path s).takeWhile (· ≠ t), c.latest nearer name = none

/-- Notes a binding in a scope, if it is there. -/
def note (c : Chronicle) (s : Option Nat) (name : String) (e : Expr) : Chronicle :=
  match s with
  | some s => if s < c.parents.length then { c with log := ⟨s, name, e⟩ :: c.log } else c
  | none => c

/-- The bindings of a scope as entries. -/
def entriesOf (s : Nat) (bindings : Bindings) : List Entry :=
  bindings.map fun (name, e) => ⟨s, name, e⟩

/-- Notes an operation. Reading a text is nothing to be noted. -/
def step (c : Chronicle) : ScopeOp → Chronicle
  | .global bindings =>
    ⟨c.parents ++ [none], entriesOf c.parents.length bindings ++ c.log⟩
  | .child parent =>
    if parent < c.parents.length then { c with parents := c.parents ++ [some parent] } else c
  | .define s name e => c.note (some s) name e
  | .setGlobal s name e => c.note (c.root? s) name e
  | .register s f => c.note (c.root? s) f.name (.function f)
  | .parse _ _ => c

/-- The record of some operations. -/
def ofOps (ops : List ScopeOp) : Chronicle := ops.foldl step empty

/-! ## 3. The tree of a record -/

/-- The bindings of a scope that are in a log. -/
def bindingsIn (log : List Entry) (s : Nat) : Bindings :=
  log.filterMap fun entry => if entry.scope = s then some (entry.name, entry.expr) else none

/-- The tree that a record tells of. -/
def toTree (c : Chronicle) : ScopeTree :=
  ⟨(c.parents.mapIdx fun s parent => ⟨bindingsIn c.log s, parent⟩).toArray⟩

theorem toTree_size (c : Chronicle) : c.toTree.nodes.size = c.parents.length := by
  simp [toTree]

theorem toTree_getElem? (c : Chronicle) (s : Nat) :
    c.toTree.nodes[s]? = c.parents[s]?.map fun parent => ⟨bindingsIn c.log s, parent⟩ := by
  simp [toTree]

theorem lookup_bindingsIn (c : Chronicle) (s : Nat) (name : String) :
    (bindingsIn c.log s).lookup name = c.latest s name := by
  unfold latest bindingsIn
  induction c.log with
  | nil => rfl
  | cons entry log ih =>
    rw [List.filterMap_cons, List.find?_cons]
    by_cases hscope : entry.scope = s
    · have hname : (name == entry.name) = (entry.name == name) := BEq.comm
      simp only [hscope, if_true, List.lookup_cons, hname, beq_self_eq_true, Bool.true_and]
      cases entry.name == name with
      | true => rfl
      | false => exact ih
    · have hne : (entry.scope == s) = false := by simpa using hscope
      simp only [hscope, if_false, hne, Bool.false_and]
      exact ih

/-- What a scope of the tree binds a name to is what the name was bound to last. -/
theorem bound_toTree (c : Chronicle) {s : Nat} (hs : s < c.parents.length) (name : String) :
    c.toTree.bound s name = c.latest s name := by
  rw [ScopeTree.bound, toTree_getElem?, List.getElem?_eq_getElem hs, ← lookup_bindingsIn]
  rfl

/-- What is found on the way out of a scope of the tree is what the record finds on the scope's
path. -/
theorem lookup_toTree (c : Chronicle) (s : Nat) (name : String) :
    c.toTree.lookup s name = c.lookup s name := by
  have hwithin : ∀ steps s, (c.toTree.viewWithin steps s).lookup name =
      (pathWithin c.parents steps s).findSome? fun t => c.latest t name := by
    intro steps
    induction steps with
    | zero => intro s; rfl
    | succ steps ih =>
      intro s
      rw [ScopeTree.viewWithin, pathWithin, toTree_getElem?]
      cases hparent : c.parents[s]? with
      | none => rfl
      | some parent =>
        cases parent with
        | none =>
          show (bindingsIn c.log s).lookup name = _
          rw [lookup_bindingsIn, List.findSome?_singleton]
        | some parent =>
          show ((bindingsIn c.log s).lookup name).or
            ((c.toTree.viewWithin steps parent).lookup name) = _
          rw [lookup_bindingsIn, ih parent, List.findSome?_cons]
          cases c.latest s name <;> rfl
  exact hwithin (s + 1) s

/-- The record is of scopes that were made inside of earlier ones, and of bindings in scopes that
are there. -/
structure WellFormed (c : Chronicle) : Prop where
  ordered : ∀ s parent : Nat, c.parents[s]? = some (some parent) → parent < s
  logged : ∀ entry ∈ c.log, entry.scope < c.parents.length

theorem wellFormed_empty : empty.WellFormed := ⟨nofun, nofun⟩

theorem WellFormed.toTree_ordered {c : Chronicle} (h : c.WellFormed) : c.toTree.Ordered := by
  intro s node hnode parent hparent
  rw [toTree_getElem?] at hnode
  obtain ⟨found, hfound, rfl⟩ := Option.map_eq_some_iff.mp hnode
  cases hparent
  exact h.ordered s parent hfound

/-! ## 4. Paths -/

theorem mem_pathWithin {parents : List (Option Nat)} {steps s t : Nat}
    (h : t ∈ pathWithin parents steps s) :
    t < parents.length := by
  induction steps generalizing s with
  | zero => cases h
  | succ steps ih =>
    rw [pathWithin] at h
    split at h
    · cases h
    · next hs =>
      rw [List.mem_singleton.mp h]
      exact (List.getElem?_eq_some_iff.mp hs).1
    · next hs =>
      rcases List.mem_cons.mp h with rfl | h
      · exact (List.getElem?_eq_some_iff.mp hs).1
      · exact ih h

/-- Only scopes that are there are on a path. -/
theorem lt_of_mem_path {c : Chronicle} {s t : Nat} (h : t ∈ c.path s) : t < c.parents.length :=
  mem_pathWithin h

theorem self_mem_path {c : Chronicle} {s : Nat} (hs : s < c.parents.length) : s ∈ c.path s := by
  rw [path, pathWithin]
  match hparent : c.parents[s]? with
  | none => exact absurd (List.getElem?_eq_none_iff.mp hparent) (Nat.not_le.mpr hs)
  | some none => exact List.mem_singleton_self s
  | some (some parent) => exact List.mem_cons_self

theorem lt_of_root? {c : Chronicle} {s r : Nat} (h : c.root? s = some r) : r < c.parents.length :=
  lt_of_mem_path (List.mem_of_getLast? h)

/-- A path that is followed long enough does not depend on how long, nor on scopes that were made
later. -/
theorem WellFormed.pathWithin_eq {c : Chronicle} (h : c.WellFormed)
    (more : List (Option Nat)) {s : Nat}
    (hs : s < c.parents.length) {steps steps' : Nat} (hsteps : s < steps) (hsteps' : s < steps') :
    pathWithin (c.parents ++ more) steps s = pathWithin c.parents steps' s := by
  induction s using Nat.strongRecOn generalizing steps steps' with
  | ind s ih =>
    obtain ⟨steps, rfl⟩ : ∃ k, steps = k + 1 := ⟨steps - 1, by omega⟩
    obtain ⟨steps', rfl⟩ : ∃ k, steps' = k + 1 := ⟨steps' - 1, by omega⟩
    rw [pathWithin, pathWithin, List.getElem?_append_left hs]
    match hparent : c.parents[s]? with
    | none => rfl
    | some none => rfl
    | some (some parent) =>
      have hlt := h.ordered s parent hparent
      dsimp only
      rw [ih parent hlt (Nat.lt_trans hlt hs) (by omega : parent < steps)
        (by omega : parent < steps')]

theorem WellFormed.path_child {c : Chronicle} (h : c.WellFormed) {s parent : Nat}
    (hparent : c.parents[s]? = some (some parent)) : c.path s = s :: c.path parent := by
  have hlt := h.ordered s parent hparent
  have hs := (List.getElem?_eq_some_iff.mp hparent).1
  have houter := h.pathWithin_eq [] (Nat.lt_trans hlt hs) hlt (Nat.lt_succ_self parent)
  rw [List.append_nil] at houter
  rw [path, pathWithin, hparent]
  exact congrArg (s :: ·) houter

/-- The scopes around a scope were made before it. -/
theorem WellFormed.le_of_mem_path {c : Chronicle} (h : c.WellFormed) {s t : Nat}
    (ht : t ∈ c.path s) :
    t ≤ s := by
  induction s using Nat.strongRecOn with
  | ind s ih =>
    match hparent : c.parents[s]? with
    | none =>
      rw [path, pathWithin, hparent] at ht
      cases ht
    | some none =>
      rw [path, pathWithin, hparent] at ht
      exact Nat.le_of_eq (List.mem_singleton.mp ht)
    | some (some parent) =>
      rw [h.path_child hparent] at ht
      rcases List.mem_cons.mp ht with rfl | ht
      · exact Nat.le_refl _
      · have hlt := h.ordered s parent hparent
        exact Nat.le_trans (ih parent hlt ht) (Nat.le_of_lt hlt)

/-- The root that is found by following the tree is the end of the path. -/
theorem WellFormed.root_toTree {c : Chronicle} (h : c.WellFormed) {s : Nat}
    (hs : s < c.parents.length) :
    c.root? s = some (c.toTree.root s) := by
  have hwithin : ∀ steps s, s < steps → s < c.parents.length →
      (pathWithin c.parents steps s).getLast? = some (c.toTree.rootWithin steps s) := by
    intro steps
    induction steps with
    | zero => intro s hsteps; omega
    | succ steps ih =>
      intro s hsteps hs
      rw [ScopeTree.rootWithin, pathWithin, toTree_getElem?]
      match hparent : c.parents[s]? with
      | none => exact absurd (List.getElem?_eq_none_iff.mp hparent) (Nat.not_le.mpr hs)
      | some none => rfl
      | some (some parent) =>
        have hlt := h.ordered s parent hparent
        show (s :: pathWithin c.parents steps parent).getLast? =
          some (c.toTree.rootWithin steps parent)
        rw [List.getLast?_cons, ih parent (by omega) (Nat.lt_trans hlt hs)]
        rfl
  exact hwithin (s + 1) s (Nat.lt_succ_self s) hs

/-! ## 5. One operation -/

theorem WellFormed.note {c : Chronicle} (h : c.WellFormed) (s : Option Nat)
    (name : String) (e : Expr) : (c.note s name e).WellFormed := by
  unfold Chronicle.note
  split
  · split
    · next hs =>
      refine ⟨h.ordered, fun entry hentry => ?_⟩
      rcases List.mem_cons.mp hentry with rfl | hentry
      · exact hs
      · exact h.logged entry hentry
    · exact h
  · exact h

/-- A scope that is made has an earlier one around it, or none. -/
theorem WellFormed.made {c : Chronicle} (h : c.WellFormed) {parent : Option Nat}
    (hparent : ∀ p ∈ parent, p < c.parents.length) (bindings : Bindings) :
    (Chronicle.mk (c.parents ++ [parent])
      (entriesOf c.parents.length bindings ++ c.log)).WellFormed := by
  constructor
  · intro s p hs
    rw [List.getElem?_append] at hs
    split at hs
    · exact h.ordered s p hs
    · obtain ⟨hlt, heq⟩ := List.getElem?_eq_some_iff.mp hs
      rw [List.length_singleton] at hlt
      have := hparent p (by simpa using heq)
      omega
  · intro entry hentry
    rw [List.length_append, List.length_singleton]
    rcases List.mem_append.mp hentry with hentry | hentry
    · obtain ⟨binding, -, rfl⟩ := List.mem_map.mp hentry
      exact Nat.lt_succ_self _
    · exact Nat.lt_succ_of_lt (h.logged entry hentry)

theorem WellFormed.step {c : Chronicle} (h : c.WellFormed) (op : ScopeOp) :
    (c.step op).WellFormed := by
  cases op with
  | global bindings => exact h.made (by rintro _ ⟨⟩) bindings
  | child parent =>
    show (if parent < c.parents.length then _ else c).WellFormed
    split
    · next hparent => exact h.made (by rintro _ ⟨⟩; exact hparent) []
    · exact h
  | define s name e => exact h.note (some s) name e
  | setGlobal s name e => exact h.note (c.root? s) name e
  | register s f => exact h.note (c.root? s) f.name (.function f)
  | parse s source => exact h

theorem wellFormed_ofOps (ops : List ScopeOp) : (ofOps ops).WellFormed := by
  induction ops using List.reverseRecOn with
  | nil => exact wellFormed_empty
  | append_singleton ops op ih =>
    rw [ofOps, List.foldl_append]
    exact ih.step op

theorem toTree_eq_iff {c : Chronicle} {tree : ScopeTree} : tree = c.toTree ↔
    ∀ s : Nat, tree.nodes[s]? = c.parents[s]?.map fun parent =>
    ScopeNode.mk (bindingsIn c.log s) parent := by
  constructor
  · rintro rfl s
    exact c.toTree_getElem? s
  · intro h
    have hnodes : tree.nodes = c.toTree.nodes := Array.ext_getElem? fun s => by
      rw [h s, toTree_getElem?]
    cases tree
    cases htree : c.toTree
    rw [htree] at hnodes
    exact congrArg ScopeTree.mk hnodes

/-- To bind a name in a scope of the tree is to note the binding. -/
theorem define_toTree (c : Chronicle) (s : Nat) (name : String) (e : Expr) :
    c.toTree.define s name e = (c.note (some s) name e).toTree := by
  rw [toTree_eq_iff]
  intro t
  rw [ScopeTree.define_nodes, Array.getElem?_modify, toTree_getElem?, note]
  by_cases hs : s < c.parents.length
  · simp only [hs, if_true, bindingsIn, List.filterMap_cons]
    by_cases hst : s = t
    · simp only [hst, if_true, Option.map_map]
      rfl
    · simp only [hst, if_false]
  · simp only [hs, if_false]
    split
    · next hst =>
      rw [← hst, List.getElem?_eq_none (Nat.le_of_not_lt hs)]
      rfl
    · rfl

theorem bindingsIn_entriesOf (s t : Nat) (bindings : Bindings) :
    bindingsIn (entriesOf s bindings) t = if s = t then bindings else [] := by
  induction bindings with
  | nil => split <;> rfl
  | cons b bindings ih =>
    rw [bindingsIn, entriesOf] at ih
    rw [bindingsIn, entriesOf, List.map_cons, List.filterMap_cons, ih]
    by_cases h : s = t
    · simp only [if_pos h]
    · simp only [if_neg h]

/-- Nothing is bound in a scope that is not there yet. -/
theorem WellFormed.bindingsIn_eq_nil {c : Chronicle} (h : c.WellFormed) {s : Nat}
    (hs : c.parents.length ≤ s) : bindingsIn c.log s = [] := by
  rw [bindingsIn, List.filterMap_eq_nil_iff]
  intro entry hentry
  have hlt := h.logged entry hentry
  exact if_neg (by omega)

/-- To make a scope in the tree is to note the scope. -/
theorem WellFormed.push_toTree {c : Chronicle} (h : c.WellFormed) (bindings : Bindings)
    (parent : Option Nat) :
    ScopeTree.mk (c.toTree.nodes.push ⟨bindings, parent⟩) =
      (Chronicle.mk (c.parents ++ [parent])
        (entriesOf c.parents.length bindings ++ c.log)).toTree := by
  rw [toTree_eq_iff]
  intro t
  have happend : bindingsIn (entriesOf c.parents.length bindings ++ c.log) t =
      (if c.parents.length = t then bindings else []) ++ bindingsIn c.log t := by
    rw [← bindingsIn_entriesOf, bindingsIn, bindingsIn, bindingsIn, List.filterMap_append]
  rw [Array.getElem?_push, toTree_size, toTree_getElem?, happend]
  rcases Nat.lt_trichotomy t c.parents.length with ht | rfl | ht
  · rw [if_neg (by omega), if_neg (by omega), List.getElem?_append_left ht]
    rfl
  · rw [if_pos rfl, if_pos rfl, List.getElem?_concat_length, h.bindingsIn_eq_nil (Nat.le_refl _),
      List.append_nil]
    rfl
  · rw [if_neg (by omega), List.getElem?_eq_none (Nat.le_of_lt ht),
      List.getElem?_eq_none (by rw [List.length_append, List.length_singleton]; exact ht)]
    rfl

/-- To bind a name in the global scope of the tree is to note the binding. -/
theorem WellFormed.setGlobal_toTree {c : Chronicle} (h : c.WellFormed) (s : Nat)
    (name : String) (e : Expr) :
    c.toTree.setGlobal s name e = (c.note (c.root? s) name e).toTree := by
  rw [ScopeTree.setGlobal]
  by_cases hs : s < c.parents.length
  · rw [h.root_toTree hs]
    exact c.define_toTree _ name e
  · have hnone : c.parents[s]? = none := List.getElem?_eq_none (Nat.le_of_not_lt hs)
    have hroot : c.root? s = none := by
      rw [root?, path, pathWithin, hnone]
      rfl
    have htree : c.toTree.root s = s := by
      rw [ScopeTree.root, ScopeTree.rootWithin, toTree_getElem?, hnone]
      rfl
    rw [hroot, htree, define_toTree, Chronicle.note, if_neg hs]
    rfl

/-- **After every operation the tree is the tree of the record.** -/
theorem WellFormed.step_toTree {c : Chronicle} (h : c.WellFormed) (op : ScopeOp) :
    c.toTree.step op = (c.step op).toTree := by
  cases op with
  | global bindings => exact h.push_toTree bindings none
  | child parent =>
    show (if parent < c.toTree.nodes.size then _ else c.toTree) =
      (if parent < c.parents.length then _ else c).toTree
    rw [toTree_size]
    split
    · exact h.push_toTree [] (some parent)
    · rfl
  | define s name e => exact c.define_toTree s name e
  | setGlobal s name e => exact h.setGlobal_toTree s name e
  | register s f => exact h.setGlobal_toTree s f.name (.function f)
  | parse s source =>
    show (if s < c.toTree.nodes.size then _ else c.toTree) = c.toTree
    split
    · next hs => exact (ScopeTree.read_spares h.toTree_ordered hs source).2.upTo_eq
    · rfl

/-- The tree after a run is the tree of its record. -/
theorem run_eq_toTree (ops : List ScopeOp) : ScopeTree.run ops = (ofOps ops).toTree := by
  induction ops using List.reverseRecOn with
  | nil => rfl
  | append_singleton ops op ih =>
    rw [ofOps, ScopeTree.run, List.foldl_append, List.foldl_append]
    show (ScopeTree.run ops).step op = ((ofOps ops).step op).toTree
    rw [ih]
    exact (wellFormed_ofOps ops).step_toTree op

/-! ## 6. What an operation changes -/

theorem note_parents (c : Chronicle) (s : Option Nat) (name : String) (e : Expr) :
    (c.note s name e).parents = c.parents := by
  unfold note
  split
  · split <;> rfl
  · rfl

theorem path_note (c : Chronicle) (s : Option Nat) (name : String) (e : Expr) (t : Nat) :
    (c.note s name e).path t = c.path t := by
  rw [path, note_parents, path]

theorem latest_note (c : Chronicle) (s : Option Nat) (name : String) (e : Expr) {t : Nat}
    (ht : t < c.parents.length) (name' : String) :
    (c.note s name e).latest t name' = if s = some t ∧ name' = name then some e
      else c.latest t name' := by
  unfold note
  split
  · next s =>
    split
    · by_cases hst : s = t
      · by_cases hname : name' = name
        · simp [latest, hst, hname]
        · have hne : (name == name') = false := by simpa using Ne.symm hname
          simp [latest, hst, hname, hne]
      · have hne : (s == t) = false := by simpa using hst
        simp [latest, hst, hne]
    · next hs =>
      have hst : ¬ s = t := fun h => hs (h ▸ ht)
      simp [hst]
  · simp

theorem findSome?_agree {p : List Nat} {f g : Nat → Option Expr} (h : ∀ u ∈ p, g u = f u) :
    p.findSome? g = p.findSome? f := by
  induction p with
  | nil => rfl
  | cons u p ih =>
    rw [List.findSome?_cons, List.findSome?_cons, h u List.mem_cons_self,
      ih fun v hv => h v (List.mem_cons_of_mem _ hv)]

/-- On a path, something found in one place hides what is behind it, and is hidden by what is before
it. -/
theorem findSome?_override {p : List Nat} {t : Nat} {f g : Nat → Option Expr} {e : Expr}
    (hat : g t = some e) (hoff : ∀ u ∈ p, u ≠ t → g u = f u) :
    (t ∈ p ∧ (∀ u ∈ p.takeWhile (· ≠ t), f u = none) → p.findSome? g = some e) ∧
      (¬ (t ∈ p ∧ ∀ u ∈ p.takeWhile (· ≠ t), f u = none) → p.findSome? g = p.findSome? f) := by
  induction p with
  | nil => exact ⟨fun h => absurd h.1 List.not_mem_nil, fun _ => rfl⟩
  | cons u p ih =>
    by_cases hu : u = t
    · subst hu
      rw [List.findSome?_cons, hat]
      exact ⟨fun _ => rfl, fun h => absurd ⟨List.mem_cons_self, by simp⟩ h⟩
    · obtain ⟨hseen, hkept⟩ := ih fun v hv => hoff v (List.mem_cons_of_mem _ hv)
      have hmem : t ∈ u :: p ↔ t ∈ p := by simp [Ne.symm hu]
      rw [List.findSome?_cons, List.findSome?_cons, hoff u List.mem_cons_self hu, hmem,
        List.takeWhile_cons_of_pos (by simpa using hu), List.forall_mem_cons]
      cases f u with
      | some e' => exact ⟨fun h => absurd h.2.1 (Option.some_ne_none e'), fun _ => rfl⟩
      | none =>
        refine ⟨fun h => hseen ⟨h.1, h.2.2⟩, fun h => hkept fun h' => h ⟨h'.1, rfl, h'.2⟩⟩

/-- A binding in `t` is found from `s` if `s` sees it there. -/
theorem lookup_note_of_sees {c : Chronicle} {s t : Nat} {name : String} (e : Expr)
    (h : c.Sees s t name) : (c.note (some t) name e).lookup s name = some e := by
  rw [lookup, path_note]
  refine (findSome?_override ?_ fun u hu hne => ?_).1 h
  · rw [latest_note c _ name e (lt_of_mem_path h.1), if_pos ⟨rfl, rfl⟩]
  · rw [latest_note c _ name e (lt_of_mem_path hu), if_neg fun h => hne (Option.some.inj h.1).symm]

/-- Nothing else is found differently from there. -/
theorem lookup_note_of_not_sees {c : Chronicle} {s t : Nat} {name name' : String} (e : Expr)
    (h : ¬ (name' = name ∧ c.Sees s t name)) :
    (c.note (some t) name e).lookup s name' = c.lookup s name' := by
  rw [lookup, path_note, lookup]
  by_cases hname : name' = name
  · subst hname
    by_cases ht : t < c.parents.length
    · refine (findSome?_override (t := t) (e := e) ?_ fun u hu hne => ?_).2 fun hsees =>
        h ⟨rfl, hsees⟩
      · rw [latest_note c _ name' e ht, if_pos ⟨rfl, rfl⟩]
      · rw [latest_note c _ name' e (lt_of_mem_path hu), if_neg fun h =>
          hne (Option.some.inj h.1).symm]
    · rw [note, if_neg ht]
  · refine findSome?_agree fun u hu => ?_
    rw [latest_note c _ name e (lt_of_mem_path hu), if_neg fun h => hname h.2]

theorem lookup_note_of_not_mem {c : Chronicle} {s t : Nat} (h : t ∉ c.path s)
    (name : String) (e : Expr)
    (name' : String) : (c.note (some t) name e).lookup s name' = c.lookup s name' :=
  lookup_note_of_not_sees e fun hsees => h hsees.2.1

/-- All scopes of a path have one global scope around them. -/
theorem WellFormed.root?_of_mem_path {c : Chronicle} (h : c.WellFormed) {s t : Nat}
    (ht : t ∈ c.path s) :
    c.root? t = c.root? s := by
  induction s using Nat.strongRecOn with
  | ind s ih =>
    match hparent : c.parents[s]? with
    | none =>
      rw [path, pathWithin, hparent] at ht
      cases ht
    | some none =>
      rw [path, pathWithin, hparent] at ht
      rw [List.mem_singleton.mp ht]
    | some (some parent) =>
      have hpath := h.path_child hparent
      have hlt := h.ordered s parent hparent
      have hs := (List.getElem?_eq_some_iff.mp hparent).1
      rw [hpath] at ht
      rcases List.mem_cons.mp ht with rfl | ht
      · rfl
      · have hroot : c.root? s = c.root? parent := by
          have hsome := h.root_toTree (Nat.lt_trans hlt hs)
          rw [root?] at hsome
          rw [root?, hpath, List.getLast?_cons, hsome, root?, hsome]
          rfl
        rw [ih parent hlt ht, hroot]

/-- Siblings are not on each other's path. -/
theorem WellFormed.not_mem_path_of_siblings {c : Chronicle} (h : c.WellFormed) {s t parent : Nat}
    (hs : c.parents[s]? = some (some parent)) (ht : c.parents[t]? = some (some parent))
    (hne : s ≠ t) :
    t ∉ c.path s := by
  rw [h.path_child hs]
  intro hmem
  rcases List.mem_cons.mp hmem with rfl | hmem
  · exact hne rfl
  · have hle := h.le_of_mem_path hmem
    have hlt := h.ordered t parent ht
    omega

/-- Scopes that are made later change no path. -/
theorem WellFormed.path_step {c : Chronicle} (h : c.WellFormed) (op : ScopeOp) {s : Nat}
    (hs : s < c.parents.length) : (c.step op).path s = c.path s ∧
    s < (c.step op).parents.length := by
  have hpush : ∀ (parent : Option Nat) (log : List Entry),
      (Chronicle.mk (c.parents ++ [parent]) log).path s = c.path s ∧
        s < (c.parents ++ [parent]).length := by
    intro parent log
    refine ⟨h.pathWithin_eq [parent] hs (Nat.lt_succ_self s) (Nat.lt_succ_self s), ?_⟩
    rw [List.length_append]
    omega
  have hnote : ∀ (t : Option Nat) (name : String) (e : Expr),
      (c.note t name e).path s = c.path s ∧ s < (c.note t name e).parents.length := by
    intro t name e
    rw [path_note, note_parents]
    exact ⟨rfl, hs⟩
  cases op with
  | global bindings => exact hpush none _
  | child parent =>
    show (if parent < c.parents.length then _ else c).path s = _ ∧
      s < (if _ then _ else c).parents.length
    split
    · exact hpush (some parent) _
    · exact ⟨rfl, hs⟩
  | define t name e => exact hnote (some t) name e
  | setGlobal t name e => exact hnote (c.root? t) name e
  | register t f => exact hnote (c.root? t) f.name (.function f)
  | parse t source => exact ⟨rfl, hs⟩

/-- What a scope itself binds changes in one place only. -/
theorem bound_note (c : Chronicle) {r : Option Nat} (hr : ∀ t ∈ r, t < c.parents.length)
    (name : String) (e : Expr) (t : Nat) (name' : String) :
    (c.note r name e).toTree.bound t name' =
      if r = some t ∧ name' = name then some e else c.toTree.bound t name' := by
  by_cases ht : t < c.parents.length
  · rw [bound_toTree _ (by rwa [note_parents]), bound_toTree c ht, latest_note c r name e ht]
  · have hr : ¬ r = some t := fun h => ht (hr t h)
    rw [if_neg fun h => hr h.1, ScopeTree.bound, ScopeTree.bound, toTree_getElem?, toTree_getElem?,
      note_parents, List.getElem?_eq_none (Nat.le_of_not_lt ht)]
    rfl

end Chronicle

/-! ## 7. The laws of scopes -/

/-- The operations that bind a name from a scope. -/
inductive BindsFrom (s : Nat) : ScopeOp → Prop where
  | define (name : String) (e : Expr) : BindsFrom s (.define s name e)
  | setGlobal (name : String) (e : Expr) : BindsFrom s (.setGlobal s name e)
  | register (f : Function) : BindsFrom s (.register s f)

/-- What holds of the scopes after a run, and of one more operation. -/
structure ScopeLaws (tree : ScopeTree) (record : Chronicle) : Prop where
  /-- A name stands for what it was bound to last in the nearest scope that binds it, if there is
  one. -/
  lookup_eq (s : Nat) (name : String) :
    tree.lookup s name = (record.path s).findSome? fun t => record.latest t name
  /-- A binding is found from the scope itself and from those inside of it, unless a nearer one
  hides it. -/
  define_seen {s t : Nat} {name : String} (e : Expr) (h : record.Sees s t name) :
    (tree.step (.define t name e)).lookup s name = some e
  /-- Nothing else is found differently. -/
  define_kept {s t : Nat} {name name' : String} (e : Expr)
    (h : ¬ (name' = name ∧ record.Sees s t name)) :
    (tree.step (.define t name e)).lookup s name' = tree.lookup s name'
  /-- A global binding is made in the outermost scope, and no scope binds anything else after it. -/
  setGlobal_bound (s t : Nat) (name name' : String) (e : Expr) :
    (tree.step (.setGlobal s name e)).bound t name' =
      if record.root? s = some t ∧ name' = name then some e else tree.bound t name'
  register_bound (s t : Nat) (f : Function) (name' : String) :
    (tree.step (.register s f)).bound t name' =
      if record.root? s = some t ∧ name' = f.name then some (.function f) else tree.bound t name'
  /-- Scopes that were made inside of one scope do not see what is defined in each other. -/
  siblings {s t parent : Nat} (hs : record.parents[s]? = some (some parent))
    (ht : record.parents[t]? = some (some parent)) (hne : s ≠ t) (name name' : String) (e : Expr) :
    (tree.step (.define t name e)).lookup s name' = tree.lookup s name'
  /-- Scopes of different trees do not see what is bound from each other. -/
  separate {s t : Nat} (h : record.root? s ≠ record.root? t) {op : ScopeOp} (hop : BindsFrom t op)
    (name' : String) : (tree.step op).lookup s name' = tree.lookup s name'
  /-- What is around a scope is settled when it is made. -/
  settled {s : Nat} (hs : s < tree.nodes.size) (more : List ScopeOp) :
    (more.foldl Chronicle.step record).path s = record.path s
  /-- Reading a text gives what it gives in the scope alone. The scopes that the reader makes stand
  behind those that are there, and these are as they were. -/
  parse {s : Nat} (hs : s < tree.nodes.size) (source : String) :
    (tree.read s source).1 = parseIn (tree.view s) source ∧
      (∀ t < tree.nodes.size, (tree.read s source).2.nodes[t]? = tree.nodes[t]?) ∧
      tree.step (.parse s source) = tree

namespace Chronicle

variable {c : Chronicle} (h : c.WellFormed)
include h

theorem WellFormed.separate {s t : Nat} (hroot : c.root? s ≠ c.root? t) {op : ScopeOp}
    (hop : BindsFrom t op)
    (name' : String) : (c.toTree.step op).lookup s name' = c.toTree.lookup s name' := by
  -- a name is bound in a scope around `t`, and that scope is not around `s`
  have hnote : ∀ (r : Option Nat) (name : String) (e : Expr), (∀ u ∈ r, u ∈ c.path t) →
      (c.note r name e).lookup s name' = c.lookup s name' := by
    intro r name e hr
    cases r with
    | none => rfl
    | some u =>
      refine lookup_note_of_not_mem (fun hu => hroot ?_) name e name'
      rw [← h.root?_of_mem_path hu, h.root?_of_mem_path (hr u rfl)]
  have hglobal : ∀ u ∈ c.root? t, u ∈ c.path t := fun u hu => List.mem_of_getLast? hu
  rw [h.step_toTree, lookup_toTree, lookup_toTree]
  cases hop with
  | define name e =>
    by_cases ht : t < c.parents.length
    · refine hnote (some t) name e ?_
      rintro _ ⟨⟩
      exact self_mem_path ht
    · rw [Chronicle.step, Chronicle.note, if_neg ht]
  | setGlobal name e => exact hnote _ name e hglobal
  | register f => exact hnote _ f.name (.function f) hglobal

theorem WellFormed.settled (more : List ScopeOp) {s : Nat} (hs : s < c.parents.length) :
    (more.foldl Chronicle.step c).path s = c.path s := by
  induction more generalizing c with
  | nil => rfl
  | cons op more ih =>
    obtain ⟨hpath, hs'⟩ := h.path_step op hs
    exact (ih (h.step op) hs').trans hpath

end Chronicle

/-- **Scopes behave as chains over whole runs.** -/
theorem scope_laws (ops : List ScopeOp) : ScopeLaws (ScopeTree.run ops) (Chronicle.ofOps ops) := by
  have h := Chronicle.wellFormed_ofOps ops
  rw [Chronicle.run_eq_toTree]
  generalize Chronicle.ofOps ops = c at h
  exact {
    lookup_eq := fun s name => c.lookup_toTree s name
    define_seen := fun {s t name} e hsees => by
      rw [h.step_toTree, Chronicle.lookup_toTree]
      exact Chronicle.lookup_note_of_sees e hsees
    define_kept := fun {s t name name'} e hsees => by
      rw [h.step_toTree, Chronicle.lookup_toTree, Chronicle.lookup_toTree]
      exact Chronicle.lookup_note_of_not_sees e hsees
    setGlobal_bound := fun s t name name' e => by
      rw [h.step_toTree]
      exact c.bound_note (fun _ => Chronicle.lt_of_root?) name e t name'
    register_bound := fun s t f name' => by
      rw [h.step_toTree]
      exact c.bound_note (fun _ => Chronicle.lt_of_root?) f.name (.function f) t name'
    siblings := fun {s t parent} hs ht hne name name' e => by
      rw [h.step_toTree, Chronicle.lookup_toTree, Chronicle.lookup_toTree]
      exact Chronicle.lookup_note_of_not_mem (h.not_mem_path_of_siblings hs ht hne) name e name'
    separate := fun hroot _ hop name' => h.separate hroot hop name'
    settled := fun {s} hs more => h.settled more (c.toTree_size ▸ hs)
    parse := fun {s} hs source => by
      obtain ⟨hparse, hextends⟩ := ScopeTree.read_spares h.toTree_ordered hs source
      exact ⟨hparse, hextends.kept, h.step_toTree (.parse s source)⟩ }

/-- A scope inside another: a name that both bind, a failed reading of a lambda in between, and a
name that the inner one binds globally. -/
theorem scope_laws_shadowed :
    let tree :=
      ScopeTree.run [.global [], .child 0, .define 1 "a" (.integer 2), .define 0 "a" (.integer 1),
      .parse 1 "\\a b -> (a", .setGlobal 1 "g" (.bool true)]
    tree.lookup 1 "a" = some (.integer 2) ∧ tree.lookup 0 "a" = some (.integer 1) ∧
      tree.lookup 0 "g" = some (.bool true) ∧ tree.lookup 1 "b" = none :=
  ⟨(scope_laws _).lookup_eq 1 "a", (scope_laws _).lookup_eq 0 "a", (scope_laws _).lookup_eq 0 "g",
    (scope_laws _).lookup_eq 1 "b"⟩

end LazyExpr
