import LazyExpr.Proofs.Scope.Reader

/-!
# The reader spares the scopes that are there

Reading in a tree of scopes and reading in the scope that a member stands for are the same, although
the tree grows on the way.  What makes it so is that the reader writes to scopes of its own only: a
lambda's scope is made new, its parameters are bound in it and nowhere else, and whatever is read
inside the lambda makes newer scopes still.  So every scope that was there before the reader started
stands for what it stood for, at each moment and however the reading ends.

The induction is over the fuel of all readers at once.  Its invariant is `Agrees`: from every tree
in which a member stands for a scope, the two readers do the same to the stream, and the tree is
extended.

* `Extends` — a tree with more scopes, in which the former ones are as they were.
* `hosts_bindParameter` — a scope with the parameters read so far, and one more.
* `agreesAt` — **every reader of the tree agrees with the reader of the scope.**
* `read_spares` — **reading a text gives what it gives in the scope, and no scope that was there is
  changed**, whatever lambdas the text contains and wherever it fails.
-/

namespace LazyExpr

namespace ScopeTree

open Reader

/-! ## 1. What a member stands for -/

/-- Enclosing scopes were made earlier. -/
def Ordered (tree : ScopeTree) : Prop :=
  ∀ (id : Nat) (node : ScopeNode), tree.nodes[id]? = some node → ∀ parent ∈ node.parent, parent < id

/-- Following a chain outward takes no more steps than the number says. -/
theorem Ordered.viewWithin_eq {tree : ScopeTree} (h : tree.Ordered) {id : Nat} :
    ∀ {steps : Nat}, id < steps → tree.viewWithin steps id = tree.view id := by
  induction id using Nat.strongRecOn with
  | ind id ih =>
    intro steps hsteps
    obtain ⟨steps, rfl⟩ : ∃ k, steps = k + 1 := ⟨steps - 1, by omega⟩
    rw [view, viewWithin, viewWithin]
    match hnode : tree.nodes[id]? with
    | none => rfl
    | some ⟨bindings, none⟩ => rfl
    | some ⟨bindings, some parent⟩ =>
      have hparent := h id _ hnode parent rfl
      dsimp only
      rw [ih parent hparent (by omega), ih parent hparent hparent]

theorem Ordered.view_child {tree : ScopeTree} (h : tree.Ordered) {id parent : Nat}
    {bindings : Bindings} (hnode : tree.nodes[id]? = some ⟨bindings, some parent⟩) :
    tree.view id = .child bindings (tree.view parent) := by
  rw [view, viewWithin, hnode]
  dsimp only
  rw [h.viewWithin_eq (h id _ hnode parent rfl)]

/-- What a scope stands for is a matter of the scopes up to it. -/
theorem Ordered.view_congr {tree tree' : ScopeTree} (h : tree.Ordered)
    (h' : tree'.Ordered) {id : Nat}
    (hsame : ∀ k ≤ id, tree'.nodes[k]? = tree.nodes[k]?) : tree'.view id = tree.view id := by
  induction id using Nat.strongRecOn with
  | ind id ih =>
    have hnode' := hsame id (Nat.le_refl id)
    match hnode : tree.nodes[id]? with
    | none => rw [view, viewWithin, view, viewWithin, hnode', hnode]
    | some ⟨bindings, none⟩ => rw [view, viewWithin, view, viewWithin, hnode', hnode]
    | some ⟨bindings, some parent⟩ =>
      have hparent := h id _ hnode parent rfl
      rw [h.view_child hnode, h'.view_child (hnode'.trans hnode),
        ih parent hparent fun k hk => hsame k (by omega)]

/-- The tree has the scopes of another one, unchanged, and perhaps more. -/
structure Extends (tree tree' : ScopeTree) : Prop where
  ordered : tree'.Ordered
  size_le : tree.nodes.size ≤ tree'.nodes.size
  kept : ∀ id < tree.nodes.size, tree'.nodes[id]? = tree.nodes[id]?

theorem Ordered.extends {tree : ScopeTree} (h : tree.Ordered) : tree.Extends tree :=
  ⟨h, Nat.le_refl _, fun _ _ => rfl⟩

theorem Extends.trans {tree tree' tree'' : ScopeTree} (h : tree.Extends tree')
    (h' : tree'.Extends tree'') :
    tree.Extends tree'' := by
  refine ⟨h'.ordered, Nat.le_trans h.size_le h'.size_le, fun id hid => ?_⟩
  rw [h'.kept id (Nat.lt_of_lt_of_le hid h.size_le), h.kept id hid]

/-- What a scope stands for does not change. -/
theorem Extends.view_eq {tree tree' : ScopeTree} (h : tree.Extends tree') (hordered : tree.Ordered)
    {id : Nat} (hid : id < tree.nodes.size) : tree'.view id = tree.view id :=
  hordered.view_congr h.ordered fun k hk => h.kept k (by omega)

/-- A member of the tree stands for the scope. -/
structure Hosts (tree : ScopeTree) (id : Nat) (scope : Scope) : Prop where
  ordered : tree.Ordered
  lt : id < tree.nodes.size
  view_eq : tree.view id = scope

theorem Hosts.extends {tree tree' : ScopeTree} {id : Nat} {scope : Scope} (h : tree.Hosts id scope)
    (hextends : tree.Extends tree') : tree'.Hosts id scope :=
  ⟨hextends.ordered, Nat.lt_of_lt_of_le h.lt hextends.size_le,
    (hextends.view_eq h.ordered h.lt).trans h.view_eq⟩

/-! ## 2. The scopes of lambdas -/

section Lambda

variable {tree : ScopeTree} {id : Nat} {scope : Scope}

theorem addChild_nodes (tree : ScopeTree) (id : Nat) :
    (tree.addChild id).2.nodes = tree.nodes.push ⟨[], some id⟩ := rfl

/-- A scope is added behind those that are there. -/
theorem Hosts.extends_addChild (h : tree.Hosts id scope) : tree.Extends (tree.addChild id).2 := by
  refine ⟨?_, ?_, fun k hk => ?_⟩
  · intro k node hnode parent hparent
    rw [addChild_nodes, Array.getElem?_push] at hnode
    split at hnode
    · next hk =>
      cases hnode
      cases hparent
      exact hk ▸ h.lt
    · exact h.ordered k node hnode parent hparent
  · rw [addChild_nodes, Array.size_push]
    exact Nat.le_succ _
  · rw [addChild_nodes, Array.getElem?_push_lt hk, Array.getElem?_eq_getElem hk]

/-- The new scope stands for the inside of a lambda without parameters. -/
theorem Hosts.addChild (h : tree.Hosts id scope) :
    (tree.addChild id).2.Hosts tree.nodes.size (scope.inside []) := by
  have hextends := h.extends_addChild
  have hnode : (tree.addChild id).2.nodes[tree.nodes.size]? = some ⟨[], some id⟩ := by
    rw [addChild_nodes, Array.getElem?_push_size]
  refine ⟨hextends.ordered, ?_, ?_⟩
  · rw [addChild_nodes, Array.size_push]
    exact Nat.lt_succ_self _
  · rw [hextends.ordered.view_child hnode, hextends.view_eq h.ordered h.lt, h.view_eq]
    rfl

theorem define_nodes (tree : ScopeTree) (id : Nat) (name : String) (e : Expr) :
    (tree.define id name e).nodes =
      tree.nodes.modify id fun node => { node with bindings := (name, e) :: node.bindings } := rfl

theorem Ordered.define (h : tree.Ordered) (id : Nat) (name : String) (e : Expr) :
    (tree.define id name e).Ordered := by
  intro k node hnode parent hparent
  rw [define_nodes, Array.getElem?_modify] at hnode
  split at hnode
  · obtain ⟨before, hbefore, rfl⟩ := Option.map_eq_some_iff.mp hnode
    exact h k before hbefore parent hparent
  · exact h k node hnode parent hparent

/-- What is bound in a new scope changes none of those before it. -/
theorem Extends.define {tree' : ScopeTree} (h : tree.Extends tree') {inner : Nat}
    (hinner : tree.nodes.size ≤ inner) (name : String) (e : Expr) :
    tree.Extends (tree'.define inner name e) := by
  refine ⟨h.ordered.define inner name e, ?_, fun k hk => ?_⟩
  · rw [define_nodes, Array.size_modify]
    exact h.size_le
  · rw [define_nodes, Array.getElem?_modify, if_neg (by omega), h.kept k hk]

/-- A binding in a scope that stands for a chain is a binding in the innermost scope of the
chain. -/
theorem Hosts.define (h : tree.Hosts id scope) (name : String) (e : Expr) :
    (tree.define id name e).Hosts id (scope.define name e) := by
  have hordered := h.ordered.define id name e
  obtain ⟨node, hnode⟩ : ∃ node, tree.nodes[id]? = some node := ⟨_, Array.getElem?_eq_getElem h.lt⟩
  have hnode' : (tree.define id name e).nodes[id]? =
      some ⟨(name, e) :: node.bindings, node.parent⟩ := by
    rw [define_nodes, Array.getElem?_modify, if_pos rfl, hnode]
    rfl
  refine ⟨hordered, by rw [define_nodes, Array.size_modify]; exact h.lt, ?_⟩
  rw [← h.view_eq]
  match node with
  | ⟨bindings, none⟩ =>
    rw [view, viewWithin, hnode', view, viewWithin, hnode]
    rfl
  | ⟨bindings, some parent⟩ =>
    have hparent := h.ordered id _ hnode parent rfl
    -- the scopes around this one stand before it
    have houter : (tree.define id name e).view parent = tree.view parent := by
      refine h.ordered.view_congr hordered fun k hk => ?_
      rw [define_nodes, Array.getElem?_modify, if_neg (by omega)]
    rw [hordered.view_child hnode', h.ordered.view_child hnode, houter]
    rfl

/-- One more parameter is bound to the slot behind the slots of those before it. -/
theorem Hosts.bindParameter {names : List String} (h : tree.Hosts id (scope.inside names.reverse))
    (name : String) :
    (tree.define id name (.argument ⟨scope.depth + 1, names.length, name⟩)).Hosts id
      (scope.inside (name :: names).reverse) := by
  have hbindings : Scope.parameterBindings (scope.depth + 1) (name :: names).reverse =
      (name, .argument ⟨scope.depth + 1, names.length, name⟩) ::
        Scope.parameterBindings (scope.depth + 1) names.reverse := by
    simp [Scope.parameterBindings, List.mapIdx_append]
  have hdefine := h.define name (.argument ⟨scope.depth + 1, names.length, name⟩)
  rw [Scope.inside, hbindings]
  exact hdefine

end Lambda

/-! ## 3. Steps that agree -/

/-- The readers end alike, and the tree that remains has all scopes of the former one. -/
inductive Spares {α : Type} (tree : ScopeTree) :
    EStateM.Result ParseError Workplace α → EStateM.Result ParseError TokenStream α → Prop where
  | ok {a : α} {s : TokenStream} {tree' : ScopeTree} (h : tree.Extends tree') :
    Spares tree (.ok a ⟨s, tree'⟩) (.ok a s)
  | error {e : ParseError} {s : TokenStream} {tree' : ScopeTree} (h : tree.Extends tree') :
    Spares tree (.error e ⟨s, tree'⟩) (.error e s)

theorem Extends.spares {α : Type} {tree tree' : ScopeTree} (h : tree.Extends tree')
    {r : EStateM.Result ParseError Workplace α} {r' : EStateM.Result ParseError TokenStream α}
    (hr : Spares tree' r r') : Spares tree r r' := by
  cases hr with
  | ok h' => exact .ok (h.trans h')
  | error h' => exact .error (h.trans h')

/-- From every tree in which the member stands for the scope, the two readers end alike, and the
tree is only extended. -/
def Agrees {α : Type} (id : Nat) (scope : Scope) (p : TreeParse α) (q : Parse α) : Prop :=
  ∀ t : Workplace, t.scopes.Hosts id scope → Spares t.scopes (p t) (q t.stream)

namespace Agrees

variable {α β : Type} {id : Nat} {scope : Scope} {p : TreeParse α} {q : Parse α}
    {f : α → TreeParse β} {g : α → Parse β}

theorem pure (a : α) : Agrees id scope (Pure.pure a) (Pure.pure a) :=
  fun _ ht => .ok ht.ordered.extends

theorem throw (e : ParseError) :
    Agrees (α := α) id scope (MonadExcept.throw e) (MonadExcept.throw e) :=
  fun _ ht => .error ht.ordered.extends

/-- One step after another. -/
theorem bind (h : Agrees id scope p q) (hf : ∀ a, Agrees id scope (f a) (g a)) :
    Agrees id scope (p >>= f) (q >>= g) := by
  intro t ht
  have hp : (p >>= f) t = EStateM.bind p f t := rfl
  have hq : (q >>= g) t.stream = EStateM.bind q g t.stream := rfl
  rw [hp, hq]
  unfold EStateM.bind
  have hfirst := h t ht
  generalize p t = r at hfirst
  generalize q t.stream = r' at hfirst
  cases hfirst with
  | error hextends => exact .error hextends
  | @ok a s tree' hextends => exact hextends.spares (hf a ⟨s, tree'⟩ (ht.extends hextends))

/-- A step on the stream leaves the tree alone. -/
theorem onStream (q : Parse α) : Agrees id scope (onStream q) q := by
  intro t ht
  unfold ScopeTree.onStream
  cases q t.stream with
  | ok a s => exact .ok ht.ordered.extends
  | error e s => exact .error ht.ordered.extends

theorem resolve (name : String) (location : Location) :
    Agrees id scope (Reading.resolve id name location) (Reading.resolve scope name location) := by
  intro t ht
  change Spares t.scopes (ScopeTree.resolve id name location t)
    ((MonadExcept.ofExcept (scope.resolve name location) : Parse Expr) t.stream)
  unfold ScopeTree.resolve Scope.resolve lookup
  rw [ht.view_eq]
  cases scope.lookup name with
  | some e => exact .ok ht.ordered.extends
  | none => exact .error ht.ordered.extends

theorem deeper (h : Agrees id scope p q) :
    Agrees id scope (ScopeTree.deeper p) (TokenStream.deeper q) := by
  intro t ht
  unfold ScopeTree.deeper TokenStream.deeper ScopeTree.onStream
  cases TokenStream.descend t.stream with
  | error e s => exact .error ht.ordered.extends
  | ok _ s =>
    have hbody := h ⟨s, t.scopes⟩ ht
    dsimp only
    generalize p ⟨s, t.scopes⟩ = r at hbody
    generalize q s = r' at hbody
    cases hbody with
    | ok hextends => exact .ok hextends
    | error hextends => exact .error hextends

/-- What is embedded in a string is read from another stream, but in the same tree. -/
theorem embedded {p : TreeParse Expr} {q : Parse Expr} (h : Agrees id scope p q) (source : String)
    (location : Location) :
    Agrees id scope (Reading.embedded source location p)
      (Reading.embedded source location q) := by
  intro t ht
  change Spares t.scopes (ScopeTree.embedded source location p t)
    ((MonadExcept.ofExcept (TokenStream.embedded source location q) : Parse Expr) t.stream)
  unfold ScopeTree.embedded TokenStream.embedded
  have hinner := h ⟨.ofSource source, t.scopes⟩ ht
  change Spares t.scopes (p ⟨.ofSource source, t.scopes⟩) (q (.ofSource source)) at hinner
  generalize p ⟨.ofSource source, t.scopes⟩ = r at hinner
  generalize q (.ofSource source) = r' at hinner
  cases hinner with
  | ok hextends => exact .ok hextends
  | error hextends => exact .error hextends

theorem map (f : α → β) (h : Agrees id scope p q) : Agrees id scope (f <$> p) (f <$> q) := by
  rw [map_eq_pure_bind, map_eq_pure_bind]
  exact h.bind fun a => .pure _

/-- Steps one by one along a list. -/
theorem mapM {f : α → TreeParse β} {g : α → Parse β} (xs : List α)
    (h : ∀ x ∈ xs, Agrees id scope (f x) (g x)) : Agrees id scope (xs.mapM f) (xs.mapM g) := by
  induction xs with
  | nil => exact .pure []
  | cons x xs ih =>
    rw [List.mapM_cons, List.mapM_cons]
    refine (h x List.mem_cons_self).bind fun y => ?_
    exact (ih fun x' hx' => h x' (List.mem_cons_of_mem _ hx')).bind fun ys => .pure _

end Agrees

/-! ## 4. Parts of the readers -/

section Parts

variable {id : Nat} {scope : Scope} {p : TreeParse (Option Expr)} {q : Parse (Option Expr)}

theorem agrees_peek : Agrees id scope Reading.peek Reading.peek := .onStream _

theorem agrees_advance : Agrees id scope Reading.advance Reading.advance := .onStream _

theorem agrees_peekToken : Agrees id scope peekToken peekToken :=
  agrees_peek.bind fun found => .pure (found.map Spanned.token)

theorem agrees_missing {α : Type} (description : String) :
    Agrees (α := α) id scope (missing description) (missing description) := by
  refine agrees_peek.bind fun found => ?_
  cases found <;> exact .throw _

theorem agrees_expect (token : Token) (description : String) :
    Agrees id scope (expect token description) (expect token description) := by
  refine agrees_peek.bind fun found => ?_
  cases found with
  | none => exact .throw _
  | some spanned =>
    by_cases hagrees : spanned.token.agrees token
    · simp only [hagrees, if_true]
      exact agrees_advance
    · simp only [hagrees]
      exact .throw _

theorem agrees_toSingle (parsed : Parsed) :
    Agrees id scope (toSingle parsed) (toSingle parsed) := by
  cases parsed with
  | single e => exact .pure e
  | group items comma => exact .throw _

theorem agrees_required (h : Agrees id scope p q) (description : String) :
    Agrees id scope (required description p) (required description q) := by
  refine h.bind fun found => ?_
  cases found with
  | none => exact agrees_missing _
  | some e => exact .pure e

theorem agrees_complete (h : Agrees id scope p q) :
    Agrees id scope (complete p) (complete q) := by
  refine h.bind fun found => ?_
  cases found with
  | none => exact agrees_peek.bind fun next => by cases next <;> exact .throw _
  | some e =>
    refine agrees_peek.bind fun next => ?_
    cases next with
    | none => exact .pure e
    | some spanned => exact .throw _

theorem agrees_operand (op : UnaryOp) {p : TreeParse (Option Parsed)} {q : Parse (Option Parsed)}
    (h : Agrees id scope p q) : Agrees id scope (operand op p) (operand op q) := by
  refine h.deeper.bind fun found => ?_
  cases found with
  | none => exact agrees_missing _
  | some parsed => exact (agrees_toSingle parsed).bind fun e => .pure _

theorem agrees_conditional (h : Agrees id scope p q) :
    Agrees id scope (conditional p) (conditional q) := by
  refine (agrees_required h _).bind fun condition => (agrees_expect _ _).bind fun _ => ?_
  refine (agrees_required h _).bind fun yes => (agrees_expect _ _).bind fun _ => ?_
  exact (agrees_required h _).bind fun no => .pure _

theorem agrees_range (h : Agrees id scope p q) (items : List Expr) :
    Agrees id scope (range items p) (range items q) := by
  refine h.bind fun stop => (agrees_expect _ _).bind fun _ => ?_
  rcases items with _ | ⟨first, _ | ⟨second, _ | ⟨third, more⟩⟩⟩
  · exact .throw _
  · exact .pure _
  · exact .pure _
  · exact .throw _

/-- What stands in parentheses is there once they are closed. -/
theorem agrees_closing {α : Type} (a : α) :
    Agrees id scope (do let _ ← expect .rightParen "')'"; return a)
      (do let _ ← expect .rightParen "')'"; return a) :=
  (agrees_expect _ _).bind fun _ => .pure a

end Parts

/-! ## 5. Lambdas

The scope of a lambda changes while its parameters are read, so a reader of parameters extends the
tree from before that scope was made, and not the tree that it started with. -/

/-- The readers of parameters end alike.  All scopes of `base` are there unchanged, and where the
readers return, the scope `inner` stands for the inside of the lambda. -/
inductive Declares (base : ScopeTree) (inner : Nat) (scope : Scope) :
    EStateM.Result ParseError Workplace (List String) →
      EStateM.Result ParseError TokenStream (List String) → Prop where
  | ok {names : List String} {s : TokenStream} {tree : ScopeTree} (h : base.Extends tree)
    (hinner : tree.Hosts inner (scope.inside names)) :
      Declares base inner scope (.ok names ⟨s, tree⟩) (.ok names s)
  | error {e : ParseError} {s : TokenStream} {tree : ScopeTree} (h : base.Extends tree) :
    Declares base inner scope (.error e ⟨s, tree⟩) (.error e s)

section Lambda

variable {base : ScopeTree} {inner : Nat} {scope : Scope}

/-- A step on the stream before those that read on. -/
theorem declares_stepping {α : Type} {t : Workplace} (h : base.Extends t.scopes) (q : Parse α)
    {f : α → TreeParse (List String)} {g : α → Parse (List String)}
    (hf : ∀ a s, Declares base inner scope (f a ⟨s, t.scopes⟩) (g a s)) :
    Declares base inner scope ((onStream q >>= f) t) ((q >>= g) t.stream) := by
  have hp : (onStream q >>= f) t = EStateM.bind (onStream q) f t := rfl
  have hq : (q >>= g) t.stream = EStateM.bind q g t.stream := rfl
  rw [hp, hq]
  unfold EStateM.bind onStream
  cases q t.stream with
  | ok a s => exact hf a s
  | error e s => exact .error h

theorem declares_missing {t : Workplace} (h : base.Extends t.scopes) (description : String) :
    Declares base inner scope (missing description t) (missing description t.stream) := by
  refine declares_stepping h TokenStream.peek fun found s => ?_
  cases found <;> exact .error h

/-- The parameters of a lambda are bound in its scope, each as soon as it is read. -/
theorem declares_parameters (fuel : Nat) (names : List String) (t : Workplace)
    (h : base.Extends t.scopes)
    (hnew : base.nodes.size ≤ inner) (hinner : t.scopes.Hosts inner (scope.inside names.reverse)) :
    Declares base inner scope (parameters inner (scope.depth + 1) fuel names t)
      (parameters scope (scope.depth + 1) fuel names t.stream) := by
  induction fuel generalizing names t with
  | zero => exact .error h
  | succ fuel ih =>
    rw [parameters, parameters]
    refine declares_stepping h TokenStream.peek fun found s => ?_
    rcases found with _ | ⟨token, location⟩
    · exact declares_missing (t := ⟨s, _⟩) h _
    cases token with
    | identifier name =>
      have hdefine := h.define hnew name (.argument ⟨scope.depth + 1, names.length, name⟩)
      exact declares_stepping (t := ⟨s, _⟩) hdefine TokenStream.advance fun _ s' =>
        ih (name :: names) ⟨s', _⟩ hdefine (hinner.bindParameter name)
    | arrow =>
      by_cases hempty : names.isEmpty
      · simp only [hempty, if_true]
        exact .error h
      · simp only [hempty]
        exact declares_stepping (t := ⟨s, _⟩) h TokenStream.advance fun _ s' => .ok h hinner
    | _ => exact declares_missing (t := ⟨s, _⟩) h _

/-- A lambda's body is read where its parameters are bound. -/
theorem agrees_lambda {id : Nat} (fuel : Nat) {p : Nat → TreeParse (Option Expr)}
    {q : Scope → Parse (Option Expr)} (h : ∀ id scope, Agrees id scope (p id) (q scope)) :
    Agrees id scope
      (do
        let ⟨inner, depth⟩ ← Reading.enterLambda id
        let names ← parameters inner depth fuel []
        let body ← required "a lambda body" (p (Reading.inside Workplace inner names))
        return some (Parsed.single (.lambda depth names body)))
      (do
        let ⟨inner, depth⟩ ← Reading.enterLambda scope
        let names ← parameters inner depth fuel []
        let body ← required "a lambda body" (q (Reading.inside TokenStream inner names))
        return some (Parsed.single (.lambda depth names body))) := by
  intro t ht
  have hinner := ht.addChild
  have hdepth : ((t.scopes.addChild id).2.view t.scopes.nodes.size).depth = scope.depth + 1 := by
    rw [hinner.view_eq]
    rfl
  have hread := declares_parameters fuel [] ⟨t.stream, (t.scopes.addChild id).2⟩ ht.extends_addChild
    (Nat.le_refl _) hinner
  have hrun : (enterLambda id >>= fun made => parameters made.1 made.2 fuel [] >>= fun names =>
      required "a lambda body" (p made.1) >>= fun body =>
        pure (some (Parsed.single (.lambda made.2 names body)))) t =
      EStateM.bind (parameters t.scopes.nodes.size (scope.depth + 1) fuel []) (fun names =>
        required "a lambda body" (p t.scopes.nodes.size) >>= fun body =>
          pure (some (Parsed.single (.lambda (scope.depth + 1) names body))))
        ⟨t.stream, (t.scopes.addChild id).2⟩ := by
    rw [← hdepth]
    rfl
  refine Eq.symm hrun ▸ ?_
  change Spares t.scopes _
    (EStateM.bind (parameters scope (scope.depth + 1) fuel []) _ t.stream)
  unfold EStateM.bind
  generalize (parameters t.scopes.nodes.size _ fuel [] : TreeParse (List String)) _ = r at hread
  generalize (parameters scope _ fuel [] : Parse (List String)) _ = r' at hread
  cases hread with
  | error hextends => exact .error hextends
  | @ok names s tree hextends hinner =>
    have hrequired := agrees_required (h t.scopes.nodes.size (scope.inside names)) "a lambda body"
    have hbody := hrequired.bind fun body =>
      Agrees.pure (some (Parsed.single (.lambda (scope.depth + 1) names body)))
    exact hextends.spares (hbody ⟨s, tree⟩ hinner)

end Lambda

/-! ## 6. The readers -/

/-- The readers of the tree and the readers of the scope agree, with so much fuel. -/
structure AgreesAt (fuel : Nat) : Prop where
  expression : ∀ id scope least,
    Agrees id scope (Reader.expression fuel id least) (Reader.expression fuel scope least)
  extend : ∀ id scope least left,
    Agrees id scope (Reader.extend fuel id least left) (Reader.extend fuel scope least left)
  value : ∀ id scope, Agrees id scope (Reader.value fuel id) (Reader.value fuel scope)
  inParens : ∀ id scope, Agrees id scope (Reader.inParens fuel id) (Reader.inParens fuel scope)
  group : ∀ id scope items,
    Agrees id scope (Reader.group fuel id items) (Reader.group fuel scope items)
  elements : ∀ id scope items,
    Agrees id scope (Reader.elements fuel id items) (Reader.elements fuel scope items)
  fragments : ∀ id scope location pieces,
    Agrees id scope (Reader.fragments fuel id location pieces)
      (Reader.fragments fuel scope location pieces)

section Readers

variable {fuel : Nat} (ih : AgreesAt fuel) (id : Nat) (scope : Scope)
include ih

theorem AgreesAt.required (least : Nat) (description : String) :
    Agrees id scope (Reader.required description (Reader.expression fuel id least))
      (Reader.required description (Reader.expression fuel scope least)) :=
  agrees_required (ih.expression id scope least) description

theorem AgreesAt.expression_succ (least : Nat) :
    Agrees id scope (Reader.expression (fuel + 1) id least)
      (Reader.expression (fuel + 1) scope least) := by
  rw [Reader.expression, Reader.expression]
  refine Agrees.deeper ((ih.value id scope).bind fun found => ?_)
  cases found with
  | none => exact .pure none
  | some parsed =>
    refine (agrees_toSingle parsed).bind fun first => ?_
    exact (ih.extend id scope least first).bind fun e => .pure (some e)

theorem AgreesAt.extend_succ (least : Nat) (left : Expr) :
    Agrees id scope (Reader.extend (fuel + 1) id least left)
      (Reader.extend (fuel + 1) scope least left) := by
  rw [Reader.extend, Reader.extend]
  refine agrees_peekToken.bind fun next => ?_
  rcases next with _ | token
  · exact .pure left
  cases token with
  | operator op =>
    dsimp only
    by_cases hweak : op.precedence < least
    · simp only [hweak, if_true]
      exact .pure left
    · simp only [hweak, if_false]
      refine agrees_advance.bind fun _ => ?_
      have hbinary := (ih.required id scope op.rightPrecedence "an operand").bind fun right =>
        ih.extend id scope least (.binary op left right)
      -- only at the lowest strength does the reader look for a closing parenthesis
      by_cases hlowest : least = Precedence.lowest
      · simp only [hlowest, if_true]
        refine agrees_peekToken.bind fun closing => ?_
        by_cases hparen : closing = some .rightParen
        · simp only [hparen, if_true]
          exact .pure _
        · simp only [hparen, if_false]
          exact hlowest ▸ hbinary
      · simp only [hlowest, if_false]
        exact hbinary
  | dollar =>
    dsimp only
    by_cases hlowest : least = Precedence.lowest
    · simp only [hlowest, ne_eq, not_true_eq_false, if_false]
      refine agrees_advance.bind fun _ => ?_
      exact (ih.required id scope _ _).bind fun argument => ih.extend id scope _ _
    · simp only [hlowest, ne_eq, not_false_eq_true, if_true]
      exact .pure left
  | _ =>
    -- any other token may start an argument
    refine (ih.value id scope).bind fun found => ?_
    cases found with
    | none => exact .pure left
    | some parsed => exact ih.extend id scope least _

theorem AgreesAt.value_succ :
    Agrees id scope (Reader.value (fuel + 1) id) (Reader.value (fuel + 1) scope) := by
  rw [Reader.value, Reader.value]
  refine agrees_peekToken.bind fun next => ?_
  rcases next with _ | token
  · exact .pure none
  have hoperand : ∀ op : UnaryOp, Agrees id scope
      (do return some (Parsed.single (← operand op (Reader.value fuel id))))
      (do return some (Parsed.single (← Reader.operand op (Reader.value fuel scope)))) :=
    fun op => (agrees_operand op (ih.value id scope)).bind fun e => .pure _
  cases token with
  | integer | decimal | bool | null | str => exact agrees_advance.bind fun _ => .pure _
  | template body =>
    refine agrees_advance.bind fun spanned => ?_
    exact (ih.fragments id scope spanned.location _).bind fun parts => .pure _
  | identifier name =>
    refine agrees_advance.bind fun spanned => ?_
    exact (Agrees.resolve name spanned.location).bind fun e => .pure _
  | bang => exact agrees_advance.bind fun _ => hoperand .not
  | operator op =>
    cases op with
    | sub => exact agrees_advance.bind fun _ => hoperand .negate
    | _ => exact .pure none
  | leftParen =>
    exact agrees_advance.bind fun _ => (ih.inParens id scope).bind fun parsed => .pure _
  | leftBracket =>
    refine agrees_advance.bind fun _ => agrees_peekToken.bind fun closing => ?_
    by_cases hempty : closing = some .rightBracket
    · simp only [hempty, if_true]
      exact agrees_advance.bind fun _ => .pure _
    · simp only [hempty, if_false]
      exact (ih.elements id scope []).bind fun e => .pure _
  | backslash =>
    refine agrees_advance.bind fun _ => ?_
    exact agrees_lambda fuel fun id scope => ih.expression id scope Precedence.lowest
  | ifWord =>
    refine agrees_advance.bind fun _ => ?_
    exact (agrees_conditional (ih.expression id scope Precedence.lowest)).bind fun e => .pure _
  | _ => exact .pure none

theorem AgreesAt.inParens_succ :
    Agrees id scope (Reader.inParens (fuel + 1) id) (Reader.inParens (fuel + 1) scope) := by
  rw [Reader.inParens, Reader.inParens]
  refine agrees_peekToken.bind fun next => ?_
  rcases next with _ | token
  · exact .throw _
  cases token with
  | operator op =>
    cases op with
    | sub =>
      refine agrees_advance.bind fun _ =>
        (agrees_operand .negate (ih.value id scope)).bind fun negated => ?_
      exact (ih.extend id scope _ negated).bind fun e => agrees_closing _
    | _ =>
      exact agrees_advance.bind fun _ => (ih.required id scope _ _).bind fun right =>
        agrees_closing _
  | _ =>
    -- anything else starts an expression, which may be the first of a group
    refine (ih.required id scope _ _).bind fun first => agrees_peek.bind fun found => ?_
    rcases found with _ | ⟨next, place⟩
    · exact agrees_closing _
    cases next with
    | comma => exact (ih.group id scope [first]).bind fun items => .pure _
    | _ => exact agrees_closing _

theorem AgreesAt.group_succ (items : List Expr) :
    Agrees id scope (Reader.group (fuel + 1) id items)
      (Reader.group (fuel + 1) scope items) := by
  rw [Reader.group, Reader.group]
  refine agrees_peekToken.bind fun next => ?_
  rcases next with _ | token
  · exact agrees_closing _
  cases token with
  | comma =>
    refine agrees_advance.bind fun _ => ?_
    exact (ih.required id scope _ _).bind fun item => ih.group id scope _
  | _ => exact agrees_closing _

theorem AgreesAt.elements_succ (items : List Expr) :
    Agrees id scope (Reader.elements (fuel + 1) id items)
      (Reader.elements (fuel + 1) scope items) := by
  rw [Reader.elements, Reader.elements]
  refine (ih.required id scope _ _).bind fun item => agrees_peek.bind fun found => ?_
  rcases found with _ | ⟨token, location⟩
  · exact agrees_missing _
  cases token with
  | comma => exact agrees_advance.bind fun _ => ih.elements id scope _
  | rightBracket => exact agrees_advance.bind fun _ => .pure _
  | dots =>
    dsimp only
    by_cases hmany : (item :: items).length > 2
    · simp only [hmany, if_true]
      exact (Agrees.throw _).bind fun _ => agrees_advance.bind fun _ =>
        agrees_range (ih.expression id scope _) _
    · simp only [hmany, if_false]
      exact agrees_advance.bind fun _ => agrees_range (ih.expression id scope _) _
  | _ => exact agrees_missing _

theorem AgreesAt.fragments_succ (location : Location) (pieces : List Piece) :
    Agrees id scope (Reader.fragments (fuel + 1) id location pieces)
      (Reader.fragments (fuel + 1) scope location pieces) := by
  rw [Reader.fragments, Reader.fragments]
  refine Agrees.mapM pieces fun piece _ => ?_
  cases piece with
  | text text => exact .pure _
  | name name => exact (Agrees.resolve name location).map Fragment.embedded
  | source source =>
    have hinner := agrees_complete (ih.expression id scope Precedence.lowest)
    exact (hinner.embedded source location).map Fragment.embedded
  | unclosed => exact .throw _

end Readers

/-- **Every reader of the tree agrees with the reader of the scope.** -/
theorem agreesAt (fuel : Nat) : AgreesAt fuel := by
  induction fuel with
  | zero =>
    constructor
    all_goals
      intros
      simp only [expression, extend, value, inParens, group, elements, fragments]
      exact .throw _
  | succ fuel ih =>
    exact ⟨ih.expression_succ, ih.extend_succ, ih.value_succ, ih.inParens_succ, ih.group_succ,
      ih.elements_succ, ih.fragments_succ⟩

/-- **Reading a text in a member of a tree gives what reading it in the member's scope gives, and
all scopes that were there are as they were**, however the reading ends. -/
theorem read_spares {tree : ScopeTree} (h : tree.Ordered) {id : Nat} (hid : id < tree.nodes.size)
    (source : String) :
    (tree.read id source).1 = parseIn (tree.view id) source ∧
    tree.Extends (tree.read id source).2 := by
  have hagrees := agrees_complete ((agreesAt (readingFuel source)).expression id (tree.view id)
    Precedence.lowest) ⟨.ofSource source, tree⟩ ⟨h, hid, rfl⟩
  unfold read parseIn
  change Spares tree _ (complete _ (TokenStream.ofSource source)) at hagrees
  generalize (complete _ : TreeParse Expr) _ = r at hagrees
  generalize (complete _ : Parse Expr) _ = r' at hagrees
  cases hagrees with
  | ok hextends => exact ⟨rfl, hextends⟩
  | error hextends => exact ⟨rfl, hextends⟩

end ScopeTree

end LazyExpr
