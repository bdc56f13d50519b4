import LazyExpr.Proofs.Expr.Erasure
import LazyExpr.Proofs.Expr.Readable

/-!
# Slots that stand where they should

A parameter slot says where its argument is found: in the innermost call of a given depth, at a
given position.  A reader of the text would say: the innermost parameter of that name, and of two
such parameters of one lambda the later.  This module says when the two agree (`Resolves`), carries
it over to whole expressions and to the values made of them (`Scoped`), and shows that reading a
text gives expressions for which they do.

Depths need not grow along a chain of calls.  A defined expression keeps the depths it was read with
wherever its name is used, so two calls of one depth may enclose each other.  What matters is that a
slot is never looked for behind a call of its own depth or of a smaller one.

* `Env.byName` — the argument that the name of a slot stands for.
* `Expr.displayByName?` — the text of a value, with captured arguments put where their names stand.
* `Scoped shape e` — every slot of `e` resolves under lambdas of these depths and parameters; what
  `e` has captured resolves in the environment it was captured with.
* `find_of_resolves` — **where a slot resolves, depth and position find what the name finds.**
* `scoped_of_parseIn` — **an expression that was read is scoped**, with any definitions around it.
-/

namespace LazyExpr

/-! ## 1. Arguments by name -/

/-- The bindings that a call pushes, the latest first. -/
def callBindings (parameters : List String) (arguments : List Expr) : Bindings :=
  (parameters.zip arguments).reverse

/-- The argument that the name of a slot stands for: the innermost binding, and of one call the
latest. -/
def Env.byName (slot : Slot) : Env → Option Expr
  | top => none
  | frame _ parameters arguments parent =>
    ((callBindings parameters arguments).lookup slot.name).or (parent.byName slot)

/-- The expression with its parts replaced, where these mean the same as the whole: the body of a
lambda, what was captured and slots are not among them. -/
def Expr.mapParts (f : Expr → Option Expr) (g : LazyList → Option LazyList) : Expr → Option Expr
  | .list l => (g l).map .list
  | .range start second stop => do
    return .range (← f start) (← second.mapM f) (← stop.mapM f)
  | .call e a => do return .call (← f e) (← f a)
  | .applied target arguments => do return .applied (← f target) (← arguments.mapM f)
  | .unary op e => (f e).map (.unary op)
  | .binary op left right => do return .binary op (← f left) (← f right)
  | .leftSection op left => (f left).map (.leftSection op)
  | .rightSection op right => (f right).map (.rightSection op)
  | .conditional condition yes no => do return .conditional (← f condition) (← f yes) (← f no)
  | .interpolated fragments => (fragments.mapM (inlineFragment f)).map .interpolated
  | e => some e

/-- The list with its parts replaced; for elements of a literal these depend on what it has
captured. -/
def LazyList.mapParts (f : Expr → Option Expr) (elements : Env → Expr → Option Expr)
    (g : LazyList → Option LazyList) : LazyList → Option LazyList
  | .items xs captured _ => (xs.mapM (elements captured)).map (.items · .top none)
  | .progression p => some (.progression p)
  | .prepend head tail => do return .prepend (← f head) (← g tail)
  | .concat first second => do return .concat (← g first) (← g second)
  | .mapped e source => do return .mapped (← f e) (← g source)
  | .filtered e source => do return .filtered (← f e) (← g source)
  | .dropped count source => (g source).map (.dropped count)

mutual

/-- The expression with the arguments of `env` in place of its slots, found by name.  The names in
`hidden` are parameters of lambdas that are written around the expression: what they stand for is no
argument. -/
def Expr.inlineByName : (fuel : Nat) → (hidden : List String) → (env : Env) → Expr → Option Expr
  | 0, _, _, _ => none
  | fuel + 1, hidden, env, e =>
    match e with
    | .lambda depth parameters body =>
      (body.inlineByName fuel (parameters ++ hidden) env).map (.lambda depth parameters)
    | .closure depth parameters body captured =>
      (body.inlineByName fuel parameters captured).map (.lambda depth parameters)
    | .argument slot =>
      if slot.name ∈ hidden then some e
      else (env.byName slot).elim (some e) (Expr.inlineByName fuel hidden env)
    | e => e.mapParts (Expr.inlineByName fuel hidden env) (LazyList.inlineByName fuel hidden env)

/-- The list with the arguments in place of its slots, found by name.  Around the elements of a list
that has captured an environment no lambda is written. -/
def LazyList.inlineByName :
    (fuel : Nat) → (hidden : List String) → (env : Env) → LazyList → Option LazyList
  | 0, _, _, _ => none
  | fuel + 1, hidden, env, l =>
    l.mapParts (Expr.inlineByName fuel hidden env)
      (fun captured =>
        match captured with
        | .top => Expr.inlineByName fuel hidden env
        | .frame .. => Expr.inlineByName fuel [] captured)
      (LazyList.inlineByName fuel hidden env)

end

/-- The text of a value, with captured arguments put where their names stand. -/
def Expr.displayByName? (fuel : Nat) (e : Expr) : Option String :=
  (e.inlineByName fuel [] .top).map Expr.source

/-- The last position of a name among parameters. -/
def lastIndex? (name : String) (parameters : List String) : Option Nat :=
  parameters.zipIdx.reverse.lookup name

theorem lookup_map_snd {α β : Type} (f : String → α → β) (name : String) :
    ∀ pairs : List (String × α),
      (pairs.map fun p => (p.1, f p.1 p.2)).lookup name = (pairs.lookup name).map (f name)
  | [] => rfl
  | (key, a) :: pairs => by
    rw [List.map_cons, List.lookup_cons, List.lookup_cons, lookup_map_snd f name pairs]
    cases hkey : name == key with
    | true => rw [eq_of_beq hkey]; rfl
    | false => rfl

theorem mem_of_lastIndex? {name : String} {parameters : List String} {index : Nat}
    (h : lastIndex? name parameters = some index) : parameters[index]? = some name := by
  obtain ⟨before, behind, hsplit, -⟩ := List.lookup_eq_some_iff.mp h
  have hmem : (name, index) ∈ parameters.zipIdx := by
    rw [← List.mem_reverse, hsplit]
    simp
  exact List.mk_mem_zipIdx_iff_getElem?.mp hmem

/-- The bindings of a lambda's parameters bind a name to its last position. -/
theorem lookup_parameterBindings_eq (depth : Nat) (parameters : List String) (name : String) :
    (Scope.parameterBindings depth parameters).lookup name =
      (lastIndex? name parameters).map fun index => .argument ⟨depth, index, name⟩ := by
  have h : Scope.parameterBindings depth parameters =
      parameters.zipIdx.reverse.map fun p => (p.1, .argument ⟨depth, p.2, p.1⟩) := by
    rw [Scope.parameterBindings, List.mapIdx_eq_zipIdx_map, List.map_reverse]
  rw [h, lookup_map_snd fun name index => Expr.argument ⟨depth, index, name⟩]
  rfl

/-- The bindings of a call bind a name to the argument in its last position. -/
theorem lookup_callBindings {parameters : List String} {arguments : List Expr}
    (hlen : parameters.length ≤ arguments.length) (name : String) :
    (callBindings parameters arguments).lookup name =
      (lastIndex? name parameters).bind (arguments[·]?) := by
  have h : parameters.zip arguments =
      parameters.zipIdx.map fun p => (p.1, (arguments[p.2]?).getD .null) := by
    refine List.ext_getElem (by simp [hlen]) fun i hi hi' => ?_
    have hlt : i < arguments.length := by simp at hi; omega
    simp [List.getElem?_eq_getElem hlt]
  rw [callBindings, h, ← List.map_reverse,
    lookup_map_snd fun _ index => (arguments[index]?).getD Expr.null]
  show (lastIndex? name parameters).map _ = _
  cases hi : lastIndex? name parameters with
  | none => rfl
  | some index =>
    have hlt : index < arguments.length :=
      Nat.lt_of_lt_of_le (List.getElem?_eq_some_iff.mp (mem_of_lastIndex? hi)).1 hlen
    simp [List.getElem?_eq_getElem hlt]

/-! ## 2. Where slots resolve -/

/-- The depths and parameters of the lambdas around an expression, the innermost first. -/
abbrev Shape := List (Nat × List String)

/-- The lambdas whose calls make up an environment. -/
def Env.shape : Env → Shape
  | top => []
  | frame depth parameters _ parent => (depth, parameters) :: parent.shape

/-- Depth and position of a slot say what its name says: it belongs to the innermost lambda with a
parameter of its name, and no lambda within that one stops the search. -/
inductive Resolves : Shape → Slot → Prop where
  | here {shape : Shape} {slot : Slot} {parameters : List String}
    (h : lastIndex? slot.name parameters = some slot.index) :
    Resolves ((slot.depth, parameters) :: shape) slot
  | outer {shape : Shape} {slot : Slot} {depth : Nat} {parameters : List String}
    (hname : lastIndex? slot.name parameters = none) (hdepth : slot.depth < depth)
    (h : Resolves shape slot) : Resolves ((depth, parameters) :: shape) slot

/-- Lambdas around the outermost one change nothing. -/
theorem Resolves.append {shape : Shape} {slot : Slot} (h : Resolves shape slot) (around : Shape) :
    Resolves (shape ++ around) slot := by
  induction h with
  | here h => exact .here h
  | outer hname hdepth _ ih => exact .outer hname hdepth ih

/-! ## 3. Scoped expressions and values -/

mutual

/-- Every slot resolves: those of the expression itself under the lambdas of `shape`, those of what
was captured in the environment it was captured with. A value is scoped under no lambdas at all. -/
inductive Scoped : Shape → Expr → Prop where
  | atom {shape : Shape} {e : Expr} (h : e.isAtom = true) : Scoped shape e
  | function {shape : Shape} (f : Function) : Scoped shape (.function f)
  | range {shape : Shape} {start : Expr} {second stop : Option Expr} (hstart : Scoped shape start)
    (hsecond : ∀ e ∈ second, Scoped shape e) (hstop : ∀ e ∈ stop, Scoped shape e) :
    Scoped shape (.range start second stop)
  | call {shape : Shape} {f a : Expr} (hf : Scoped shape f) (ha : Scoped shape a) :
    Scoped shape (.call f a)
  | lambda {shape : Shape} {depth : Nat} {parameters : List String} {body : Expr}
    (h : Scoped ((depth, parameters) :: shape) body) : Scoped shape (.lambda depth parameters body)
  | argument {shape : Shape} {slot : Slot} (h : Resolves shape slot) : Scoped shape (.argument slot)
  | unary {shape : Shape} (op : UnaryOp) {e : Expr} (h : Scoped shape e) :
    Scoped shape (.unary op e)
  | binary {shape : Shape} (op : BinaryOp) {l r : Expr} (hl : Scoped shape l)
    (hr : Scoped shape r) :
    Scoped shape (.binary op l r)
  | leftSection {shape : Shape} (op : BinaryOp) {e : Expr} (h : Scoped shape e) :
    Scoped shape (.leftSection op e)
  | rightSection {shape : Shape} (op : BinaryOp) {e : Expr} (h : Scoped shape e) :
    Scoped shape (.rightSection op e)
  | conditional {shape : Shape} {c y n : Expr} (hc : Scoped shape c) (hy : Scoped shape y)
    (hn : Scoped shape n) : Scoped shape (.conditional c y n)
  | interpolated {shape : Shape} {fragments : List Fragment}
    (h : ∀ e, .embedded e ∈ fragments → Scoped shape e) : Scoped shape (.interpolated fragments)
  | literal {shape : Shape} {elements : List Expr} (cell : Option Nat)
    (h : ∀ e ∈ elements, Scoped shape e) : Scoped shape (.list (.items elements .top cell))
  | captured {shape : Shape} {elements : List Expr} {env : Env} (cell : Option Nat)
    (hframe : env ≠ .top) (henv : ScopedEnv env) (h : ∀ e ∈ elements, Scoped env.shape e) :
    Scoped shape (.list (.items elements env cell))
  | closure {shape : Shape} {depth : Nat} {parameters : List String} {body : Expr} {env : Env}
    (henv : ScopedEnv env) (h : Scoped ((depth, parameters) :: env.shape) body) :
    Scoped shape (.closure depth parameters body env)
  | applied {shape : Shape} {target : Expr} {arguments : List Expr} (ht : Scoped [] target)
    (ha : ∀ e ∈ arguments, Scoped [] e) : Scoped shape (.applied target arguments)
  | progression {shape : Shape} (range : Progression) : Scoped shape (.list (.progression range))
  | prepend {shape : Shape} {head : Expr} {tail : LazyList} (hh : Scoped [] head)
    (ht : Scoped [] (.list tail)) : Scoped shape (.list (.prepend head tail))
  | concat {shape : Shape} {first second : LazyList} (ha : Scoped [] (.list first))
    (hb : Scoped [] (.list second)) : Scoped shape (.list (.concat first second))
  | mapped {shape : Shape} {f : Expr} {source : LazyList} (hf : Scoped [] f)
    (hs : Scoped [] (.list source)) : Scoped shape (.list (.mapped f source))
  | filtered {shape : Shape} {p : Expr} {source : LazyList} (hp : Scoped [] p)
    (hs : Scoped [] (.list source)) : Scoped shape (.list (.filtered p source))
  | dropped {shape : Shape} (count : Nat) {source : LazyList} (hs : Scoped [] (.list source)) :
    Scoped shape (.list (.dropped count source))

/-- Every call has an argument for each parameter, and the arguments are scoped values. -/
inductive ScopedEnv : Env → Prop where
  | top : ScopedEnv .top
  | frame {depth : Nat} {parameters : List String} {arguments : List Expr} {parent : Env}
    (hlen : parameters.length ≤ arguments.length) (ha : ∀ e ∈ arguments, Scoped [] e)
    (hparent : ScopedEnv parent) : ScopedEnv (.frame depth parameters arguments parent)

end

/-- Lambdas around an expression change nothing for it. -/
theorem Scoped.append {shape : Shape} {e : Expr} (around : Shape) :
    Scoped shape e → Scoped (shape ++ around) e
  | .atom h => .atom h
  | .function f => .function f
  | .range hstart hsecond hstop =>
    .range (hstart.append around) (fun e he => (hsecond e he).append around)
      fun e he => (hstop e he).append around
  | .call hf ha => .call (hf.append around) (ha.append around)
  | .lambda h => .lambda (h.append around)
  | .argument h => .argument (h.append around)
  | .unary op h => .unary op (h.append around)
  | .binary op hl hr => .binary op (hl.append around) (hr.append around)
  | .leftSection op h => .leftSection op (h.append around)
  | .rightSection op h => .rightSection op (h.append around)
  | .conditional hc hy hn => .conditional (hc.append around) (hy.append around) (hn.append around)
  | .interpolated h => .interpolated fun e he => (h e he).append around
  | .literal cell h => .literal cell fun e he => (h e he).append around
  | .captured cell hframe henv h => .captured cell hframe henv h
  | .closure henv h => .closure henv h
  | .applied ht ha => .applied ht ha
  | .progression r => .progression r
  | .prepend hh ht => .prepend hh ht
  | .concat ha hb => .concat ha hb
  | .mapped hf hs => .mapped hf hs
  | .filtered hp hs => .filtered hp hs
  | .dropped count hs => .dropped count hs

/-- A position that the name of a slot has in a call holds the argument of both. -/
theorem find_here {slot : Slot} {parameters : List String} {arguments : List Expr} {parent : Env}
    (hlen : parameters.length ≤ arguments.length) (ha : ∀ a ∈ arguments, Scoped [] a)
    (h : lastIndex? slot.name parameters = some slot.index) :
    ∃ v, (Env.frame slot.depth parameters arguments parent).lookup slot = some v ∧
      (Env.frame slot.depth parameters arguments parent).byName slot = some v ∧ Scoped [] v := by
  have hlt : slot.index < arguments.length :=
    Nat.lt_of_lt_of_le (List.getElem?_eq_some_iff.mp (mem_of_lastIndex? h)).1 hlen
  refine ⟨arguments[slot.index], ?_, ?_, ha _ (List.getElem_mem hlt)⟩
  · rw [Env.lookup, if_pos rfl, List.getElem?_eq_getElem hlt]
  · rw [Env.byName, lookup_callBindings hlen, h]
    simp [List.getElem?_eq_getElem hlt]

/-- A call without a parameter of that name is passed over. -/
theorem find_outer {slot : Slot} {depth : Nat} {parameters : List String} {arguments : List Expr}
    {parent : Env} (hlen : parameters.length ≤ arguments.length)
    (hname : lastIndex? slot.name parameters = none) (hdepth : slot.depth < depth)
    (h : ∃ v, parent.lookup slot = some v ∧ parent.byName slot = some v ∧ Scoped [] v) :
    ∃ v, (Env.frame depth parameters arguments parent).lookup slot = some v ∧
      (Env.frame depth parameters arguments parent).byName slot = some v ∧ Scoped [] v := by
  obtain ⟨v, hv, hv', hs⟩ := h
  refine ⟨v, ?_, ?_, hs⟩
  · rw [Env.lookup, if_neg (by omega), if_neg (by omega), hv]
  · rw [Env.byName, lookup_callBindings hlen, hname, hv']
    rfl

/-- **Where a slot resolves, depth and position find what the name finds**, and that is a scoped
value. -/
theorem find_of_resolves {slot : Slot} : ∀ {env : Env}, ScopedEnv env → Resolves env.shape slot →
    ∃ v, env.lookup slot = some v ∧ env.byName slot = some v ∧ Scoped [] v
  | .frame .., .frame hlen ha _, .here h => find_here hlen ha h
  | .frame .., .frame hlen _ hparent, .outer hname hdepth h =>
    find_outer hlen hname hdepth (find_of_resolves hparent h)

/-! ## 4. What is read is scoped -/

/-- The scopes that definitions build: the standard one, and each one with a name for an expression
that was read in it. -/
inductive Scope.Defined : Scope → Prop where
  | standard : Defined .standard
  | define {scope : Scope} {source : String} {e : Expr} (name : String) (h : Defined scope)
    (he : parseIn scope source = .ok e) : Defined (scope.define name e)

/-- A name stands for a closed expression, or for a parameter that resolves under these lambdas. -/
def Scope.Resolved (scope : Scope) (shape : Shape) : Prop :=
  ∀ name e, scope.lookup name = some e → Scoped [] e ∨
    ∃ slot : Slot, e = .argument slot ∧ slot.name = name ∧ slot.depth ≤ scope.depth ∧
      Resolves shape slot

theorem Scope.Resolved.inside {scope : Scope} {shape : Shape} (h : scope.Resolved shape)
    (names : List String) : (scope.inside names).Resolved ((scope.depth + 1, names) :: shape) := by
  intro name e hlookup
  rw [Scope.inside, Scope.lookup, lookup_parameterBindings_eq] at hlookup
  cases hindex : lastIndex? name names with
  | some index =>
    rw [hindex] at hlookup
    obtain rfl := Option.some.inj hlookup
    let slot : Slot := ⟨scope.depth + 1, index, name⟩
    exact .inr ⟨slot, rfl, rfl, Nat.le_refl _, @Resolves.here shape slot names hindex⟩
  | none =>
    rw [hindex] at hlookup
    rcases h name e hlookup with hclosed | ⟨slot, rfl, hname, hdepth, hslot⟩
    · exact .inl hclosed
    · refine .inr ⟨slot, rfl, hname, Nat.le_succ_of_le hdepth, ?_⟩
      exact .outer (by rw [hname]; exact hindex) (Nat.lt_succ_of_le hdepth) hslot

theorem scoped_of_readable {scope : Scope} {e : Expr} (h : Readable scope e) :
    ∀ {shape : Shape}, scope.Resolved shape → Scoped shape e := by
  induction h with
  | integer | decimal | bool | null | str => exact fun _ => .atom rfl
  | name hlookup =>
    intro shape hscope
    rcases hscope _ _ hlookup with hclosed | ⟨slot, rfl, -, -, hslot⟩
    · exact hclosed.append shape
    · exact .argument hslot
  | unary op _ ih => exact fun hscope => .unary op (ih hscope)
  | binary op _ _ ihl ihr => exact fun hscope => .binary op (ihl hscope) (ihr hscope)
  | leftSection op _ ih => exact fun hscope => .leftSection op (ih hscope)
  | rightSection _ _ ih => exact fun hscope => .rightSection _ (ih hscope)
  | call _ _ ihf iha => exact fun hscope => .call (ihf hscope) (iha hscope)
  | lambda _ _ _ ih => exact fun hscope => .lambda (ih (hscope.inside _))
  | conditional _ _ _ ihc ihy ihn =>
    exact fun hscope => .conditional (ihc hscope) (ihy hscope) (ihn hscope)
  | literal _ ih => exact fun hscope => .literal none fun e he => ih e he hscope
  | range _ _ _ ih ihsecond ihstop =>
    exact fun hscope => .range (ih hscope) (fun e he => ihsecond e he hscope)
      fun e he => ihstop e he hscope
  | interpolated _ _ ih => exact fun hscope => .interpolated fun e he => ih e he hscope

/-- Definitions are closed. -/
theorem Scope.Defined.closed {scope : Scope} (h : scope.Defined) {name : String} {e : Expr}
    (hlookup : scope.lookup name = some e) : Scoped [] e := by
  induction h generalizing name e with
  | standard =>
    obtain ⟨b, -, rfl⟩ := Scope.lookup_standard hlookup
    exact .function _
  | define new _ he ih =>
    rw [Scope.lookup_define] at hlookup
    split at hlookup
    · obtain rfl := Option.some.inj hlookup
      exact scoped_of_readable (readable_of_parseIn he) fun _ _ h => .inl (ih h)
    · exact ih hlookup

/-- **What is read is scoped**, whatever was defined before. -/
theorem scoped_of_parseIn {scope : Scope} (hscope : scope.Defined) {source : String} {e : Expr}
    (h : parseIn scope source = .ok e) : Scoped [] e :=
  scoped_of_readable (readable_of_parseIn h) fun _ _ h => .inl (hscope.closed h)

end LazyExpr
