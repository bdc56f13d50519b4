import LazyExpr.Proofs.Eval.Requests
import LazyExpr.Proofs.Expr.Readable
import LazyExpr.Session.Native

/-!
# What evaluation gives is a value

Expressions and values are of one type, so nothing in the type keeps an evaluation from giving a
call, a parameter slot, or a function that waits for no argument.  It gives none of these: its
results are
*canonical*.  A canonical function has collected some arguments less than it needs, so that one more
either leaves it waiting or is exactly the last one.  Functions are therefore called with as many
arguments as they take, and the branches of the evaluator for other numbers are never reached.

A closure holds an expression that is not a value, and so does a list whose elements were not asked
for yet; such a list has cells for their values, which a list in a text has not.  `WellFormed` says
what these have to be like in order that what becomes of them is canonical.

* `Canonical` — the forms of values, with all that they hold.
* `wellFormed_of_readable` — what was read from a text is well formed if what its names stand for
  is.
* `history_canonical` — **all that an application is ever given is canonical**, and every function
  is called with as many arguments as it takes.
-/

namespace LazyExpr

open Eval

/-! ## 1. Canonical values -/

/-- How many arguments a function takes that is not written in the language; `arities` says it of
those of the application. -/
def Code.arity (arities : Nat → Nat) : Code → Nat
  | .builtin b => b.arity
  | .foreign entry => arities entry

section Forms

variable (arities : Nat → Nat)

mutual

/-- A value in one of its forms, and all that it holds. -/
inductive Canonical : Expr → Prop where
  | atom {e : Expr} (h : e.isAtom = true) : Canonical e
  | list {l : LazyList} (h : CanonicalList l) : Canonical (.list l)
  | function {f : Function} (hpos : 0 < f.arity) (h : f.arity = f.code.arity arities) :
    Canonical (.function f)
  | closure {depth : Nat} {parameters : List String} {body : Expr} {env : Env}
    (hne : parameters ≠ []) (hbody : WellFormed body) (henv : CanonicalEnv env) :
    Canonical (.closure depth parameters body env)
  /-- A function or a closure that has some of its arguments, but not all of them. -/
  | applied {target : Expr} {received : List Expr} {k : Nat} (htarget : Canonical target)
    (hk : target.arity? = some k) (hne : received ≠ []) (hlt : received.length < k)
    (h : ∀ a ∈ received, Canonical a) : Canonical (.applied target received)
  | leftSection (op : BinaryOp) {left : Expr} (h : Canonical left) :
    Canonical (.leftSection op left)
  | rightSection (op : BinaryOp) {right : Expr} (h : Canonical right) :
    Canonical (.rightSection op right)

/-- A list that holds canonical values, besides the expressions of elements, for which it has
cells. -/
inductive CanonicalList : LazyList → Prop where
  | items {elements : List Expr} {env : Env} {cell : Option Nat}
    (hcell : elements = [] ∨ cell.isSome = true) (henv : CanonicalEnv env)
    (h : ∀ e ∈ elements, WellFormed e) : CanonicalList (.items elements env cell)
  | progression (range : Progression) : CanonicalList (.progression range)
  | prepend {head : Expr} {tail : LazyList} (hhead : Canonical head) (htail : CanonicalList tail) :
    CanonicalList (.prepend head tail)
  | concat {first second : LazyList} (hfirst : CanonicalList first)
    (hsecond : CanonicalList second) : CanonicalList (.concat first second)
  | mapped {f : Expr} {source : LazyList} (hf : Canonical f) (hsource : CanonicalList source) :
    CanonicalList (.mapped f source)
  | filtered {p : Expr} {source : LazyList} (hp : Canonical p) (hsource : CanonicalList source) :
    CanonicalList (.filtered p source)
  | dropped (count : Nat) {source : LazyList} (hsource : CanonicalList source) :
    CanonicalList (.dropped count source)

/-- Calls whose frames hold one canonical value for each parameter. -/
inductive CanonicalEnv : Env → Prop where
  | top : CanonicalEnv .top
  | frame (depth : Nat) {parameters : List String} {arguments : List Expr} {parent : Env}
    (hlen : arguments.length = parameters.length) (h : ∀ a ∈ arguments, Canonical a)
    (hparent : CanonicalEnv parent) : CanonicalEnv (.frame depth parameters arguments parent)

/-- An expression whose values are canonical: functions wait for as many arguments as they take,
lambdas have parameters, and values that occur in it are canonical. -/
inductive WellFormed : Expr → Prop where
  | value {v : Expr} (h : Canonical v) : WellFormed v
  /-- A function without parameters is called when it is evaluated. -/
  | constant {f : Function} (hzero : f.arity = 0) (h : f.arity = f.code.arity arities) :
    WellFormed (.function f)
  /-- A list without cells is given some when it is evaluated. -/
  | literal {elements : List Expr} {env : Env} (cell : Option Nat) (henv : CanonicalEnv env)
    (h : ∀ e ∈ elements, WellFormed e) : WellFormed (.list (.items elements env cell))
  | range {start : Expr} {second stop : Option Expr} (hstart : WellFormed start)
    (hsecond : ∀ e ∈ second, WellFormed e) (hstop : ∀ e ∈ stop, WellFormed e) :
    WellFormed (.range start second stop)
  | call {f a : Expr} (hf : WellFormed f) (ha : WellFormed a) : WellFormed (.call f a)
  | lambda (depth : Nat) {parameters : List String} {body : Expr} (hne : parameters ≠ [])
    (hbody : WellFormed body) : WellFormed (.lambda depth parameters body)
  | argument (slot : Slot) : WellFormed (.argument slot)
  | unary (op : UnaryOp) {e : Expr} (h : WellFormed e) : WellFormed (.unary op e)
  | binary (op : BinaryOp) {l r : Expr} (hl : WellFormed l) (hr : WellFormed r) :
    WellFormed (.binary op l r)
  | leftSection (op : BinaryOp) {e : Expr} (h : WellFormed e) : WellFormed (.leftSection op e)
  | rightSection (op : BinaryOp) {e : Expr} (h : WellFormed e) : WellFormed (.rightSection op e)
  | conditional {c y n : Expr} (hc : WellFormed c) (hy : WellFormed y) (hn : WellFormed n) :
    WellFormed (.conditional c y n)
  | interpolated {fragments : List Fragment} (h : ∀ e, .embedded e ∈ fragments → WellFormed e) :
    WellFormed (.interpolated fragments)

end

end Forms

section Facts

variable {arities : Nat → Nat}

theorem WellFormed.function {f : Function} (h : f.arity = f.code.arity arities) :
    WellFormed arities (.function f) := by
  cases hzero : f.arity with
  | zero => exact .constant hzero h
  | succ k => exact .value (.function (by omega) h)

/-- What an argument slot stands for is canonical. -/
theorem CanonicalEnv.lookup {env : Env} (h : CanonicalEnv arities env) {slot : Slot} {v : Expr}
    (hv : env.lookup slot = some v) : Canonical arities v := by
  fun_induction Env.lookup slot env with
  | case1 => cases hv
  | case2 =>
    cases h with
    | frame _ _ harguments => exact harguments v (List.mem_of_getElem? hv)
  | case3 => cases hv
  | case4 _ _ _ _ _ _ ih =>
    cases h with
    | frame _ _ _ hparent => exact ih hparent hv

theorem CanonicalEnv.orElse {own here : Env} (hown : CanonicalEnv arities own)
    (hhere : CanonicalEnv arities here) : CanonicalEnv arities (own.orElse here) := by
  cases own with
  | top => exact hhere
  | frame => exact hown

theorem Canonical.toList {l : LazyList} (h : Canonical arities (.list l)) :
    CanonicalList arities l := by
  cases h with
  | atom h => cases h
  | list h => exact h

/-- A canonical function or closure takes an argument. -/
theorem Canonical.arity_pos {target : Expr} (h : Canonical arities target) {k : Nat}
    (hk : target.arity? = some k) : 0 < k := by
  cases h with
  | atom h => cases target <;> simp_all [Expr.isAtom, Expr.arity?]
  | function hpos =>
    cases hk
    exact hpos
  | closure hne =>
    cases hk
    exact List.length_pos_iff.mpr hne
  | _ => cases hk

end Facts

/-! ## 2. Texts -/

theorem WellFormed.inside {arities : Nat → Nat} {scope : Scope}
    (hscope : ∀ name e, scope.lookup name = some e → WellFormed arities e) (names : List String) :
    ∀ name e, (scope.inside names).lookup name = some e → WellFormed arities e := by
  intro name e hlookup
  simp only [Scope.inside, Scope.lookup] at hlookup
  rcases Option.or_eq_some_iff.mp hlookup with hlookup | ⟨-, hlookup⟩
  · obtain ⟨index, -, rfl⟩ := Scope.lookup_parameterBindings hlookup
    exact .argument _
  · exact hscope name e hlookup

/-- **What was read from a text is well formed**, if what its names stand for is. -/
theorem wellFormed_of_readable {arities : Nat → Nat} {scope : Scope} {e : Expr}
    (h : Readable scope e)
    (hscope : ∀ name e, scope.lookup name = some e → WellFormed arities e) :
    WellFormed arities e := by
  induction h with
  | integer | decimal | bool | null | str => exact .value (.atom rfl)
  | name hlookup => exact hscope _ _ hlookup
  | unary op _ ih => exact .unary op (ih hscope)
  | binary op _ _ ihl ihr => exact .binary op (ihl hscope) (ihr hscope)
  | leftSection op _ ih => exact .leftSection op (ih hscope)
  | rightSection _ _ ih => exact .rightSection _ (ih hscope)
  | call _ _ ihf iha => exact .call (ihf hscope) (iha hscope)
  | lambda hne _ _ ih => exact .lambda _ hne (ih (.inside hscope _))
  | conditional _ _ _ ihc ihy ihn => exact .conditional (ihc hscope) (ihy hscope) (ihn hscope)
  | literal _ ih => exact .literal none .top fun e he => ih e he hscope
  | range _ _ _ ih ihsecond ihstop =>
    exact .range (ih hscope) (fun e he => ihsecond e he hscope) fun e he => ihstop e he hscope
  | interpolated _ _ ih => exact .interpolated fun e he => ih e he hscope

/-- The names of the built-in functions. -/
theorem WellFormed.standard (arities : Nat → Nat) :
    ∀ name e, Scope.standard.lookup name = some e → WellFormed arities e := by
  intro name e hlookup
  obtain ⟨b, -, rfl⟩ := Scope.lookup_standard hlookup
  exact .function rfl

/-- A scope with one more function of the application. -/
theorem WellFormed.register {arities : Nat → Nat} {bindings : Bindings}
    (hscope : ∀ name e, (Scope.global bindings).lookup name = some e → WellFormed arities e)
    (name : String) (entry : Nat) :
    ∀ x e,
      ((Scope.global bindings).register ⟨name, arities entry, .foreign entry⟩).lookup x = some e →
        WellFormed arities e := by
  intro x e hlookup
  change ((Scope.global bindings).define name _).lookup x = some e at hlookup
  rw [Scope.lookup_define] at hlookup
  split at hlookup
  · cases hlookup
    exact .function rfl
  · exact hscope x e hlookup

/-! ## 3. The regime -/

/-- Functions and closures are called with as many arguments as they take, and with nothing else in
their place.  Elements are evaluated for lists with cells. -/
def Event.Exact (arities : Nat → Nat) : Event → Prop
  | .framed parameters arguments => arguments.length = parameters.length
  | .called code arguments => arguments.length = code.arity arities
  | .mismatched _ _ | .refused _ => False
  | .produced cell | .failed cell _ _ => cell.isSome = true
  | .opened | .closed | .made _ _ => True

/-- The functions of an application that are given canonical values in the right number give and
hand on nothing but canonical values; what they do to the state keeps `kept`. -/
def Host.GivesCanonical {σ : Type} (host : Host σ) (arities : Nat → Nat) (kept : σ → Prop) : Prop :=
  ∀ entry arguments, arguments.length = arities entry → (∀ a ∈ arguments, Canonical arities a) →
    (host entry arguments).Within (fun _ _ : Unit => True) (fun _ => Canonical arities)
      (fun _ => kept) ()

/-- A function or closure that has some arguments and needs at least one more. -/
structure Waiting (arities : Nat → Nat) (target : Expr) (received : List Expr) : Prop where
  short : ∃ k, target.arity? = some k ∧ received.length < k
  function : Canonical arities target
  arguments : ∀ a ∈ received, Canonical arities a

theorem Waiting.with {arities : Nat → Nat} {target : Expr} {received : List Expr}
    (h : Waiting arities target received) {a : Expr} (ha : Canonical arities a) :
    ∀ b ∈ received ++ [a], Canonical arities b := by
  intro b hb
  rcases List.mem_append.mp hb with hb | hb
  · exact h.arguments b hb
  · exact List.mem_singleton.mp hb ▸ ha

/-- The last argument is the last that is missing. -/
theorem Waiting.exact {arities : Nat → Nat} {target : Expr} {received : List Expr}
    (h : Waiting arities target received) {k : Nat} (hk : target.arity? = some k) {a : Expr}
    (hge : ¬ (received ++ [a]).length < k) : (received ++ [a]).length = k := by
  obtain ⟨k', hk', hlt⟩ := h.short
  obtain rfl := Option.some.inj (hk.symm.trans hk')
  rw [List.length_append, List.length_singleton] at hge ⊢
  omega

section Regime

variable {σ : Type} (arities : Nat → Nat) (kept : σ → Prop)

/-- All contents of cells are canonical, and all calls were exact. -/
structure CanonicalMachine (m : Machine (σ × List Event)) : Prop where
  cells : ∀ a v, m.cell? a = some v → Canonical arities v
  state : kept m.host.1
  events : ∀ event ∈ m.host.2, event.Exact arities

/-- Canonical values come from well-formed expressions. -/
def Regime.canonical : Regime σ where
  World := Unit
  le _ _ := True
  le_refl _ := trivial
  le_trans _ _ := trivial
  env _ := CanonicalEnv arities
  code _ here e := CanonicalEnv arities here ∧ WellFormed arities e
  value _ := Canonical arities
  ready _ := Waiting arities
  callable _ code arguments :=
    (∀ a ∈ arguments, Canonical arities a) ∧ arguments.length = code.arity arities
  state _ := kept
  allowed _ := Event.Exact arities
  Fits _ := CanonicalMachine arities kept
  Kept _ _ _ := True
  kept_refl := trivial
  kept_trans _ _ _ := trivial

end Regime

section Laws

variable {σ : Type} {arities : Nat → Nat} {kept : σ → Prop} {m : Machine (σ × List Event)}

theorem CanonicalMachine.note (hm : CanonicalMachine arities kept m) (event : Event)
    (h : event.Exact arities) : CanonicalMachine arities kept ((Watch.log σ).after event m) where
  cells := hm.cells
  state := hm.state
  events e he := by
    rcases List.mem_append.mp he with he | he
    · exact hm.events e he
    · exact List.mem_singleton.mp he ▸ h

theorem CanonicalMachine.fill (hm : CanonicalMachine arities kept m) (a : Nat) {v : Expr}
    (hv : Canonical arities v) : CanonicalMachine arities kept (m.fill a v) := by
  rw [fill_eq]
  refine ⟨fun b u hu => ?_, hm.state, hm.events⟩
  rcases cell_fillCell hu with hu | ⟨-, rfl⟩
  · exact hm.cells b u hu
  · exact hv

/-- An element is evaluated for a list with cells. -/
theorem Canonical.exact {x : Expr} {xs : List Expr} {here : Env} {cell : Option Nat}
    (hl : Canonical arities (.list (.items (x :: xs) here cell))) {event : Event}
    (hevent : event.aboutElement cell) : event.Exact arities := by
  cases hl.toList with
  | items hcell =>
    have hsome := hcell.resolve_left (List.cons_ne_nil x xs)
    cases event with
    | produced | failed =>
      cases hevent
      exact hsome
    | _ => cases hevent

/-- The forms of a well-formed expression. -/
theorem Regime.canonical_code_form {S : Setting σ} (hfind : S.find = Env.lookup) {here : Env}
    (henv : CanonicalEnv arities here) {e : Expr} (he : WellFormed arities e) :
    (Regime.canonical arities kept).CodeForm S () here e := by
  cases he with
  | value h =>
    cases h with
    | atom h => cases e <;> first | exact .atom h | cases h
    | list h =>
      cases h with
      | items _ hown hxs => exact ⟨hown.orElse henv, fun x hx => ⟨hown.orElse henv, hxs x hx⟩⟩
      | progression range => exact .list (.progression range)
      | prepend hhead htail => exact .list (.prepend hhead htail)
      | concat hfirst hsecond => exact .list (.concat hfirst hsecond)
      | mapped hf hsource => exact .list (.mapped hf hsource)
      | filtered hp hsource => exact .list (.filtered hp hsource)
      | dropped count hsource => exact .list (.dropped count hsource)
    | function hpos h =>
      simp only [Regime.CodeForm]
      rw [if_neg (by omega)]
      exact .function hpos h
    | closure hne hbody hown => exact .closure hne hbody hown
    | applied htarget hk hne hlt h => exact .applied htarget hk hne hlt h
    | leftSection op h | rightSection op h => exact ⟨henv, .value h⟩
  | literal _ hown hxs => exact ⟨hown.orElse henv, fun x hx => ⟨hown.orElse henv, hxs x hx⟩⟩
  | constant hzero h =>
    simp only [Regime.CodeForm]
    rw [if_pos hzero]
    exact ⟨fun a ha => absurd ha List.not_mem_nil, hzero.symm.trans h⟩
  | range hstart hsecond hstop =>
    exact ⟨⟨henv, hstart⟩, fun e he => ⟨henv, hsecond e he⟩, fun e he => ⟨henv, hstop e he⟩⟩
  | call hf ha => exact ⟨⟨henv, hf⟩, ⟨henv, ha⟩⟩
  | lambda depth hne hbody => exact .closure hne hbody henv
  | argument slot => exact fun v hv => henv.lookup (hfind ▸ hv)
  | unary op h | leftSection op h | rightSection op h => exact ⟨henv, h⟩
  | binary op hl hr => exact ⟨⟨henv, hl⟩, ⟨henv, hr⟩⟩
  | conditional hc hy hn => exact ⟨⟨henv, hc⟩, ⟨henv, hy⟩, ⟨henv, hn⟩⟩
  | interpolated h => exact fun e he => ⟨henv, h e he⟩

/-- The forms of a canonical value. -/
theorem Regime.canonical_value_form {v : Expr} (hv : Canonical arities v) :
    (Regime.canonical arities kept).ValueForm () v := by
  have hwaiting : ∀ {target k}, Canonical arities target → target.arity? = some k →
      Waiting arities target [] := fun htarget hk =>
    ⟨⟨_, hk, htarget.arity_pos hk⟩, htarget, fun a ha => absurd ha List.not_mem_nil⟩
  cases hv with
  | atom h => cases v <;> first | exact trivial | cases h
  | list h =>
    cases h with
    | @items xs env cell hcell henv hxs =>
      cases xs with
      | nil => exact trivial
      | cons x xs =>
        have hnext : (cell.map (· + 1)).isSome = true := by
          rw [Option.isSome_map]
          exact hcell.resolve_left (List.cons_ne_nil x xs)
        refine ⟨⟨henv, hxs x List.mem_cons_self⟩, ?_⟩
        exact .list (.items (.inr hnext) henv fun e he => hxs e (List.mem_cons_of_mem x he))
    | progression range => exact trivial
    | prepend hhead htail => exact ⟨hhead, .list htail⟩
    | concat hfirst hsecond => exact ⟨.list hfirst, .list hsecond⟩
    | mapped hf hsource | filtered hf hsource => exact ⟨hf, .list hsource⟩
    | dropped count hsource => exact Canonical.list hsource
  | function hpos h => exact hwaiting (.function hpos h) rfl
  | closure hne hbody henv => exact hwaiting (.closure hne hbody henv) rfl
  | applied htarget hk hne hlt h => exact ⟨⟨_, hk, hlt⟩, htarget, h⟩
  | leftSection op h | rightSection op h => exact h

/-- Values that are made of canonical ones. -/
theorem Regime.canonical_value_made {v : Expr} (hv : (Regime.canonical arities kept).Made () v) :
    Canonical arities v := by
  cases hv with
  | atom h => exact .atom h
  | leftSection op h => exact .leftSection op h
  | rightSection op h => exact .rightSection op h
  | applied hf ha hk h =>
    exact .applied hf.function hk (List.append_ne_nil_of_right_ne_nil _ (List.cons_ne_nil _ _)) h
      (hf.with ha)
  | progression range => exact .list (.progression range)
  | empty => exact .list (.items (.inl rfl) .top fun e he => absurd he List.not_mem_nil)
  | prepend hv hl => exact .list (.prepend hv (Canonical.toList hl))
  | concat hl hl' => exact .list (.concat (Canonical.toList hl) (Canonical.toList hl'))
  | mapped hf hl => exact .list (.mapped hf (Canonical.toList hl))
  | filtered hp hl => exact .list (.filtered hp (Canonical.toList hl))
  | dropped count hl => exact .list (.dropped count (Canonical.toList hl))

theorem Regime.canonical_laws {S : Setting σ} (hfind : S.find = Env.lookup)
    (hhost : S.host.GivesCanonical arities kept) : (Regime.canonical arities kept).Laws S where
  code_mono _ h := h
  value_mono _ h := h
  env_top _ := .top
  code_top h := ⟨.top, .value h⟩
  code_form h := canonical_code_form hfind h.1 h.2
  value_form h := canonical_value_form h
  value_made h := canonical_value_made h
  ready_frame {_ depth _ _ _ _ _} h ha hge := by
    have hlen := h.exact rfl hge
    cases h.function with
    | atom h => cases h
    | closure hne hbody henv => exact ⟨hlen, .frame depth hlen (h.with ha) henv, hbody⟩
  ready_call h ha hge := by
    refine ⟨h.with ha, (h.exact rfl hge).trans ?_⟩
    cases h.function with
    | atom h => cases h
    | function hpos h => exact h
  ready_refused h hnone := by
    obtain ⟨k, hk, -⟩ := h.short
    rw [hnone] at hk
    cases hk
  callable_called h := h.2
  callable_builtin h := h.1
  callable_mismatched h hne := absurd h.2 hne
  callable_foreign h := hhost _ _ h.2 h.1
  signal hm _ _ := ⟨⟨hm.cells, hm.state, hm.events⟩, trivial⟩
  note hm h := ⟨hm.note _ h, trivial⟩
  state hm := hm.state
  update hm hs := ⟨⟨hm.cells, hs, hm.events⟩, trivial⟩
  opened hm _ := ⟨hm.cells, hm.state, (hm.note .opened trivial).events⟩
  closed _ _ hm _ := ⟨⟨hm.cells, hm.state, (hm.note .closed trivial).events⟩, trivial⟩
  newList hm henv hxs :=
    have hnote := hm.note (.made _ _) trivial
    ⟨(), trivial, ⟨fun a v hv => hm.cells a v (cell_append hv), hm.state, hnote.events⟩, trivial,
      .list (.items (.inr rfl) henv fun x hx => (hxs x hx).2)⟩
  element hl hx := by
    have hform : (Regime.canonical arities kept).ValueForm () _ := canonical_value_form hl
    refine Regime.holds_element (fun a _ m v hm hv => hm.cells a v hv) (hx () hform.1)
      (fun _ m event hevent hm => ⟨hm.note _ ?_, trivial⟩) fun a _ _ m v hm hv => ?_
    · exact hl.exact hevent
    have hfits := hm.fill a hv
    refine ⟨hfits, trivial, ?_⟩
    cases hcell : (m.fill a v).cell? a with
    | none => exact hv
    | some u => exact hfits.cells a u hcell

end Laws

/-! ## 4. All that an application is given -/

theorem Regime.canonical_reads {σ : Type} (arities : Nat → Nat) (kept : σ → Prop) :
    (Regime.canonical arities kept).Reads := by
  intro _ scope source e hnames hparse
  exact ⟨.top, wellFormed_of_readable (readable_of_parseIn hparse) fun x e hx => (hnames x e hx).2⟩

/-- Whatever an application asks for, what it has is canonical. -/
theorem Regime.canonical_history {σ : Type} {host : Host σ} {arities : Nat → Nat} {kept : σ → Prop}
    (hhost : host.GivesCanonical arities kept) {s : σ} (hs : kept s)
    {requests : List (Nat × Request)} (hnames : ∀ r ∈ requests, r.2.Names (WellFormed arities)) :
    (Regime.canonical arities kept).Serves () (Machine.fresh s).observed
      ((Client.fresh s).observed.history (Engine.watched { host }) requests)
      ((Client.fresh s).history (Engine.actual { host }) requests) := by
  have hlaws : (Regime.canonical arities kept).Laws { host } := Regime.canonical_laws rfl hhost
  have hfresh : (Regime.canonical arities kept).Owns () (Client.fresh s).observed := by
    refine ⟨⟨?_, hs, ?_⟩, ?_, ?_⟩
    · rintro a v ⟨⟩
    · rintro event ⟨⟩
    · rintro v ⟨⟩
    · rintro c ⟨⟩
  refine hlaws.history (Regime.canonical_reads arities kept) hfresh fun r hr _ => ?_
  have hr := hnames r hr
  obtain ⟨n, _ | _⟩ := r
  · exact fun x e hx => ⟨.top, hr x e hx⟩
  all_goals exact trivial

/-- **Evaluation gives canonical values only, and calls functions exactly.** Whatever an application
asks for, every value that it is given is canonical, and so are all elements that are known and the
lists that its traversals have left.  No function was called with another number of arguments than
it takes, and nothing but a function was ever to be given an argument.  Watching changes nothing of
this. -/
theorem history_canonical {σ : Type} {host : Host σ} {arities : Nat → Nat} {kept : σ → Prop}
    (hhost : host.GivesCanonical arities kept) {s : σ} (hs : kept s)
    {requests : List (Nat × Request)} (hnames : ∀ r ∈ requests, r.2.Names (WellFormed arities)) :
    let C := (Client.fresh s).observed.history (Engine.watched { host }) requests
    C.unwatched = (Client.fresh s).history (Engine.actual { host }) requests ∧
      (∀ v ∈ C.values, Canonical arities v) ∧
      (∀ c ∈ C.cursors, CanonicalList arities c.rest) ∧
      (∀ a v, C.machine.cell? a = some v → Canonical arities v) ∧
      ∀ event ∈ C.log, event.Exact arities := by
  obtain ⟨hsame, _, -, -, howns⟩ := Regime.canonical_history hhost hs hnames
  exact ⟨hsame.symm, howns.values, fun c hc => (howns.cursors c hc).toList, howns.machine.cells,
    howns.machine.events⟩

/-! ## 5. Functions with a counter -/

/-- The functions with a counter hand on what they are given, and give numbers and texts besides. -/
theorem Native.act_within {World : Type} {le : World → World → Prop} {value : World → Expr → Prop}
    {w : World} (hmono : ∀ {w' v}, le w w' → value w v → value w' v)
    (hatom : ∀ v, v.isAtom = true → value w v) (native : Native) {arguments : List Expr}
    (h : ∀ a ∈ arguments, value w a) :
    (native.act arguments).Within le value (fun _ _ => True) w := by
  have hor : ∀ o : Option Expr, (∀ a ∈ o, a ∈ arguments) → value w (o.getD .null) := by
    intro o ho
    cases o with
    | none => exact hatom .null rfl
    | some a => exact h a (ho a rfl)
  have hcount : ∀ next : Nat → Action Nat,
      (∀ k, (next k).Within le value (fun _ _ => True) w) →
      (Native.counting next).Within le value (fun _ _ => True) w :=
    fun next hnext => .read fun k _ => .write trivial (hnext (k + 1))
  cases native with
  | tick => exact hcount _ fun k => .give (hatom _ rfl)
  | echo => exact hcount _ fun k => .give (hor _ fun a ha => List.mem_of_getLast? ha)
  | pack => exact .newList h fun _ v _ hv => .give hv
  | greet =>
    exact .display (hor _ fun a ha => List.mem_of_head? ha) fun _ _ hle =>
      .give (hmono hle (hatom _ rfl))
  | apply =>
    exact .apply (hor _ fun a ha => List.mem_of_getElem? ha)
      (hor _ fun a ha => List.mem_of_getElem? ha)
      fun _ v _ hv => .give hv
  | fail => exact .fail _
  | failAt n =>
    simp only [Native.act]
    refine hcount _ fun k => ?_
    split
    · exact .fail _
    · exact .give (hatom _ rfl)
  | cancelAt n =>
    simp only [Native.act]
    refine hcount _ fun k => ?_
    split
    · exact .cancel (.give (hatom _ rfl))
    · exact .give (hatom _ rfl)

theorem Host.ofTable_within {World : Type} {le : World → World → Prop} {value : World → Expr → Prop}
    {w : World} (hmono : ∀ {w' v}, le w w' → value w v → value w' v)
    (hatom : ∀ v, v.isAtom = true → value w v) (table : Array Native) (entry : Nat)
    {arguments : List Expr} (h : ∀ a ∈ arguments, value w a) :
    (Host.ofTable table entry arguments).Within le value (fun _ _ => True) w := by
  unfold Host.ofTable
  split
  · exact Native.act_within hmono hatom _ h
  · exact .give (hatom .null rfl)

theorem Host.givesCanonical_ofTable (table : Array Native) (arities : Nat → Nat) :
    (Host.ofTable table).GivesCanonical arities fun _ => True := by
  intro entry arguments _ h
  exact Host.ofTable_within (fun _ hv => hv) (fun _ hv => .atom hv) table entry h

/-- A function with two parameters that has received the value of one without parameters, is given
another and makes a list, which is traversed. -/
theorem history_canonical_pack :
    let arities : Nat → Nat := fun entry => 2 * entry
    let outer := (Scope.standard.register ⟨"tick", 0, .foreign 0⟩).register ⟨"pack", 2, .foreign 1⟩
    let requests : List (Nat × Request) :=
      [(9, .eval outer [] "pack tick"), (9, .apply 0 0), (9, .traverse 0 true), (9, .next 0)]
    let C := (Client.fresh 0).observed.history
      (Engine.watched { host := Host.ofTable #[.tick, .pack] }) requests
    C.values.length = 3 ∧ (∀ v ∈ C.values, Canonical arities v) ∧
      ∀ event ∈ C.log, event.Exact arities := by
  intro arities outer requests C
  have hnames : ∀ r ∈ requests, r.2.Names (WellFormed arities) := by
    have houter : ∀ name e, outer.lookup name = some e → WellFormed arities e :=
      WellFormed.register (WellFormed.register (WellFormed.standard arities) "tick" 0) "pack" 1
    simpa [requests, Request.Names] using houter
  have h := history_canonical (Host.givesCanonical_ofTable #[.tick, .pack] arities) trivial
    (s := 0) hnames
  exact ⟨by decide +kernel, h.2.1, h.2.2.2.2⟩

end LazyExpr
