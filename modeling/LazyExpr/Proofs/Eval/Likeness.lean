import LazyExpr.Eval
import Mathlib.Data.List.Forall2

/-!
# When two evaluations see the same

Two evaluations may differ in how they find arguments, in which cells their lists have, or in what
else is known about their values, and still go through the same steps.  A *likeness* says which
expressions and which values on the two sides count as the same.  It is given by its own relations;
what an evaluation needs of them is one layer at a time:

* `CodeLayer`: related expressions have the same form and related parts, and related arguments are
  found for a parameter; or the likeness says by itself that they are evaluated to the same.
* `Built`: values that are related as soon as their parts are.
* `Seen`: what related values show of themselves when they are used.

The relations are indexed by worlds that only grow, so that what is known may grow with the machine.

Operators and casts look at one layer only, so they respect every likeness (`asBool_alike`, …,
`onValues_alike`); the faults they end with are alike as well (`FaultLike`).
-/

namespace LazyExpr

/-! ## 1. Forms of expressions -/

/-- Evaluates to itself, whatever the environment. -/
def Expr.isDone : Expr → Bool
  | .number _ | .bool _ | .str _ | .null | .closure .. | .applied .. => true
  | .list (.items ..) => false
  | .list _ => true
  | _ => false

/-- A number, a boolean, a string or null. -/
def Expr.isAtom : Expr → Bool
  | .number _ | .bool _ | .str _ | .null => true
  | _ => false

theorem Expr.isDone_of_atom {e : Expr} (h : e.isAtom = true) : e.isDone = true := by
  cases e <;> first | rfl | cases h

/-- Neither data nor a function: a form that no evaluation gives. -/
def Expr.isInert : Expr → Bool
  | .range .. | .call .. | .lambda .. | .argument _ | .unary .. | .binary .. | .conditional ..
  | .interpolated _ => true
  | _ => false

/-- A fault that holds no value and tells nothing about parameters. -/
def Fault.isPlain : Fault → Bool
  | .typeMismatch .. | .invalidOperand .. | .notCallable _ | .invalidCast .. => false
  | .unboundArgument _ => false
  | _ => true

/-! ## 2. One layer of two related things -/

section Layers

variable (findLeft findRight : Slot → Env → Option Expr)
variable (env : Env → Env → Prop)
variable (code : Env → Env → Expr → Expr → Prop) (value : Expr → Expr → Prop)
variable (other : Env → Env → Expr → Expr → Prop)

/-- Fragments of an interpolated string, where embedded expressions are related. -/
inductive FragmentLike (code : Expr → Expr → Prop) : Fragment → Fragment → Prop where
  | text (text : String) : FragmentLike code (.text text) (.text text)
  | embedded {e e' : Expr} (h : code e e') : FragmentLike code (.embedded e) (.embedded e')

/-- The faults that related values lead to. -/
inductive FaultLike : Fault → Fault → Prop where
  | plain {fault : Fault} (h : fault.isPlain = true) : FaultLike fault fault
  | typeMismatch (op : BinaryOp) {l l' r r' : Expr} (hl : value l l') (hr : value r r') :
    FaultLike (.typeMismatch op l r) (.typeMismatch op l' r')
  | invalidOperand (op : UnaryOp) {v v' : Expr} (h : value v v') :
    FaultLike (.invalidOperand op v) (.invalidOperand op v')
  | notCallable {v v' : Expr} (h : value v v') : FaultLike (.notCallable v) (.notCallable v')
  | invalidCast (target : Target) {v v' : Expr} (h : value v v') :
    FaultLike (.invalidCast v target) (.invalidCast v' target)

/-- One layer of two expressions that are evaluated in `here` and `here'`. -/
inductive CodeLayer (here here' : Env) : Expr → Expr → Prop where
  | done {e e' : Expr} (h : e.isDone = true) (h' : e'.isDone = true) (hv : value e e') :
    CodeLayer here here' e e'
  | function (f : Function) : CodeLayer here here' (.function f) (.function f)
  | literal {xs xs' : List Expr} {own own' : Env} (cell cell' : Option Nat)
    (henv : env (own.orElse here) (own'.orElse here'))
    (h : List.Forall₂ (code (own.orElse here) (own'.orElse here')) xs xs') :
    CodeLayer here here' (.list (.items xs own cell)) (.list (.items xs' own' cell'))
  | range {start start' : Expr} {second second' stop stop' : Option Expr}
    (hstart : code here here' start start') (hsecond : Option.Rel (code here here') second second')
    (hstop : Option.Rel (code here here') stop stop') :
    CodeLayer here here' (.range start second stop) (.range start' second' stop')
  | call {f f' a a' : Expr} (hf : code here here' f f') (ha : code here here' a a') :
    CodeLayer here here' (.call f a) (.call f' a')
  | lambda {d d' : Nat} {ps ps' : List String} {b b' : Expr}
    (h : value (.closure d ps b here) (.closure d' ps' b' here')) :
    CodeLayer here here' (.lambda d ps b) (.lambda d' ps' b')
  | bound {slot slot' : Slot} {v v' : Expr} (h : findLeft slot here = some v)
    (h' : findRight slot' here' = some v') (hv : value v v') :
    CodeLayer here here' (.argument slot) (.argument slot')
  | stray {slot slot' : Slot} (h : findLeft slot here = none) (h' : findRight slot' here' = none)
    (hname : slot.name = slot'.name) : CodeLayer here here' (.argument slot) (.argument slot')
  | unary (op : UnaryOp) {e e' : Expr} (h : code here here' e e') :
    CodeLayer here here' (.unary op e) (.unary op e')
  | binary (op : BinaryOp) {l l' r r' : Expr} (hl : code here here' l l')
    (hr : code here here' r r') :
    CodeLayer here here' (.binary op l r) (.binary op l' r')
  | leftSection (op : BinaryOp) {e e' : Expr} (h : code here here' e e') :
    CodeLayer here here' (.leftSection op e) (.leftSection op e')
  | rightSection (op : BinaryOp) {e e' : Expr} (h : code here here' e e') :
    CodeLayer here here' (.rightSection op e) (.rightSection op e')
  | conditional {c c' y y' n n' : Expr} (hc : code here here' c c') (hy : code here here' y y')
    (hn : code here here' n n') : CodeLayer here here' (.conditional c y n) (.conditional c' y' n')
  | interpolated {fs fs' : List Fragment}
    (h : List.Forall₂ (FragmentLike (code here here')) fs fs') :
    CodeLayer here here' (.interpolated fs) (.interpolated fs')
  /-- Two forms that need not be the same. -/
  | other {e e' : Expr} (h : other here here' e e') : CodeLayer here here' e e'

/-- Values that are related because their parts are. -/
inductive Built : Expr → Expr → Prop where
  | atom {e : Expr} (h : e.isAtom = true) : Built e e
  | function (f : Function) : Built (.function f) (.function f)
  | applied {t t' : Expr} {args args' : List Expr} (ht : value t t')
    (ha : List.Forall₂ value args args') : Built (.applied t args) (.applied t' args')
  | leftSection (op : BinaryOp) {v v' : Expr} (h : value v v') :
    Built (.leftSection op v) (.leftSection op v')
  | rightSection (op : BinaryOp) {v v' : Expr} (h : value v v') :
    Built (.rightSection op v) (.rightSection op v')
  | progression (range : Progression) :
    Built (.list (.progression range)) (.list (.progression range))
  | empty : Built (.list .empty) (.list .empty)
  | prepend {h h' : Expr} {t t' : LazyList} (hh : value h h') (ht : value (.list t) (.list t')) :
    Built (.list (.prepend h t)) (.list (.prepend h' t'))
  | concat {a a' b b' : LazyList} (ha : value (.list a) (.list a'))
    (hb : value (.list b) (.list b')) : Built (.list (.concat a b)) (.list (.concat a' b'))
  | mapped {f f' : Expr} {s s' : LazyList} (hf : value f f') (hs : value (.list s) (.list s')) :
    Built (.list (.mapped f s)) (.list (.mapped f' s'))
  | filtered {p p' : Expr} {s s' : LazyList} (hp : value p p') (hs : value (.list s) (.list s')) :
    Built (.list (.filtered p s)) (.list (.filtered p' s'))
  | dropped (count : Nat) {s s' : LazyList} (hs : value (.list s) (.list s')) :
    Built (.list (.dropped count s)) (.list (.dropped count s'))

/-- What two related values show when they are used. -/
inductive Seen : Expr → Expr → Prop where
  | built {v v' : Expr} (h : Built value v v') : Seen v v'
  | closure {d d' : Nat} {ps ps' : List String} {b b' : Expr} {env env' : Env}
    (hlen : ps.length = ps'.length)
    (h : ∀ args args', List.Forall₂ value args args' → ps.length ≤ args.length →
      code (.frame d ps args env) (.frame d' ps' args' env') b b') :
    Seen (.closure d ps b env) (.closure d' ps' b' env')
  | nil (env env' : Env) (cell cell' : Option Nat) :
    Seen (.list (.items [] env cell)) (.list (.items [] env' cell'))
  | cons {x x' : Expr} {xs xs' : List Expr} {env env' : Env} {cell cell' : Option Nat}
    (hx : code env env' x x')
    (hxs : value (.list (.items xs env (cell.map (· + 1))))
      (.list (.items xs' env' (cell'.map (· + 1))))) :
    Seen (.list (.items (x :: xs) env cell)) (.list (.items (x' :: xs') env' cell'))
  | inert {v v' : Expr} (h : v.isInert = true) (h' : v'.isInert = true) : Seen v v'

end Layers

/-- What counts as the same on the two sides. -/
structure Likeness (findLeft findRight : Slot → Env → Option Expr) where
  /-- What is known so far. -/
  World : Type
  le : World → World → Prop
  le_refl : ∀ w, le w w
  le_trans : ∀ {w₁ w₂ w₃}, le w₁ w₂ → le w₂ w₃ → le w₁ w₃
  /-- Environments that are the same. -/
  env : World → Env → Env → Prop
  /-- Expressions that are the same, each evaluated in its environment. -/
  code : World → Env → Env → Expr → Expr → Prop
  /-- Values that are the same. -/
  value : World → Expr → Expr → Prop
  /-- Expressions that are evaluated to the same whatever their forms. -/
  other : World → Env → Env → Expr → Expr → Prop := fun _ _ _ _ _ => False
  env_mono : ∀ {w w' here here'}, le w w' → env w here here' → env w' here here'
  code_mono : ∀ {w w' here here' e e'}, le w w' → code w here here' e e' → code w' here here' e e'
  value_mono : ∀ {w w' v v'}, le w w' → value w v v' → value w' v v'
  env_top : ∀ w, env w .top .top
  /-- A value that is evaluated once more is looked at without an environment. -/
  code_top : ∀ {w v v'}, value w v v' → code w .top .top v v'
  code_layer : ∀ {w here here' e e'}, code w here here' e e' →
    CodeLayer findLeft findRight (env w) (code w) (value w) (other w) here here' e e'
  value_built : ∀ {w v v'}, Built (value w) v v' → value w v v'
  value_seen : ∀ {w v v'}, value w v v' → Seen (code w) (value w) v v'

/-! ## 3. Casts -/

/-- Results of which both are values that `post` relates, or both are faults that are alike. -/
def ResultLike {α β : Type} (value : Expr → Expr → Prop) (post : α → β → Prop) :
    Except Fault α → Except Fault β → Prop
  | .ok a, .ok b => post a b
  | .error fault, .error fault' => FaultLike value fault fault'
  | _, _ => False

theorem ResultLike.bind {α β γ δ : Type} {value : Expr → Expr → Prop} {post : α → β → Prop}
    {next : γ → δ → Prop} {f : α → Except Fault γ} {g : β → Except Fault δ} {x : Except Fault α}
    {y : Except Fault β} (h : ResultLike value post x y)
    (hfg : ∀ a b, post a b → ResultLike value next (f a) (g b)) :
    ResultLike value next (x >>= f) (y >>= g) := by
  match x, y, h with
  | .ok a, .ok b, h => exact hfg a b h
  | .error _, .error _, h => exact h

namespace Expr

variable {e : Expr}

theorem asBool_of_not_atom (h : e.isAtom = false) :
    e.asBool = .error (.invalidCast e .boolean) := by
  cases e <;> first | rfl | cases h

theorem asInteger_of_not_atom (h : e.isAtom = false) :
    e.asInteger = .error (.invalidCast e .integer) := by
  cases e <;> first | rfl | cases h

theorem asString_of_not_atom (h : e.isAtom = false) :
    e.asString = .error (.invalidCast e .string) := by
  cases e <;> first | rfl | cases h

theorem number?_of_not_atom (h : e.isAtom = false) : e.number? = none := by
  cases e <;> first | rfl | cases h

/-- Without a list there is nothing to take as one. -/
theorem asList_of_inert (h : e.isInert = true) : e.asList = .error (.invalidCast e .list) := by
  cases e <;> first | rfl | cases h

theorem isAtom_of_inert (h : e.isInert = true) : e.isAtom = false := by
  cases e <;> first | rfl | cases h

end Expr

namespace Likeness

variable {findLeft findRight : Slot → Env → Option Expr} (K : Likeness findLeft findRight)
variable {w : K.World} {v v' : Expr}

/-- Related values are the same atom, or neither is an atom. -/
theorem atom_or (h : K.value w v v') :
    (v = v' ∧ v.isAtom = true) ∨ (v.isAtom = false ∧ v'.isAtom = false) := by
  cases K.value_seen h with
  | built hb =>
    cases hb with
    | atom ha => exact .inl ⟨rfl, ha⟩
    | _ => exact .inr ⟨rfl, rfl⟩
  | inert hi hi' => exact .inr ⟨Expr.isAtom_of_inert hi, Expr.isAtom_of_inert hi'⟩
  | _ => exact .inr ⟨rfl, rfl⟩

/-- A cast that refuses all but atoms is the same on both sides. -/
theorem cast_alike {α : Type} {cast : Expr → Except Fault α} {target : Target}
    (hcast : ∀ e, ∃ a, cast e = e.castTo target a)
    (hother : ∀ {e}, e.isAtom = false → cast e = .error (.invalidCast e target))
    (h : K.value w v v') : ResultLike (K.value w) (· = ·) (cast v) (cast v') := by
  rcases K.atom_or h with ⟨rfl, -⟩ | ⟨hv, hv'⟩
  · obtain ⟨a, ha⟩ := hcast v
    rw [ha]
    cases a with
    | none => exact .invalidCast target h
    | some a => rfl
  · rw [hother hv, hother hv']
    exact .invalidCast target h

theorem asBool_alike (h : K.value w v v') : ResultLike (K.value w) (· = ·) v.asBool v'.asBool :=
  K.cast_alike (fun _ => ⟨_, rfl⟩) Expr.asBool_of_not_atom h

theorem asInteger_alike (h : K.value w v v') :
    ResultLike (K.value w) (· = ·) v.asInteger v'.asInteger :=
  K.cast_alike (fun _ => ⟨_, rfl⟩) Expr.asInteger_of_not_atom h

theorem asString_alike (h : K.value w v v') :
    ResultLike (K.value w) (· = ·) v.asString v'.asString :=
  K.cast_alike (fun _ => ⟨_, rfl⟩) Expr.asString_of_not_atom h

theorem number?_alike (h : K.value w v v') : v.number? = v'.number? := by
  rcases K.atom_or h with ⟨rfl, -⟩ | ⟨hv, hv'⟩
  · rfl
  · rw [Expr.number?_of_not_atom hv, Expr.number?_of_not_atom hv']

theorem asNumber_alike (h : K.value w v v') :
    ResultLike (K.value w) (· = ·) v.asNumber v'.asNumber :=
  K.cast_alike (fun _ => ⟨_, rfl⟩)
    (fun he => by rw [Expr.asNumber, Expr.number?_of_not_atom he]; rfl) h

/-- Lists are the same when they are so as values. -/
def list (w : K.World) (l l' : LazyList) : Prop := K.value w (.list l) (.list l')

/-- What is no list is none on either side. -/
theorem list_or (h : K.value w v v') :
    (∃ l l', v = .list l ∧ v' = .list l' ∧ K.list w l l') ∨
      (v.asList = .error (.invalidCast v .list) ∧ v'.asList = .error (.invalidCast v' .list)) := by
  cases K.value_seen h with
  | built hb =>
    cases hb with
    | atom ha => cases v <;> first | exact .inr ⟨rfl, rfl⟩ | cases ha
    | function | applied | leftSection | rightSection => exact .inr ⟨rfl, rfl⟩
    | _ => exact .inl ⟨_, _, rfl, rfl, h⟩
  | closure => exact .inr ⟨rfl, rfl⟩
  | nil | cons => exact .inl ⟨_, _, rfl, rfl, h⟩
  | inert hi hi' => exact .inr ⟨Expr.asList_of_inert hi, Expr.asList_of_inert hi'⟩

theorem asList_alike (h : K.value w v v') :
    ResultLike (K.value w) (K.list w) v.asList v'.asList := by
  rcases K.list_or h with ⟨l, l', rfl, rfl, hl⟩ | ⟨hv, hv'⟩
  · exact hl
  · rw [hv, hv']
    exact .invalidCast .list h

/-- One layer of two related lists. -/
inductive ListLayer (w : K.World) : LazyList → LazyList → Prop where
  | nil (env env' : Env) (cell cell' : Option Nat) :
    ListLayer w (.items [] env cell) (.items [] env' cell')
  | cons {x x' : Expr} {xs xs' : List Expr} {env env' : Env} {cell cell' : Option Nat}
    (hx : K.code w env env' x x')
    (hxs : K.list w (.items xs env (cell.map (· + 1))) (.items xs' env' (cell'.map (· + 1)))) :
    ListLayer w (.items (x :: xs) env cell) (.items (x' :: xs') env' cell')
  | progression (range : Progression) : ListLayer w (.progression range) (.progression range)
  | prepend {h h' : Expr} {t t' : LazyList} (hh : K.value w h h') (ht : K.list w t t') :
    ListLayer w (.prepend h t) (.prepend h' t')
  | concat {a a' b b' : LazyList} (ha : K.list w a a') (hb : K.list w b b') :
    ListLayer w (.concat a b) (.concat a' b')
  | mapped {f f' : Expr} {s s' : LazyList} (hf : K.value w f f') (hs : K.list w s s') :
    ListLayer w (.mapped f s) (.mapped f' s')
  | filtered {p p' : Expr} {s s' : LazyList} (hp : K.value w p p') (hs : K.list w s s') :
    ListLayer w (.filtered p s) (.filtered p' s')
  | dropped (count : Nat) {s s' : LazyList} (hs : K.list w s s') :
    ListLayer w (.dropped count s) (.dropped count s')

theorem list_layer {l l' : LazyList} (h : K.list w l l') : K.ListLayer w l l' := by
  unfold list at h
  cases K.value_seen h with
  | built hb =>
    cases hb with
    | atom ha => cases ha
    | progression range => exact .progression range
    | empty => exact .nil .top .top none none
    | prepend hh ht => exact .prepend hh ht
    | concat ha hb => exact .concat ha hb
    | mapped hf hs => exact .mapped hf hs
    | filtered hp hs => exact .filtered hp hs
    | dropped count hs => exact .dropped count hs
  | nil env env' cell cell' => exact .nil env env' cell cell'
  | cons hx hxs => exact .cons hx hxs
  | inert hi => cases hi

/-- Related lists are both without end, or neither is. -/
theorem isInfinite_alike : ∀ (l l' : LazyList), K.list w l l' → l.isInfinite = l'.isInfinite
  | .items .., l', h | .progression _, l', h => by cases K.list_layer h <;> rfl
  | .prepend _ tail, l', h => by
    cases K.list_layer h with
    | prepend _ ht => simp only [LazyList.isInfinite, isInfinite_alike tail _ ht]
  | .concat a b, l', h => by
    cases K.list_layer h with
    | concat ha hb =>
      simp only [LazyList.isInfinite, isInfinite_alike a _ ha, isInfinite_alike b _ hb]
  | .mapped _ s, l', h => by
    cases K.list_layer h with
    | mapped _ hs => simp only [LazyList.isInfinite, isInfinite_alike s _ hs]
  | .filtered _ s, l', h => by
    cases K.list_layer h with
    | filtered _ hs => simp only [LazyList.isInfinite, isInfinite_alike s _ hs]
  | .dropped _ s, l', h => by
    cases K.list_layer h with
    | dropped _ hs => simp only [LazyList.isInfinite, isInfinite_alike s _ hs]

theorem asFiniteList_alike (h : K.value w v v') (function : String) :
    ResultLike (K.value w) (K.list w) (v.asFiniteList function) (v'.asFiniteList function) := by
  refine (K.asList_alike h).bind fun l l' hl => ?_
  rw [K.isInfinite_alike l l' hl]
  split
  · exact .plain rfl
  · exact hl

/-! ## 4. Operators -/

end Likeness

/-- A result that, if it is a fault, is a plain one. -/
def FailsPlainly {α : Type} (result : Except Fault α) : Prop :=
  ∀ fault, result = .error fault → fault.isPlain = true

namespace FailsPlainly

variable {α β : Type}

theorem ok (a : α) : FailsPlainly (.ok a) := by
  rintro _ ⟨⟩

theorem error {fault : Fault} (h : fault.isPlain = true) :
    FailsPlainly (α := α) (.error fault) := by
  rintro _ ⟨⟩
  exact h

theorem ite {c : Prop} [Decidable c] {x y : Except Fault α} (hx : FailsPlainly x)
    (hy : FailsPlainly y) : FailsPlainly (if c then x else y) := by
  split
  · exact hx
  · exact hy

theorem map {x : Except Fault α} (f : α → β) (hx : FailsPlainly x) : FailsPlainly (x.map f) := by
  cases x with
  | ok a => exact ok (f a)
  | error fault => exact error (hx fault rfl)

theorem inRange (op : BinaryOp) (d : Option Decimal) : FailsPlainly (op.inRange d) := by
  cases d with
  | some d => exact ok d
  | none => exact error rfl

theorem onIntegers (op : BinaryOp) (a b : Int64) : FailsPlainly (op.onIntegers a b) := by
  cases op with
  | add | sub | mul => exact ok _
  | div | mod => exact ite (error rfl) (ok _)
  | _ => exact error rfl

theorem onDecimals (op : BinaryOp) (a b : Decimal) : FailsPlainly (op.onDecimals a b) := by
  cases op with
  | add | sub | mul => exact inRange _ _
  | div | mod => exact ite (error rfl) (inRange _ _)
  | _ => exact error rfl

theorem onNumbers (op : BinaryOp) (a b : Number) : FailsPlainly (op.onNumbers a b) := by
  unfold BinaryOp.onNumbers
  split
  · exact (onIntegers op _ _).map _
  · exact (onDecimals op _ _).map _

end FailsPlainly

namespace Expr

variable {l r : Expr}

theorem equal?_of_not_atom_left (h : l.isAtom = false) :
    l.equal? r = match r with | .null => some false | _ => none := by
  unfold equal?
  split <;> first | rfl | cases h | (split <;> simp_all)

theorem equal?_of_not_atom_right (h : r.isAtom = false) :
    l.equal? r = match l with | .null => some false | _ => none := by
  unfold equal?
  split <;> first | rfl | cases h | (split <;> simp_all)

theorem arithmetic_of_not_atom_left {op : BinaryOp} (h : l.isAtom = false) :
    op.arithmetic l r = .error (.typeMismatch op l r) := by
  unfold BinaryOp.arithmetic
  split <;> first | rfl | cases h

theorem arithmetic_of_not_atom_right {op : BinaryOp} (h : r.isAtom = false) :
    op.arithmetic l r = .error (.typeMismatch op l r) := by
  unfold BinaryOp.arithmetic
  split <;> first | rfl | cases h

theorem onLists_of_not_list {op : BinaryOp} (h : r.asList = .error (.invalidCast r .list)) :
    op.onLists l r = .error (.typeMismatch op l r) := by
  unfold BinaryOp.onLists
  split <;> first | rfl | cases h

theorem concat_of_not_list (h : l.asList = .error (.invalidCast l .list)) :
    BinaryOp.concat.onLists l r = .error (.typeMismatch .concat l r) := by
  unfold BinaryOp.onLists
  split <;> first | rfl | cases h | contradiction

theorem negate_of_not_atom {e : Expr} (h : e.isAtom = false) :
    UnaryOp.negate.onValue e = .error (.invalidOperand .negate e) := by
  cases e <;> first | rfl | cases h

end Expr

namespace Likeness

variable {findLeft findRight : Slot → Env → Option Expr} (K : Likeness findLeft findRight)
variable {w : K.World} {v v' l l' r r' : Expr}

theorem bool_alike (w : K.World) (b : Bool) : K.value w (.bool b) (.bool b) :=
  K.value_built (.atom rfl)

theorem equal?_alike (hl : K.value w l l') (hr : K.value w r r') : l.equal? r = l'.equal? r' := by
  rcases K.atom_or hl with ⟨rfl, -⟩ | ⟨h, h'⟩
  · rcases K.atom_or hr with ⟨rfl, -⟩ | ⟨k, k'⟩
    · rfl
    · rw [Expr.equal?_of_not_atom_right k, Expr.equal?_of_not_atom_right k']
  · rw [Expr.equal?_of_not_atom_left h, Expr.equal?_of_not_atom_left h']
    rcases K.atom_or hr with ⟨rfl, -⟩ | ⟨k, k'⟩
    · rfl
    · have hnull : r ≠ .null := by rintro rfl; cases k
      have hnull' : r' ≠ .null := by rintro rfl; cases k'
      split <;> simp_all

theorem compares?_alike (op : BinaryOp) (hl : K.value w l l') (hr : K.value w r r') :
    op.compares? l r = op.compares? l' r' := by
  unfold BinaryOp.compares?
  rw [K.equal?_alike hl hr, K.number?_alike hl, K.number?_alike hr]

theorem comparison_alike (op : BinaryOp) (hl : K.value w l l') (hr : K.value w r r') :
    ResultLike (K.value w) (K.value w) (op.comparison l r) (op.comparison l' r') := by
  unfold BinaryOp.comparison
  rw [K.compares?_alike op hl hr]
  split
  · exact K.bool_alike w _
  · exact .typeMismatch op hl hr

theorem logic_alike (op : BinaryOp) (hl : K.value w l l') (hr : K.value w r r') :
    ResultLike (K.value w) (K.value w) (op.logic l r) (op.logic l' r') := by
  refine (K.asBool_alike hl).bind ?_
  rintro a _ rfl
  refine (K.asBool_alike hr).bind ?_
  rintro b _ rfl
  exact K.bool_alike w _

theorem arithmetic_alike (op : BinaryOp) (hl : K.value w l l') (hr : K.value w r r') :
    ResultLike (K.value w) (K.value w) (op.arithmetic l r) (op.arithmetic l' r') := by
  rcases K.atom_or hl with ⟨rfl, -⟩ | ⟨h, h'⟩
  · rcases K.atom_or hr with ⟨rfl, -⟩ | ⟨k, k'⟩
    · unfold BinaryOp.arithmetic
      split
      · exact K.value_built (.atom rfl)
      · next a b =>
        cases hn : op.onNumbers a b with
        | ok n => exact K.value_built (.atom rfl)
        | error fault => exact .plain (FailsPlainly.onNumbers op a b fault hn)
      · exact .typeMismatch op hl hr
    · rw [Expr.arithmetic_of_not_atom_right k, Expr.arithmetic_of_not_atom_right k']
      exact .typeMismatch op hl hr
  · rw [Expr.arithmetic_of_not_atom_left h, Expr.arithmetic_of_not_atom_left h']
    exact .typeMismatch op hl hr

theorem onLists_alike (op : BinaryOp) (hl : K.value w l l') (hr : K.value w r r') :
    ResultLike (K.value w) (K.value w) (op.onLists l r) (op.onLists l' r') := by
  rcases K.list_or hr with ⟨b, b', rfl, rfl, hb⟩ | ⟨h, h'⟩
  · cases op with
    | prepend => exact K.value_built (.prepend hl hb)
    | concat =>
      rcases K.list_or hl with ⟨a, a', rfl, rfl, ha⟩ | ⟨h, h'⟩
      · exact K.value_built (.concat ha hb)
      · rw [Expr.concat_of_not_list h, Expr.concat_of_not_list h']
        exact .typeMismatch .concat hl hr
    | _ => exact .typeMismatch _ hl hr
  · rw [Expr.onLists_of_not_list h, Expr.onLists_of_not_list h']
    exact .typeMismatch op hl hr

theorem onValues_alike (op : BinaryOp) (hl : K.value w l l') (hr : K.value w r r') :
    ResultLike (K.value w) (K.value w) (op.onValues l r) (op.onValues l' r') := by
  cases op with
  | or | and => exact K.logic_alike _ hl hr
  | equal | notEqual | less | lessEqual | greater | greaterEqual => exact K.comparison_alike _ hl hr
  | concat | prepend => exact K.onLists_alike _ hl hr
  | add | sub | mul | div | mod => exact K.arithmetic_alike _ hl hr

theorem onValue_alike (op : UnaryOp) (h : K.value w v v') :
    ResultLike (K.value w) (K.value w) (op.onValue v) (op.onValue v') := by
  cases op with
  | negate =>
    rcases K.atom_or h with ⟨rfl, -⟩ | ⟨hv, hv'⟩
    · unfold UnaryOp.onValue
      split
      · exact K.value_built (.atom rfl)
      · exact K.value_built (.atom rfl)
      · exact .invalidOperand .negate h
      · contradiction
    · rw [Expr.negate_of_not_atom hv, Expr.negate_of_not_atom hv']
      exact .invalidOperand .negate h
  | not =>
    refine (K.asBool_alike h).bind ?_
    rintro b _ rfl
    exact K.bool_alike w _

end Likeness

/-! ## 5. Equality -/

theorem optionRel_refl {α : Type} {r : α → α → Prop} (h : ∀ a, r a a) :
    ∀ o : Option α, Option.Rel r o o
  | none => .none
  | some a => .some (h a)

theorem eq_of_forall₂ {α : Type} {xs ys : List α} (h : List.Forall₂ (· = ·) xs ys) : xs = ys := by
  rwa [List.forall₂_eq_eq_eq] at h

/-- What is equal is the same. -/
def Likeness.equality (find : Slot → Env → Option Expr) : Likeness find find where
  World := Unit
  le _ _ := True
  le_refl _ := trivial
  le_trans _ _ := trivial
  env _ here here' := here = here'
  code _ here here' e e' := here = here' ∧ e = e'
  value _ v v' := v = v'
  env_mono _ h := h
  code_mono _ h := h
  value_mono _ h := h
  env_top _ := rfl
  code_top h := ⟨rfl, h⟩
  code_layer := by
    rintro _ here _ e _ ⟨rfl, rfl⟩
    have same : ∀ e : Expr, here = here ∧ e = e := fun _ => ⟨rfl, rfl⟩
    cases e with
    | number | bool | str | null | closure | applied => exact .done rfl rfl rfl
    | list l =>
      cases l with
      | items xs own cell =>
        exact .literal cell cell rfl (List.forall₂_same.2 fun x _ => ⟨rfl, rfl⟩)
      | _ => exact .done rfl rfl rfl
    | range => exact .range (same _) (optionRel_refl same _) (optionRel_refl same _)
    | call => exact .call (same _) (same _)
    | function f => exact .function f
    | lambda => exact .lambda rfl
    | argument slot =>
      cases h : find slot here with
      | some v => exact .bound h h rfl
      | none => exact .stray h h rfl
    | unary op => exact .unary op (same _)
    | binary op => exact .binary op (same _) (same _)
    | leftSection op => exact .leftSection op (same _)
    | rightSection op => exact .rightSection op (same _)
    | conditional => exact .conditional (same _) (same _) (same _)
    | interpolated fs =>
      refine .interpolated (List.forall₂_same.2 fun f _ => ?_)
      cases f with
      | text t => exact .text t
      | embedded e => exact .embedded (same e)
  value_built := by
    intro _ v v' h
    cases h with
    | applied ht ha => rw [ht, eq_of_forall₂ ha]
    | atom | function | progression | empty => rfl
    | leftSection _ h | rightSection _ h => rw [h]
    | prepend hh ht => rw [hh, Expr.list.inj ht]
    | concat ha hb => rw [Expr.list.inj ha, Expr.list.inj hb]
    | mapped hf hs => rw [hf, Expr.list.inj hs]
    | filtered hf hs => rw [hf, Expr.list.inj hs]
    | dropped _ hs => rw [Expr.list.inj hs]
  value_seen := by
    rintro _ v _ rfl
    cases v with
    | number | bool | str | null => exact .built (.atom rfl)
    | function f => exact .built (.function f)
    | applied => exact .built (.applied rfl (List.forall₂_same.2 fun _ _ => rfl))
    | leftSection op => exact .built (.leftSection op rfl)
    | rightSection op => exact .built (.rightSection op rfl)
    | closure =>
      refine .closure rfl fun args args' h _ => ⟨?_, rfl⟩
      rw [eq_of_forall₂ h]
    | list l =>
      cases l with
      | items xs env cell =>
        cases xs with
        | nil => exact .nil env env cell cell
        | cons x xs => exact .cons ⟨rfl, rfl⟩ rfl
      | progression range => exact .built (.progression range)
      | prepend => exact .built (.prepend rfl rfl)
      | concat => exact .built (.concat rfl rfl)
      | mapped => exact .built (.mapped rfl rfl)
      | filtered => exact .built (.filtered rfl rfl)
      | dropped count => exact .built (.dropped count rfl)
    | _ => exact .inert rfl rfl

/-- Faults are alike under equality only if they are equal. -/
theorem FaultLike.eq {fault fault' : Fault} (h : FaultLike (· = ·) fault fault') :
    fault = fault' := by
  cases h with
  | plain => rfl
  | typeMismatch _ hl hr => rw [hl, hr]
  | invalidOperand _ h | notCallable h | invalidCast _ h => rw [h]

end LazyExpr
