import LazyExpr.Proofs.Expr.Uncaptured

/-!
# Expressions that are shown alike

What an expression is shown as depends on the environment that its slots are looked up in.  Two
expressions, each with an environment, may be shown alike although they differ: a view of a list is
written as the call that makes it, a closure as its lambda.

* `Inlines env e u`: with the arguments of `env` in their places, `e` becomes `u`.
* `ShownAlike env env' e e'`: what becomes of the two is written alike.  There is one rule for each
  form whose parts are shown alike, and one for each value that is written as another form
  (`ShownAlike.prepend` … `ShownAlike.received`).
-/

namespace LazyExpr

/-! ## 1. Arguments in their places -/

/-- Given enough fuel, the expression becomes `u` with the arguments of `env` in their places. -/
def Inlines (env : Env) (e u : Expr) : Prop := ∃ n, ∀ fuel, n ≤ fuel → e.inline fuel env = some u

namespace Inlines

variable {env : Env} {e u v : Expr} {l l' : LazyList}

theorem unique (hu : Inlines env e u) (hv : Inlines env e v) : u = v := by
  obtain ⟨n, hu⟩ := hu
  obtain ⟨m, hv⟩ := hv
  have h := hu (max n m) (Nat.le_max_left n m)
  rw [hv (max n m) (Nat.le_max_right n m)] at h
  exact (Option.some.inj h).symm

/-- A form that takes one step more than its parts. -/
theorem step (n : Nat) (h : ∀ fuel, n ≤ fuel → e.inline (fuel + 1) env = some u) :
    Inlines env e u := by
  refine ⟨n + 1, fun fuel hfuel => ?_⟩
  obtain ⟨fuel, rfl⟩ : ∃ f, fuel = f + 1 := ⟨fuel - 1, by omega⟩
  exact h fuel (by omega)

/-- A list that takes one step more than its parts. -/
theorem step_list (n : Nat) (h : ∀ fuel, n ≤ fuel → l.inline (fuel + 1) env = some l') :
    Inlines env (.list l) (.list l') := by
  refine ⟨n + 2, fun fuel hfuel => ?_⟩
  obtain ⟨fuel, rfl⟩ : ∃ f, fuel = f + 2 := ⟨fuel - 2, by omega⟩
  rw [Expr.inline, h fuel (by omega)]
  rfl

/-- What becomes of a list is a list. -/
theorem list_inv (h : Inlines env (.list l) u) :
    ∃ l', u = .list l' ∧ ∃ n, ∀ fuel, n ≤ fuel → l.inline fuel env = some l' := by
  obtain ⟨n, h⟩ := h
  have hfirst := h (n + 1) (Nat.le_succ n)
  rw [Expr.inline, Option.map_eq_some_iff] at hfirst
  obtain ⟨l', -, rfl⟩ := hfirst
  refine ⟨l', rfl, n, fun fuel hfuel => ?_⟩
  have hmore := h (fuel + 1) (Nat.le_succ_of_le hfuel)
  rw [Expr.inline, Option.map_eq_some_iff] at hmore
  obtain ⟨l'', hl, heq⟩ := hmore
  cases heq
  exact hl

theorem bound {slot : Slot} (hslot : env.lookup slot = some e) (h : Inlines env e u) :
    Inlines env (.argument slot) u := by
  obtain ⟨n, h⟩ := h
  exact step n fun fuel hfuel => by simp [Expr.inline, hslot, h fuel hfuel]

theorem free {slot : Slot} (hslot : env.lookup slot = none) :
    Inlines env (.argument slot) (.argument slot) :=
  step 0 fun fuel _ => by simp [Expr.inline, hslot]

theorem lambda {depth : Nat} {parameters : List String} (h : Inlines env e u) :
    Inlines env (.lambda depth parameters e) (.lambda depth parameters u) := by
  obtain ⟨n, h⟩ := h
  exact step n fun fuel hfuel => by simp [Expr.inline, h fuel hfuel]

theorem unary (op : UnaryOp) (h : Inlines env e u) : Inlines env (.unary op e) (.unary op u) := by
  obtain ⟨n, h⟩ := h
  exact step n fun fuel hfuel => by simp [Expr.inline, h fuel hfuel]

theorem leftSection (op : BinaryOp) (h : Inlines env e u) :
    Inlines env (.leftSection op e) (.leftSection op u) := by
  obtain ⟨n, h⟩ := h
  exact step n fun fuel hfuel => by simp [Expr.inline, h fuel hfuel]

theorem rightSection (op : BinaryOp) (h : Inlines env e u) :
    Inlines env (.rightSection op e) (.rightSection op u) := by
  obtain ⟨n, h⟩ := h
  exact step n fun fuel hfuel => by simp [Expr.inline, h fuel hfuel]

theorem binary (op : BinaryOp) {r w : Expr} (h : Inlines env e u) (hr : Inlines env r w) :
    Inlines env (.binary op e r) (.binary op u w) := by
  obtain ⟨n, h⟩ := h
  obtain ⟨m, hr⟩ := hr
  exact step (max n m) fun fuel hfuel => by
    simp [Expr.inline, h fuel (by omega), hr fuel (by omega)]

theorem call {a w : Expr} (h : Inlines env e u) (ha : Inlines env a w) :
    Inlines env (.call e a) (.call u w) := by
  obtain ⟨n, h⟩ := h
  obtain ⟨m, ha⟩ := ha
  exact step (max n m) fun fuel hfuel => by
    simp [Expr.inline, h fuel (by omega), ha fuel (by omega)]

theorem conditional {y n y' n' : Expr} (h : Inlines env e u) (hy : Inlines env y y')
    (hn : Inlines env n n') : Inlines env (.conditional e y n) (.conditional u y' n') := by
  obtain ⟨i, h⟩ := h
  obtain ⟨j, hy⟩ := hy
  obtain ⟨k, hn⟩ := hn
  exact step (max i (max j k)) fun fuel hfuel => by
    simp [Expr.inline, h fuel (by omega), hy fuel (by omega), hn fuel (by omega)]

theorem all {xs us : List Expr} (h : List.Forall₂ (Inlines env) xs us) :
    ∃ n, ∀ fuel, n ≤ fuel → xs.mapM (Expr.inline fuel env) = some us := by
  induction h with
  | nil => exact ⟨0, fun _ _ => rfl⟩
  | cons hx _ ih =>
    obtain ⟨n, hx⟩ := hx
    obtain ⟨m, hxs⟩ := ih
    refine ⟨max n m, fun fuel hfuel => ?_⟩
    rw [List.mapM_cons, hx fuel (by omega), hxs fuel (by omega)]
    rfl

theorem applied {args us : List Expr} (h : Inlines env e u)
    (hargs : List.Forall₂ (Inlines env) args us) :
    Inlines env (.applied e args) (.applied u us) := by
  obtain ⟨n, h⟩ := h
  obtain ⟨m, hargs⟩ := all hargs
  exact step (max n m) fun fuel hfuel => by
    simp [Expr.inline, h fuel (by omega), hargs fuel (by omega)]

theorem callAll {args us : List Expr} (h : Inlines env e u)
    (hargs : List.Forall₂ (Inlines env) args us) : Inlines env (e.callAll args) (u.callAll us) := by
  induction hargs generalizing e u with
  | nil => exact h
  | cons ha _ ih => exact ih (h.call ha)

theorem items {xs us : List Expr} {own here : Env} (cell : Option Nat)
    (h : List.Forall₂ (Inlines (own.orElse here)) xs us) :
    Inlines here (.list (.items xs own cell)) (.literal us) := by
  obtain ⟨n, h⟩ := all h
  exact step_list n fun fuel hfuel => by simp [LazyList.inline, h fuel hfuel]

theorem option {o o' : Option Expr} (h : Option.Rel (Inlines env) o o') :
    ∃ n, ∀ fuel, n ≤ fuel → o.mapM (Expr.inline fuel env) = some o' := by
  cases h with
  | none => exact ⟨0, fun _ _ => rfl⟩
  | some h =>
    obtain ⟨n, h⟩ := h
    exact ⟨n, fun fuel hfuel => by simp [Option.mapM, h fuel hfuel]⟩

theorem range {second stop second' stop' : Option Expr} (h : Inlines env e u)
    (hsecond : Option.Rel (Inlines env) second second')
    (hstop : Option.Rel (Inlines env) stop stop') :
    Inlines env (.range e second stop) (.range u second' stop') := by
  obtain ⟨i, h⟩ := h
  obtain ⟨j, hsecond⟩ := option hsecond
  obtain ⟨k, hstop⟩ := option hstop
  exact step (max i (max j k)) fun fuel hfuel => by
    simp [Expr.inline, h fuel (by omega), hsecond fuel (by omega), hstop fuel (by omega)]

theorem interpolated {fs gs : List Fragment} (h : List.Forall₂ (FragmentLike (Inlines env)) fs gs) :
    Inlines env (.interpolated fs) (.interpolated gs) := by
  have hall : ∃ n, ∀ fuel, n ≤ fuel →
      fs.mapM (inlineFragment (Expr.inline fuel env)) = some gs := by
    induction h with
    | nil => exact ⟨0, fun _ _ => rfl⟩
    | cons hf _ ih =>
      obtain ⟨m, hfs⟩ := ih
      cases hf with
      | text t => exact ⟨m, fun fuel hfuel => by rw [List.mapM_cons, hfs fuel hfuel]; rfl⟩
      | embedded he =>
        obtain ⟨n, he⟩ := he
        refine ⟨max n m, fun fuel hfuel => ?_⟩
        rw [List.mapM_cons, hfs fuel (by omega)]
        simp [inlineFragment, he fuel (by omega)]
  obtain ⟨n, hall⟩ := hall
  exact step n fun fuel hfuel => by
    rw [Expr.inline_interpolated, hall fuel hfuel, Option.map_some]

/-- A view that keeps a value beside its list. -/
theorem view (make : Expr → LazyList → LazyList) {l l' : LazyList}
    (hmake : ∀ fuel, (make e l).inline (fuel + 1) env = do
      let u ← e.inline fuel env
      let l' ← l.inline fuel env
      return make u l')
    (h : Inlines env e u) (hl : Inlines env (.list l) (.list l')) :
    Inlines env (.list (make e l)) (.list (make u l')) := by
  obtain ⟨n, h⟩ := h
  obtain ⟨_, heq, m, hl⟩ := hl.list_inv
  cases heq
  exact step_list (max n m) fun fuel hfuel => by
    rw [hmake, h fuel (by omega), hl fuel (by omega)]
    rfl

theorem concat {a b a' b' : LazyList} (ha : Inlines env (.list a) (.list a'))
    (hb : Inlines env (.list b) (.list b')) :
    Inlines env (.list (.concat a b)) (.list (.concat a' b')) := by
  obtain ⟨_, heq, n, ha⟩ := ha.list_inv
  cases heq
  obtain ⟨_, heq, m, hb⟩ := hb.list_inv
  cases heq
  exact step_list (max n m) fun fuel hfuel => by
    simp [LazyList.inline, ha fuel (by omega), hb fuel (by omega)]

theorem dropped (count : Nat) (h : Inlines env (.list l) (.list l')) :
    Inlines env (.list (.dropped count l)) (.list (.dropped count l')) := by
  obtain ⟨_, heq, n, h⟩ := h.list_inv
  cases heq
  exact step_list n fun fuel hfuel => by simp [LazyList.inline, h fuel hfuel]

theorem function (f : Function) : Inlines env (.function f) (.function f) :=
  step 0 fun _ _ => by simp [Expr.inline]

theorem atom (h : e.isAtom = true) : Inlines env e e :=
  step 0 fun _ _ => by cases e <;> first | rfl | cases h

theorem progression (p : Progression) :
    Inlines env (.list (.progression p)) (.list (.progression p)) :=
  step_list 0 fun _ _ => by simp [LazyList.inline]

end Inlines

/-! ## 2. Texts of forms -/

namespace SameText

variable {u u' v v' : Expr}

theorem rfl : SameText u u := ⟨Eq.refl _, Eq.refl _⟩

theorem symm (h : SameText u v) : SameText v u := ⟨h.1.symm, h.2.symm⟩

theorem trans {w : Expr} (h : SameText u v) (h' : SameText v w) : SameText u w :=
  ⟨h'.1.trans h.1, h'.2.trans h.2⟩

theorem elements {us vs : List Expr} (h : List.Forall₂ SameText us vs) :
    SameText (.literal us) (.literal vs) :=
  ⟨source_items_congr (h.imp fun _ _ h => h.1) .top .top none none, Eq.refl _⟩

theorem arguments {us vs : List Expr} (h : List.Forall₂ SameText us vs) :
    argumentsSource vs = argumentsSource us := by
  induction h with
  | nil => exact Eq.refl _
  | cons hx _ ih => rw [argumentsSource, argumentsSource, hx.1, hx.2, ih]

theorem fragments {fs gs : List Fragment} (h : List.Forall₂ (FragmentLike SameText) fs gs) :
    fragmentsSource gs = fragmentsSource fs := by
  induction h with
  | nil => exact Eq.refl _
  | cons hf _ ih =>
    cases hf with
    | text t => rw [fragmentsSource, fragmentsSource, ih]
    | embedded he => rw [fragmentsSource, fragmentsSource, he.1, ih]

theorem range {second stop second' stop' : Option Expr} (h : SameText u v)
    (hsecond : Option.Rel SameText second second') (hstop : Option.Rel SameText stop stop') :
    SameText (.range u second stop) (.range v second' stop') := by
  have hsource : (Expr.range v second' stop').source = (Expr.range u second stop).source := by
    cases hsecond with
    | none =>
      cases hstop with
      | none => simp only [Expr.source, h.1]
      | some hstop => simp only [Expr.source, h.1, hstop.1]
    | some hsecond =>
      cases hstop with
      | none => simp only [Expr.source, h.1, hsecond.1]
      | some hstop => simp only [Expr.source, h.1, hsecond.1, hstop.1]
  exact ⟨hsource, Eq.refl _⟩

/-- An operation is written with its sign between blanks. -/
theorem binary_source (op : BinaryOp) {sign : String} (h : " " ++ op.symbol ++ " " = sign) :
    (Expr.binary op u v).source = bracketed op.leftPrecedence u.precedence u.source ++ sign ++
      bracketed op.rightPrecedence v.precedence v.source := by
  rw [Expr.source, ← h]
  simp only [String.append_assoc]

theorem prepend (l : LazyList) :
    SameText (.list (.prepend u l)) (.binary .prepend u (.list l)) :=
  ⟨binary_source .prepend (by decide), Eq.refl _⟩

theorem concat (a b : LazyList) :
    SameText (.list (.concat a b)) (.binary .concat (.list a) (.list b)) :=
  ⟨binary_source .concat (by decide), Eq.refl _⟩

/-- A call of a built-in function with two arguments. -/
theorem call_source (b : Builtin) (name : String) (h : b.name ++ " " = name) :
    (Expr.call (.call (.function b.toFunction) u) v).source =
      name ++ bracketed Precedence.atom u.precedence u.source ++ " " ++
        bracketed Precedence.atom v.precedence v.source := by
  rw [← h]
  rfl

theorem mapped (l : LazyList) :
    SameText (.list (.mapped u l)) (.call (.call (.function Builtin.map.toFunction) u) (.list l)) :=
  ⟨call_source .map "map " (by decide), Eq.refl _⟩

theorem filtered (l : LazyList) :
    SameText (.list (.filtered u l))
      (.call (.call (.function Builtin.filter.toFunction) u) (.list l)) :=
  ⟨call_source .filter "filter " (by decide), Eq.refl _⟩

theorem dropped {count : Nat} (hcount : count < 2 ^ 63) (l : LazyList) :
    SameText (.list (.dropped count l))
      (.call (.call (.function Builtin.drop.toFunction) (.integer (.ofNat count))) (.list l)) := by
  have hint : (Int64.ofNat count).toInt = count := Int64.toInt_ofNat_of_lt hcount
  have hnonneg : 0 ≤ (Int64.ofNat count).toInt := by omega
  have hsource : (Expr.integer (.ofNat count)).source = String.ofList (Nat.toDigits 10 count) := by
    show (Number.integer _).source = _
    rw [source_integer hnonneg, hint]
    rfl
  have hprecedence : (Expr.integer (.ofNat count)).precedence = Precedence.atom := by
    have hneg : ¬ Int64.ofNat count < 0 := by simpa [Int64.lt_iff_toInt_lt] using hnonneg
    simp [Expr.integer, Expr.precedence, Number.precedence, Number.isNegative, hneg]
  refine ⟨(call_source .drop "drop " (by decide)).trans ?_, Eq.refl _⟩
  rw [hsource, hprecedence]
  rfl

/-- What a function has received is written like the calls that gave it. -/
theorem applied {us : List Expr} (h : us ≠ []) : SameText (.applied u us) (u.callAll us) := by
  have hsource : ∀ {us : List Expr} {u : Expr}, us ≠ [] → (u.callAll us).source =
      bracketed Precedence.application u.precedence u.source ++ argumentsSource us ∧
        (u.callAll us).precedence = Precedence.application := by
    intro us
    induction us with
    | nil => exact fun h => absurd (Eq.refl _) h
    | cons a us ih =>
      intro u _
      have hfirst : (Expr.call u a).source =
        bracketed Precedence.application u.precedence u.source ++
          (" " ++ bracketed Precedence.atom a.precedence a.source) := by
        rw [Expr.source, String.append_assoc]
      cases us with
      | nil => exact ⟨by simpa [Expr.callAll, argumentsSource] using hfirst, Eq.refl _⟩
      | cons b us =>
        obtain ⟨hmore, hprecedence⟩ := @ih (.call u a) (List.cons_ne_nil b us)
        refine ⟨?_, hprecedence⟩
        have hopen : bracketed Precedence.application (Expr.call u a).precedence
          (Expr.call u a).source = (Expr.call u a).source := if_neg (Nat.lt_irrefl _)
        rw [show u.callAll (a :: b :: us) = (Expr.call u a).callAll (b :: us)
          from Eq.refl _, hmore, hopen, hfirst]
        simp only [argumentsSource, String.append_assoc]
  exact hsource h

end SameText

/-! ## 3. Shown alike -/

/-- With the arguments of their environments in their places, the two are written alike. -/
def ShownAlike (env env' : Env) (e e' : Expr) : Prop :=
  ∃ u u', Inlines env e u ∧ Inlines env' e' u' ∧ SameText u u'

theorem forall₂_choose {α β γ δ : Type} {R : α → γ → Prop} {S : β → δ → Prop} {T : γ → δ → Prop}
    {xs : List α} {ys : List β} (h : List.Forall₂ (fun x y => ∃ u v, R x u ∧ S y v ∧ T u v) xs ys) :
    ∃ us vs, List.Forall₂ R xs us ∧ List.Forall₂ S ys vs ∧ List.Forall₂ T us vs := by
  induction h with
  | nil => exact ⟨[], [], .nil, .nil, .nil⟩
  | cons hxy _ ih =>
    obtain ⟨u, v, hx, hy, huv⟩ := hxy
    obtain ⟨us, vs, hxs, hys, huvs⟩ := ih
    exact ⟨u :: us, v :: vs, .cons hx hxs, .cons hy hys, .cons huv huvs⟩

namespace ShownAlike

variable {env env' env'' : Env} {e e' : Expr}

theorem symm (h : ShownAlike env env' e e') : ShownAlike env' env e' e := by
  obtain ⟨u, u', he, he', htext⟩ := h
  exact ⟨u', u, he', he, htext.symm⟩

theorem trans {e'' : Expr} (h : ShownAlike env env' e e') (h' : ShownAlike env' env'' e' e'') :
    ShownAlike env env'' e e'' := by
  obtain ⟨u, v, he, he', htext⟩ := h
  obtain ⟨v', w, hv, he'', htext'⟩ := h'
  cases he'.unique hv
  exact ⟨u, w, he, he'', htext.trans htext'⟩

theorem bound {slot : Slot} {v : Expr} (hslot : env.lookup slot = some v)
    (h : ShownAlike env env' v e') : ShownAlike env env' (.argument slot) e' := by
  obtain ⟨u, u', hv, he', htext⟩ := h
  exact ⟨u, u', hv.bound hslot, he', htext⟩

theorem free {slot slot' : Slot} (hslot : env.lookup slot = none)
    (hslot' : env'.lookup slot' = none)
    (hname : slot.name = slot'.name) : ShownAlike env env' (.argument slot) (.argument slot') :=
  ⟨_, _, .free hslot, .free hslot', by rw [Expr.source, Expr.source, hname], rfl⟩

theorem atom (h : e.isAtom = true) : ShownAlike env env' e e := ⟨e, e, .atom h, .atom h, .rfl⟩

theorem function (f : Function) : ShownAlike env env' (.function f) (.function f) :=
  ⟨_, _, .function f, .function f, .rfl⟩

theorem progression (p : Progression) :
    ShownAlike env env' (.list (.progression p)) (.list (.progression p)) :=
  ⟨_, _, .progression p, .progression p, .rfl⟩

theorem lambda {depth depth' : Nat} {parameters : List String} (h : ShownAlike env env' e e') :
    ShownAlike env env' (.lambda depth parameters e) (.lambda depth' parameters e') := by
  obtain ⟨u, u', he, he', htext⟩ := h
  exact ⟨_, _, he.lambda, he'.lambda, by rw [Expr.source, Expr.source, htext.1], rfl⟩

/-- A closure is shown as the lambda that it is made of is shown where it was made. -/
theorem closure {depth : Nat} {parameters : List String} {here : Env}
    (h : ShownAlike env env' (.lambda depth parameters e) e') :
    ShownAlike here env' (.closure depth parameters e env) e' := by
  obtain ⟨_, u', ⟨n, he⟩, he', htext⟩ := h
  have hfirst := he (n + 1) (Nat.le_succ n)
  rw [Expr.inline, Option.map_eq_some_iff] at hfirst
  obtain ⟨u, -, rfl⟩ := hfirst
  refine ⟨_, u', ⟨n + 1, fun fuel hfuel => ?_⟩, he', htext⟩
  obtain ⟨fuel, rfl⟩ : ∃ f, fuel = f + 1 := ⟨fuel - 1, by omega⟩
  have hlambda := he (fuel + 1) (by omega)
  rw [Expr.inline] at hlambda
  rw [Expr.inline, hlambda]

theorem unary (op : UnaryOp) (h : ShownAlike env env' e e') :
    ShownAlike env env' (.unary op e) (.unary op e') := by
  obtain ⟨u, u', he, he', htext⟩ := h
  exact ⟨_, _, he.unary op, he'.unary op, by rw [Expr.source, Expr.source, htext.1, htext.2], rfl⟩

theorem leftSection (op : BinaryOp) (h : ShownAlike env env' e e') :
    ShownAlike env env' (.leftSection op e) (.leftSection op e') := by
  obtain ⟨u, u', he, he', htext⟩ := h
  exact ⟨_, _, he.leftSection op, he'.leftSection op,
    by rw [Expr.source, Expr.source, htext.1, htext.2], rfl⟩

theorem rightSection (op : BinaryOp) (h : ShownAlike env env' e e') :
    ShownAlike env env' (.rightSection op e) (.rightSection op e') := by
  obtain ⟨u, u', he, he', htext⟩ := h
  exact ⟨_, _, he.rightSection op, he'.rightSection op,
    by rw [Expr.source, Expr.source, htext.1, htext.2], rfl⟩

theorem binary (op : BinaryOp) {r r' : Expr} (h : ShownAlike env env' e e')
    (hr : ShownAlike env env' r r') : ShownAlike env env' (.binary op e r) (.binary op e' r') := by
  obtain ⟨u, u', he, he', htext⟩ := h
  obtain ⟨w, w', hr, hr', htext'⟩ := hr
  exact ⟨_, _, he.binary op hr, he'.binary op hr',
    by rw [Expr.source, Expr.source, htext.1, htext.2, htext'.1, htext'.2], rfl⟩

theorem call {a a' : Expr} (h : ShownAlike env env' e e') (ha : ShownAlike env env' a a') :
    ShownAlike env env' (.call e a) (.call e' a') := by
  obtain ⟨u, u', he, he', htext⟩ := h
  obtain ⟨w, w', ha, ha', htext'⟩ := ha
  exact ⟨_, _, he.call ha, he'.call ha',
    by rw [Expr.source, Expr.source, htext.1, htext.2, htext'.1, htext'.2], rfl⟩

theorem conditional {y n y' n' : Expr} (h : ShownAlike env env' e e')
    (hy : ShownAlike env env' y y') (hn : ShownAlike env env' n n') :
    ShownAlike env env' (.conditional e y n) (.conditional e' y' n') := by
  obtain ⟨u, u', he, he', htext⟩ := h
  obtain ⟨v, v', hy, hy', htexty⟩ := hy
  obtain ⟨w, w', hn, hn', htextn⟩ := hn
  exact ⟨_, _, he.conditional hy hn, he'.conditional hy' hn',
    by rw [Expr.source, Expr.source, htext.1, htexty.1, htextn.1], rfl⟩

theorem option {o o' : Option Expr} (h : Option.Rel (ShownAlike env env') o o') :
    ∃ v v', Option.Rel (Inlines env) o v ∧ Option.Rel (Inlines env') o' v' ∧
      Option.Rel SameText v v' := by
  cases h with
  | none => exact ⟨none, none, .none, .none, .none⟩
  | some h =>
    obtain ⟨u, u', he, he', htext⟩ := h
    exact ⟨some u, some u', .some he, .some he', .some htext⟩

theorem range {second second' stop stop' : Option Expr} (h : ShownAlike env env' e e')
    (hsecond : Option.Rel (ShownAlike env env') second second')
    (hstop : Option.Rel (ShownAlike env env') stop stop') :
    ShownAlike env env' (.range e second stop) (.range e' second' stop') := by
  obtain ⟨u, u', he, he', htext⟩ := h
  obtain ⟨v, v', hs, hs', htexts⟩ := option hsecond
  obtain ⟨w, w', ht, ht', htextt⟩ := option hstop
  exact ⟨_, _, he.range hs ht, he'.range hs' ht', htext.range htexts htextt⟩

theorem interpolated {fs fs' : List Fragment}
    (h : List.Forall₂ (FragmentLike (ShownAlike env env')) fs fs') :
    ShownAlike env env' (.interpolated fs) (.interpolated fs') := by
  have hpairs : List.Forall₂ (fun f f' => ∃ g g', FragmentLike (Inlines env) f g ∧
      FragmentLike (Inlines env') f' g' ∧ FragmentLike SameText g g') fs fs' := by
    refine h.imp fun f f' hf => ?_
    cases hf with
    | text t => exact ⟨_, _, .text t, .text t, .text t⟩
    | embedded he =>
      obtain ⟨u, u', he, he', htext⟩ := he
      exact ⟨_, _, .embedded he, .embedded he', .embedded htext⟩
  obtain ⟨gs, gs', hgs, hgs', htexts⟩ := forall₂_choose hpairs
  exact ⟨_, _, .interpolated hgs, .interpolated hgs',
    by rw [Expr.source, Expr.source, SameText.fragments htexts], rfl⟩

theorem items {xs xs' : List Expr} {own own' : Env} (cell cell' : Option Nat)
    (h : List.Forall₂ (ShownAlike (own.orElse env) (own'.orElse env')) xs xs') :
    ShownAlike env env' (.list (.items xs own cell)) (.list (.items xs' own' cell')) := by
  obtain ⟨us, us', hxs, hxs', htexts⟩ := forall₂_choose h
  exact ⟨_, _, .items cell hxs, .items cell' hxs', SameText.elements htexts⟩

theorem applied {args args' : List Expr} (h : ShownAlike env env' e e')
    (hargs : List.Forall₂ (ShownAlike env env') args args') :
    ShownAlike env env' (.applied e args) (.applied e' args') := by
  obtain ⟨u, u', he, he', htext⟩ := h
  obtain ⟨us, us', has, has', htexts⟩ := forall₂_choose hargs
  refine ⟨_, _, he.applied has, he'.applied has', ?_, rfl⟩
  rw [Expr.source, Expr.source, htext.1, htext.2, SameText.arguments htexts]

/-! ## 4. Values that are written as another form -/

/-- What is on the right is shown like itself. -/
theorem right (h : ShownAlike env env' e e') : ShownAlike env' env' e' e' := h.symm.trans h

theorem left (h : ShownAlike env env' e e') : ∃ u, Inlines env e u := by
  obtain ⟨u, -, he, -⟩ := h
  exact ⟨u, he⟩

theorem left_list {l : LazyList} (h : ShownAlike env env' (.list l) e') :
    ∃ l', Inlines env (.list l) (.list l') := by
  obtain ⟨u, hl⟩ := h.left
  obtain ⟨l', rfl, -⟩ := hl.list_inv
  exact ⟨l', hl⟩

/-- A number without a bracket of its own is written as its spelling. -/
theorem spelling {n : Number} (h : SameText (.number n) n.spelling)
    (hspelling : Inlines env' n.spelling n.spelling) :
    ShownAlike env env' (.number n) n.spelling :=
  ⟨_, _, .atom rfl, hspelling, h⟩

theorem prepend {l : LazyList} {t' : Expr} (h : ShownAlike env env' e e')
    (ht : ShownAlike env env' (.list l) t') :
    ShownAlike env env' (.list (.prepend e l)) (.binary .prepend e' t') := by
  obtain ⟨u, he⟩ := h.left
  obtain ⟨l', hl⟩ := ht.left_list
  have hcode : ShownAlike env env (.list (.prepend e l)) (.binary .prepend e (.list l)) :=
    ⟨_, _, he.view .prepend (fun _ => rfl) hl, he.binary .prepend hl, .prepend l'⟩
  exact hcode.trans (h.binary .prepend ht)

theorem concat {a b : LazyList} {a' b' : Expr} (ha : ShownAlike env env' (.list a) a')
    (hb : ShownAlike env env' (.list b) b') :
    ShownAlike env env' (.list (.concat a b)) (.binary .concat a' b') := by
  obtain ⟨u, hu⟩ := ha.left_list
  obtain ⟨v, hv⟩ := hb.left_list
  have hcode : ShownAlike env env (.list (.concat a b)) (.binary .concat (.list a) (.list b)) :=
    ⟨_, _, hu.concat hv, hu.binary .concat hv, .concat u v⟩
  exact hcode.trans (ha.binary .concat hb)

/-- A view of a value and a list is shown as the call of the function `f` that makes it. -/
theorem view (make : Expr → LazyList → LazyList) (f : Function) {l : LazyList} {s' : Expr}
    (hmake : ∀ fuel, (make e l).inline (fuel + 1) env = do
      let u ← e.inline fuel env
      let l' ← l.inline fuel env
      return make u l')
    (htext : ∀ u l', SameText (.list (make u l')) (.call (.call (.function f) u) (.list l')))
    (h : ShownAlike env env' e e') (hs : ShownAlike env env' (.list l) s') :
    ShownAlike env env' (.list (make e l)) (.call (.call (.function f) e') s') := by
  obtain ⟨u, he⟩ := h.left
  obtain ⟨l', hl⟩ := hs.left_list
  have hcode : ShownAlike env env (.list (make e l)) (.call (.call (.function f) e) (.list l)) :=
    ⟨_, _, he.view make hmake hl, ((Inlines.function f).call he).call hl, htext u l'⟩
  exact hcode.trans (((function f).call h).call hs)

theorem mapped {l : LazyList} {s' : Expr} (h : ShownAlike env env' e e')
    (hs : ShownAlike env env' (.list l) s') :
    ShownAlike env env' (.list (.mapped e l))
      (.call (.call (.function Builtin.map.toFunction) e') s') :=
  view .mapped _ (fun _ => rfl) (fun _ => .mapped) h hs

theorem filtered {l : LazyList} {s' : Expr} (h : ShownAlike env env' e e')
    (hs : ShownAlike env env' (.list l) s') :
    ShownAlike env env' (.list (.filtered e l))
      (.call (.call (.function Builtin.filter.toFunction) e') s') :=
  view .filtered _ (fun _ => rfl) (fun _ => .filtered) h hs

/-- Views that leave out the same number of elements. -/
theorem dropped_list (count : Nat) {l l' : LazyList}
    (h : ShownAlike env env' (.list l) (.list l')) :
    ShownAlike env env' (.list (.dropped count l)) (.list (.dropped count l')) := by
  obtain ⟨u, u', hl, hl', htext⟩ := h
  obtain ⟨k, rfl, -⟩ := hl.list_inv
  obtain ⟨k', rfl, -⟩ := hl'.list_inv
  refine ⟨_, _, hl.dropped count, hl'.dropped count, ?_, rfl⟩
  have hsource : k'.source = k.source := htext.1
  have hprecedence : k'.precedence = k.precedence := htext.2
  rw [Expr.source, Expr.source, LazyList.source, LazyList.source, hsource, hprecedence]

theorem dropped {l : LazyList} {s' : Expr} {count : Nat} (hcount : count < 2 ^ 63)
    (hs : ShownAlike env env' (.list l) s') :
    ShownAlike env env' (.list (.dropped count l))
      (.call (.call (.function Builtin.drop.toFunction) (.integer (.ofNat count))) s') := by
  obtain ⟨l', hl⟩ := hs.left_list
  have hcode : ShownAlike env env (.list (.dropped count l))
      (.call (.call (.function Builtin.drop.toFunction) (.integer (.ofNat count))) (.list l)) :=
    ⟨_, _, hl.dropped count, ((Inlines.function _).call (.atom rfl)).call hl, .dropped hcount l'⟩
  exact hcode.trans (((function _).call (atom rfl)).call hs)

/-- The calls that gave a function what it has received. -/
theorem received {args args' : List Expr} (h : ShownAlike env env' e e')
    (hargs : List.Forall₂ (ShownAlike env env') args args') (hne : args ≠ []) :
    ShownAlike env env' (.applied e args) (e'.callAll args') := by
  obtain ⟨u, u', he, he', htext⟩ := h
  obtain ⟨us, us', has, has', htexts⟩ := forall₂_choose hargs
  have hne' : us' ≠ [] := by
    rintro rfl
    cases htexts
    cases has
    exact hne rfl
  have hsame : SameText (.applied u us) (.applied u' us') := ⟨?_, rfl⟩
  · exact ⟨_, _, he.applied has, he'.callAll has', hsame.trans (.applied hne')⟩
  rw [Expr.source, Expr.source, htext.1, htext.2, SameText.arguments htexts]

end ShownAlike

end LazyExpr
