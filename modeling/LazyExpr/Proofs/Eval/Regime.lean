import LazyExpr.Proofs.Eval.Watched
import LazyExpr.Proofs.Eval.Likeness

/-!
# What every evaluation keeps

A *regime* says which expressions may be evaluated and which values may be met, and what holds of
the machine meanwhile.  If each single thing that an evaluation can do keeps to the regime, then so
does the evaluator as a whole, whatever it is asked for and however it ends.

The predicates of a regime are indexed by worlds that only grow, so that what is known may grow with
the machine.  `Fits` is the invariant of the machine, and `Kept` says what a run leaves of the
machine it began with.  The machine is the watched one, so both may speak of the events; at the same
time it is shown that watching changes nothing.

* `Regime.Holds` — a watched evaluation keeps to the regime, and is the evaluation that is not
  watched.
* `Regime.Laws` — what has to be shown for a regime: one law for each thing that an evaluation can
  do.
* `Regime.Laws.sound` — **the evaluator keeps to every regime that obeys the laws.**
-/

namespace LazyExpr

open Eval

/-! ## 1. Machines without their events -/

section Unwatched

variable {σ γ : Type}

/-- The machine without what stands beside the state of the application. -/
def Machine.unwatched (m : Machine (σ × γ)) : Machine σ :=
  ⟨m.cells, m.depth, m.cancelled, m.checksLeft, m.host.1⟩

/-- The machine with no events beside the state of the application yet. -/
def Machine.observed (m : Machine σ) : Machine (σ × List Event) :=
  ⟨m.cells, m.depth, m.cancelled, m.checksLeft, (m.host, [])⟩

/-- A check does the same without what stands beside the state. -/
theorem check_unwatched (m : Machine (σ × γ)) :
    check m.unwatched = Ended.onMachine Machine.unwatched (check m) := by
  obtain ⟨cells, depth, cancelled, checksLeft, host⟩ := m
  cases cancelled with
  | true => rfl
  | false => rcases checksLeft with _ | _ | left <;> rfl

/-- A check changes no more than whether there is a request to stop, and the deadline. -/
theorem check_machine (m : Machine σ) : ∃ cancelled checksLeft,
    Ended.machine (check m) = { m with cancelled, checksLeft } := by
  obtain ⟨cells, depth, cancelled, checksLeft, host⟩ := m
  cases cancelled with
  | true => exact ⟨_, _, rfl⟩
  | false => rcases checksLeft with _ | _ | left <;> exact ⟨_, _, rfl⟩

/-- Filling a cell does the same without what stands beside the state. -/
theorem fill_unwatched (m : Machine (σ × γ)) (a : Nat) (v : Expr) :
    m.unwatched.fill a v = (m.fill a v).unwatched := by
  rw [fill_eq, fill_eq]
  rfl

end Unwatched

/-! ## 2. Regimes -/

/-- How many arguments a function or a closure collects. -/
def Expr.arity? : Expr → Option Nat
  | .function f => some f.arity
  | .closure _ parameters _ _ => some parameters.length
  | _ => none

/-- An action of the application that gives and hands on nothing but values, and keeps its state, as
long as it is given values. -/
inductive Action.Within {σ World : Type} (le : World → World → Prop) (value : World → Expr → Prop)
    (state : World → σ → Prop) : World → Action σ → Prop where
  | give {w : World} {v : Expr} (hv : value w v) : Within le value state w (.give v)
  | fail {w : World} (fault : Fault) : Within le value state w (.fail fault)
  | read {w : World} {next : σ → Action σ}
    (h : ∀ s, state w s → Within le value state w (next s)) : Within le value state w (.read next)
  | write {w : World} {s : σ} {next : Action σ} (hs : state w s)
    (h : Within le value state w next) : Within le value state w (.write s next)
  | newList {w : World} {xs : List Expr} {next : Expr → Action σ} (hxs : ∀ x ∈ xs, value w x)
    (h : ∀ w' v, le w w' → value w' v → Within le value state w' (next v)) :
    Within le value state w (.newList xs next)
  | display {w : World} {v : Expr} {next : String → Action σ} (hv : value w v)
    (h : ∀ w' text, le w w' → Within le value state w' (next text)) :
    Within le value state w (.display v next)
  | apply {w : World} {f a : Expr} {next : Expr → Action σ} (hf : value w f) (ha : value w a)
    (h : ∀ w' v, le w w' → value w' v → Within le value state w' (next v)) :
    Within le value state w (.apply f a next)
  | cancel {w : World} {next : Action σ} (h : Within le value state w next) :
    Within le value state w (.cancel next)

/-- What may be evaluated, called and held, and what holds of the machine. -/
structure Regime (σ : Type) where
  World : Type
  le : World → World → Prop
  le_refl : ∀ w, le w w
  le_trans : ∀ {w₁ w₂ w₃}, le w₁ w₂ → le w₂ w₃ → le w₁ w₃
  /-- Environments that expressions may be evaluated in. -/
  env : World → Env → Prop
  /-- Expressions that may be evaluated in an environment. -/
  code : World → Env → Expr → Prop
  value : World → Expr → Prop
  /-- Functions that wait for another argument, with those that they have received. -/
  ready : World → (target : Expr) → (received : List Expr) → Prop
  /-- Functions that may be called with these arguments. -/
  callable : World → Code → List Expr → Prop
  /-- States of the application. -/
  state : World → σ → Prop
  /-- Events that may happen. -/
  allowed : World → Event → Prop
  Fits : World → Machine (σ × List Event) → Prop
  /-- What is kept of the machine that a run began with. -/
  Kept : World → Machine (σ × List Event) → Machine (σ × List Event) → Prop
  kept_refl : ∀ {w m}, Kept w m m
  kept_trans : ∀ {w w' m m' m''}, Kept w m m' → le w w' → Kept w' m' m'' → Kept w m m''

namespace Regime

variable {σ : Type} (R : Regime σ)

/-- The lists of a regime. -/
def list (w : R.World) (l : LazyList) : Prop := R.value w (.list l)

/-- A result that, unless it is a fault, has a property. -/
def Outcome {α : Type} (P : R.World → α → Prop) (w : R.World) : Except Fault α → Prop
  | .ok a => P w a
  | .error _ => True

/-- What taking the first element off a list gives: a list that remains, and maybe an element. -/
def Stepped (w : R.World) (step : Step) : Prop :=
  R.list w step.rest ∧ ∀ x, step.outcome = .ok (some x) → R.value w x

/-- The watched run of an evaluation from a machine that fits keeps to the regime, whatever its end,
and is otherwise the run that is not watched. -/
structure Run {α : Type} (w : R.World) (P : R.World → α → Prop) (m : Machine (σ × List Event))
    (r : Ended (σ × List Event) α) (r' : Ended σ α) : Prop where
  same : r' = Ended.onMachine Machine.unwatched r
  ends : ∃ w', R.le w w' ∧ R.Fits w' r.machine ∧ R.Kept w m r.machine ∧
    ∀ a m', r = .ok a m' → P w' a

/-- An evaluation keeps to the regime, and watching it changes nothing. -/
def Holds {α : Type} (w : R.World) (P : R.World → α → Prop) (x : Eval (σ × List Event) α)
    (y : Eval σ α) : Prop :=
  ∀ m, R.Fits w m → R.Run w P m (x m) (y m.unwatched)

/-! ## 3. Composition -/

section Composition

variable {R} {α β : Type} {w : R.World} {P : R.World → α → Prop} {Q : R.World → β → Prop}

theorem Run.ok {m m' : Machine (σ × List Event)} {a : α} {w' : R.World} (hle : R.le w w')
    (hfits : R.Fits w' m') (hkept : R.Kept w m m') (h : P w' a) :
    R.Run w P m (.ok a m') (.ok a m'.unwatched) where
  same := rfl
  ends := by
    refine ⟨w', hle, hfits, hkept, ?_⟩
    rintro _ _ ⟨⟩
    exact h

theorem Run.error {m m' : Machine (σ × List Event)} {halt : Halt} {w' : R.World} (hle : R.le w w')
    (hfits : R.Fits w' m') (hkept : R.Kept w m m') :
    R.Run w P m (.error halt m') (.error halt m'.unwatched) where
  same := rfl
  ends := by
    refine ⟨w', hle, hfits, hkept, ?_⟩
    rintro _ _ ⟨⟩

theorem Run.andThen {m : Machine (σ × List Event)} {r : Ended (σ × List Event) α} {r' : Ended σ α}
    {f : α → Eval (σ × List Event) β} {g : α → Eval σ β} (h : R.Run w P m r r')
    (hf : ∀ w' a, R.le w w' → P w' a → R.Holds w' Q (f a) (g a)) :
    R.Run w Q m (r.andThen f) (r'.andThen g) := by
  obtain ⟨rfl, w', hle, hfits, hkept, hP⟩ := h
  cases r with
  | error halt m' => exact .error hle hfits hkept
  | ok a m' =>
    obtain ⟨hsame, w'', hle', hfits', hkept', hQ⟩ := hf w' a hle (hP a m' rfl) m' hfits
    exact ⟨hsame, w'', R.le_trans hle hle', hfits', R.kept_trans hkept hle hkept', hQ⟩

theorem Holds.pure {a : α} (h : P w a) : R.Holds w P (pure a) (pure a) := by
  intro m hm
  exact Run.ok (R.le_refl w) hm R.kept_refl h

theorem Holds.halt (halt : Halt) : R.Holds w P (throw halt) (throw halt) := by
  intro m hm
  exact Run.error (R.le_refl w) hm R.kept_refl

theorem Holds.fail (fault : Fault) : R.Holds w P (fail fault) (fail fault) := Holds.halt _

theorem Holds.outOfFuel : R.Holds w P outOfFuel outOfFuel := Holds.halt _

theorem Holds.bind {x : Eval (σ × List Event) α} {y : Eval σ α} {f : α → Eval (σ × List Event) β}
    {g : α → Eval σ β} (hx : R.Holds w P x y)
    (hf : ∀ w' a, R.le w w' → P w' a → R.Holds w' Q (f a) (g a)) :
    R.Holds w Q (x >>= f) (y >>= g) := by
  intro m hm
  rw [bind_run, bind_run]
  exact (hx m hm).andThen hf

theorem Holds.lift {r : Except Fault α} (h : ∀ a, r = .ok a → P w a) :
    R.Holds w P (lift r) (lift r) := by
  cases r with
  | ok a => exact .pure (h a rfl)
  | error fault => exact .fail fault

theorem Holds.fueled {o : Option α} (h : ∀ a, o = some a → P w a) :
    R.Holds w P (fueled o) (fueled o) := by
  cases o with
  | some a => exact .pure (h a rfl)
  | none => exact .outOfFuel

theorem Holds.attempt {x : Eval (σ × List Event) α} {y : Eval σ α} (h : R.Holds w P x y) :
    R.Holds w (R.Outcome P) (attempt x) (attempt y) := by
  intro m hm
  obtain ⟨hsame, w', hle, hfits, hkept, hP⟩ := h m hm
  simp only [Eval.attempt, hsame]
  generalize x m = r at hfits hkept hP ⊢
  rcases r with ⟨a, m'⟩ | ⟨_ | _, m'⟩
  · exact .ok hle hfits hkept (hP a m' rfl)
  · exact .ok hle hfits hkept trivial
  · exact .error hle hfits hkept

end Composition

/-! ## 4. The laws -/

/-- What is known of an expression that may be evaluated, by its form. -/
def CodeForm (S : Setting σ) (w : R.World) (here : Env) : Expr → Prop
  | .function f => if f.arity = 0 then R.callable w f.code [] else R.value w (.function f)
  | .list (.items xs own _) => R.env w (own.orElse here) ∧ ∀ x ∈ xs, R.code w (own.orElse here) x
  | .range start second stop =>
    R.code w here start ∧ (∀ e ∈ second, R.code w here e) ∧ ∀ e ∈ stop, R.code w here e
  | .call f a => R.code w here f ∧ R.code w here a
  | .lambda depth parameters body => R.value w (.closure depth parameters body here)
  | .argument slot => ∀ v, S.find slot here = some v → R.value w v
  | .unary _ e | .leftSection _ e | .rightSection _ e => R.code w here e
  | .binary _ l r => R.code w here l ∧ R.code w here r
  | .conditional c y n => R.code w here c ∧ R.code w here y ∧ R.code w here n
  | .interpolated fragments => ∀ e, .embedded e ∈ fragments → R.code w here e
  | e => R.value w e

/-- What is known of a list, by its form. -/
def ListForm (w : R.World) : LazyList → Prop
  | .items [] _ _ | .progression _ => True
  | .items (x :: xs) env cell => R.code w env x ∧ R.list w (.items xs env (cell.map (· + 1)))
  | .prepend head tail => R.value w head ∧ R.list w tail
  | .concat first second => R.list w first ∧ R.list w second
  | .mapped f source | .filtered f source => R.value w f ∧ R.list w source
  | .dropped _ source => R.list w source

/-- What is known of a value, by its form. -/
def ValueForm (w : R.World) : Expr → Prop
  | .function f => R.ready w (.function f) []
  | .closure depth parameters body env => R.ready w (.closure depth parameters body env) []
  | .applied target received => R.ready w target received
  | .leftSection _ v | .rightSection _ v => R.value w v
  | .list l => R.ListForm w l
  | _ => True

/-- Values that are made of others. -/
inductive Made (w : R.World) : Expr → Prop where
  | atom {e : Expr} (h : e.isAtom = true) : Made w e
  | leftSection (op : BinaryOp) {v : Expr} (h : R.value w v) : Made w (.leftSection op v)
  | rightSection (op : BinaryOp) {v : Expr} (h : R.value w v) : Made w (.rightSection op v)
  | applied {f a : Expr} {received : List Expr} {k : Nat} (hf : R.ready w f received)
    (ha : R.value w a) (hk : f.arity? = some k) (h : (received ++ [a]).length < k) :
    Made w (.applied f (received ++ [a]))
  | progression (range : Progression) : Made w (.list (.progression range))
  | empty : Made w (.list .empty)
  | prepend {v : Expr} {l : LazyList} (hv : R.value w v) (hl : R.list w l) :
    Made w (.list (.prepend v l))
  | concat {l l' : LazyList} (hl : R.list w l) (hl' : R.list w l') : Made w (.list (.concat l l'))
  | mapped {f : Expr} {l : LazyList} (hf : R.value w f) (hl : R.list w l) :
    Made w (.list (.mapped f l))
  | filtered {p : Expr} {l : LazyList} (hp : R.value w p) (hl : R.list w l) :
    Made w (.list (.filtered p l))
  | dropped (count : Nat) {l : LazyList} (hl : R.list w l) : Made w (.list (.dropped count l))

/-- The machine one level deeper, with the note of it. -/
def opened (m : Machine (σ × List Event)) : Machine (σ × List Event) :=
  (Watch.log σ).after .opened { m with depth := m.depth + 1 }

/-- The machine back at a level, with the note of it. -/
def closed (depth : Nat) (m : Machine (σ × List Event)) : Machine (σ × List Event) :=
  { (Watch.log σ).after .closed m with depth }

/-- The machine with new cells, with the note of it. -/
def extended (count : Nat) (m : Machine (σ × List Event)) : Machine (σ × List Event) :=
  { (Watch.log σ).after (.made m.cells.size count) m with
    cells := m.cells ++ Array.replicate count none }

/-- What a regime has to obey, one law for each thing that an evaluation can do. -/
structure Laws (S : Setting σ) : Prop where
  code_mono : ∀ {w w' here e}, R.le w w' → R.code w here e → R.code w' here e
  value_mono : ∀ {w w' v}, R.le w w' → R.value w v → R.value w' v
  env_top : ∀ w, R.env w .top
  /-- A value may be evaluated once more. -/
  code_top : ∀ {w v}, R.value w v → R.code w .top v
  code_form : ∀ {w here e}, R.code w here e → R.CodeForm S w here e
  value_form : ∀ {w v}, R.value w v → R.ValueForm w v
  value_made : ∀ {w v}, R.Made w v → R.value w v
  ready_frame : ∀ {w depth parameters body here received a},
    R.ready w (.closure depth parameters body here) received → R.value w a →
    ¬ (received ++ [a]).length < parameters.length →
    R.allowed w (.framed parameters (received ++ [a])) ∧
      R.code w (.frame depth parameters (received ++ [a]) here) body
  ready_call : ∀ {w f received a}, R.ready w (.function f) received → R.value w a →
    ¬ (received ++ [a]).length < f.arity → R.callable w f.code (received ++ [a])
  ready_refused : ∀ {w f received}, R.ready w f received → f.arity? = none →
    R.allowed w (.refused f)
  callable_called : ∀ {w code arguments}, R.callable w code arguments →
    R.allowed w (.called code arguments)
  callable_builtin : ∀ {w b arguments}, R.callable w (.builtin b) arguments →
    ∀ a ∈ arguments, R.value w a
  callable_mismatched : ∀ {w b arguments}, R.callable w (.builtin b) arguments →
    arguments.length ≠ b.arity → R.allowed w (.mismatched b arguments)
  callable_foreign : ∀ {w entry arguments}, R.callable w (.foreign entry) arguments →
    (S.host entry arguments).Within R.le R.value R.state w
  /-- Requests to stop and deadlines do not matter. -/
  signal : ∀ {w m}, R.Fits w m → ∀ cancelled checksLeft, R.Fits w { m with cancelled, checksLeft } ∧
    R.Kept w m { m with cancelled, checksLeft }
  note : ∀ {w m event}, R.Fits w m → R.allowed w event →
    R.Fits w ((Watch.log σ).after event m) ∧ R.Kept w m ((Watch.log σ).after event m)
  state : ∀ {w m}, R.Fits w m → R.state w m.host.1
  update : ∀ {w m s}, R.Fits w m → R.state w s → R.Fits w { m with host := (s, m.host.2) } ∧
    R.Kept w m { m with host := (s, m.host.2) }
  opened : ∀ {w m}, R.Fits w m → (∀ l ∈ S.depthLimit, m.depth < l) → R.Fits w (opened m)
  closed : ∀ {w w' m m'}, R.Fits w m → R.le w w' → R.Fits w' m' → R.Kept w (Regime.opened m) m' →
    R.Fits w' (closed m.depth m') ∧ R.Kept w m (closed m.depth m')
  newList : ∀ {w m here xs}, R.Fits w m → R.env w here → (∀ x ∈ xs, R.code w here x) →
    ∃ w', R.le w w' ∧ R.Fits w' (extended xs.length m) ∧ R.Kept w m (extended xs.length m) ∧
      R.list w' (.items xs here (some m.cells.size))
  element : ∀ {w x xs here cell y z}, R.list w (.items (x :: xs) here cell) →
    (∀ w', R.code w' here x → R.Holds w' R.value y z) →
    R.Holds w (R.Outcome R.value) ((Watch.log σ).element S.remembers cell y)
      ((Watch.blind σ).element S.remembers cell z)

/-! ## 5. Single steps -/

section Steps

variable {R} {S : Setting σ} (h : R.Laws S) {α β : Type} {w : R.World} {P : R.World → α → Prop}
include h

theorem holds_check : R.Holds w (fun w' _ => w' = w) check check := by
  intro m hm
  obtain ⟨cancelled, checksLeft, hmachine⟩ := check_machine m
  obtain ⟨hfits, hkept⟩ := h.signal hm cancelled checksLeft
  refine ⟨check_unwatched m, w, R.le_refl w, ?_, ?_, fun _ _ _ => rfl⟩
  · exact hmachine ▸ hfits
  · exact hmachine ▸ hkept

/-- What comes after a check. -/
theorem holds_checked {x : Eval (σ × List Event) α} {y : Eval σ α} (hx : R.Holds w P x y) :
    R.Holds w P (check >>= fun _ => x) (check >>= fun _ => y) := by
  refine (holds_check h).bind ?_
  rintro w' _ - rfl
  exact hx

theorem holds_cancel {x : Eval (σ × List Event) α} {y : Eval σ α} (hx : R.Holds w P x y) :
    R.Holds w P (cancel >>= fun _ => x) (cancel >>= fun _ => y) := by
  refine Holds.bind (P := fun w' _ => w' = w) (fun m hm => ?_) ?_
  · obtain ⟨hfits, hkept⟩ := h.signal hm true m.checksLeft
    exact Run.ok (P := fun w' _ => w' = w) (R.le_refl w) hfits hkept rfl
  · rintro w' _ - rfl
    exact hx

theorem holds_noting {event : Event} {x : Eval (σ × List Event) α} {y : Eval σ α}
    (hevent : R.allowed w event) (hx : R.Holds w P x y) :
    R.Holds w P ((Watch.log σ).noting event >>= fun _ => x)
      ((Watch.blind σ).noting event >>= fun _ => y) := by
  refine Holds.bind (P := fun w' _ => w' = w) (fun m hm => ?_) ?_
  · obtain ⟨hfits, hkept⟩ := h.note hm hevent
    exact Run.ok (P := fun w' _ => w' = w) (R.le_refl w) hfits hkept rfl
  · rintro w' _ - rfl
    exact hx

theorem holds_read {x : σ → Eval (σ × List Event) α} {y : σ → Eval σ α}
    (hx : ∀ s, R.state w s → R.Holds w P (x s) (y s)) :
    R.Holds w P (get >>= fun m => x ((Watch.log σ).state m.host))
      (get >>= fun m => y ((Watch.blind σ).state m.host)) := by
  intro m hm
  exact hx _ (h.state hm) m hm

theorem holds_write {s : σ} {x : Eval (σ × List Event) α} {y : Eval σ α} (hs : R.state w s)
    (hx : R.Holds w P x y) :
    R.Holds w P ((modify fun m => { m with host := (Watch.log σ).update s m.host }) >>= fun _ => x)
      ((modify fun m => { m with host := (Watch.blind σ).update s m.host }) >>= fun _ => y) := by
  refine Holds.bind (P := fun w' _ => w' = w) (fun m hm => ?_) ?_
  · obtain ⟨hfits, hkept⟩ := h.update hm hs
    exact Run.ok (P := fun w' _ => w' = w) (R.le_refl w) hfits hkept rfl
  · rintro w' _ - rfl
    exact hx

theorem holds_makeList {here : Env} {xs : List Expr} (henv : R.env w here)
    (hxs : ∀ x ∈ xs, R.code w here x) :
    R.Holds w R.value ((Watch.log σ).makeList xs here) ((Watch.blind σ).makeList xs here) := by
  intro m hm
  obtain ⟨w', hle, hfits, hkept, hvalue⟩ := h.newList hm henv hxs
  exact Run.ok hle hfits hkept hvalue

theorem holds_makeList_top {vs : List Expr} (hvs : ∀ v ∈ vs, R.value w v) :
    R.Holds w R.value ((Watch.log σ).makeList vs .top) ((Watch.blind σ).makeList vs .top) :=
  holds_makeList h (h.env_top w) fun v hv => h.code_top (hvs v hv)

theorem holds_nested {x : Eval (σ × List Event) Expr} {y : Eval σ Expr}
    (hx : R.Holds w R.value x y) :
    R.Holds w R.value (nested S.depthLimit ((Watch.log σ).during x))
      (nested S.depthLimit ((Watch.blind σ).during y)) := by
  have hinside : ∀ m, R.Fits w m → (∀ l ∈ S.depthLimit, m.depth < l) →
      R.Run w R.value m (above m.depth ((Watch.log σ).during x) m)
        (above m.depth ((Watch.blind σ).during y) m.unwatched) := by
    intro m hm hdepth
    obtain ⟨hsame, w', hle, hfits, hkept, hvalue⟩ := hx _ (h.opened hm hdepth)
    obtain ⟨hfits, hkept⟩ := h.closed hm hle hfits hkept
    rw [Watch.during_blind, above_run, above_run]
    change R.Run w R.value m
      (Ended.atDepth m.depth (Ended.onMachine _ (x (Regime.opened m))))
      (Ended.atDepth m.depth (y (Regime.opened m).unwatched))
    rw [hsame]
    generalize x (Regime.opened m) = r at hfits hkept hvalue ⊢
    cases r with
    | ok v m' => exact Run.ok hle hfits hkept (hvalue v m' rfl)
    | error halt m' => exact Run.error hle hfits hkept
  intro m hm
  cases hlimit : S.depthLimit with
  | none =>
    refine hinside m hm fun l hl => ?_
    rw [hlimit] at hl
    cases hl
  | some l =>
    rw [nested_some, nested_some]
    show R.Run w R.value m _ (if l ≤ m.depth then _ else _)
    split
    · exact Run.error (R.le_refl w) hm R.kept_refl
    · next hdepth =>
      refine hinside m hm fun l' hl' => ?_
      rw [hlimit] at hl'
      cases hl'
      omega

end Steps

/-! ## 6. Values that come from others -/

section Values

variable {R} {S : Setting σ} (h : R.Laws S) {w : R.World}

theorem list_of_asList {v : Expr} {l : LazyList} (hv : R.value w v) (hl : v.asList = .ok l) :
    R.list w l := by
  cases v with
  | list =>
    cases hl
    exact hv
  | _ => cases hl

theorem list_of_asFiniteList {v : Expr} {l : LazyList} {function : String} (hv : R.value w v)
    (hl : v.asFiniteList function = .ok l) : R.list w l := by
  cases v with
  | list l' =>
    change (if l'.isInfinite then _ else _) = _ at hl
    split at hl
    · cases hl
    · cases hl
      exact hv
  | _ => cases hl

include h

theorem value_bool (w : R.World) (b : Bool) : R.value w (.bool b) := h.value_made (.atom rfl)

theorem value_of_onLists {op : BinaryOp} {l r v : Expr} (hl : R.value w l) (hr : R.value w r)
    (hv : op.onLists l r = .ok v) : R.value w v := by
  unfold BinaryOp.onLists at hv
  split at hv
  · cases hv
    exact h.value_made (.concat hl hr)
  · cases hv
    exact h.value_made (.prepend hl hr)
  · cases hv

theorem value_of_arithmetic {op : BinaryOp} {l r v : Expr} (hv : op.arithmetic l r = .ok v) :
    R.value w v := by
  unfold BinaryOp.arithmetic at hv
  split at hv
  · cases hv
    exact h.value_made (.atom rfl)
  · next a b =>
    cases hn : op.onNumbers a b with
    | ok n =>
      rw [hn] at hv
      cases hv
      exact h.value_made (.atom rfl)
    | error fault =>
      rw [hn] at hv
      cases hv
  · cases hv

theorem value_of_comparison {op : BinaryOp} {l r v : Expr} (hv : op.comparison l r = .ok v) :
    R.value w v := by
  unfold BinaryOp.comparison at hv
  split at hv
  · cases hv
    exact value_bool h w _
  · cases hv

theorem value_of_logic {op : BinaryOp} {l r v : Expr} (hv : op.logic l r = .ok v) :
    R.value w v := by
  unfold BinaryOp.logic at hv
  cases hl : l.asBool with
  | error fault =>
    rw [hl] at hv
    cases hv
  | ok a =>
    cases hr : r.asBool with
    | error fault =>
      rw [hl, hr] at hv
      cases hv
    | ok b =>
      rw [hl, hr] at hv
      cases hv
      exact value_bool h w _

theorem value_of_onValues {op : BinaryOp} {l r v : Expr} (hl : R.value w l) (hr : R.value w r)
    (hv : op.onValues l r = .ok v) : R.value w v := by
  cases op with
  | or | and => exact value_of_logic h hv
  | equal | notEqual | less | lessEqual | greater | greaterEqual => exact value_of_comparison h hv
  | concat | prepend => exact value_of_onLists h hl hr hv
  | add | sub | mul | div | mod => exact value_of_arithmetic h hv

theorem value_of_onValue {op : UnaryOp} {u v : Expr} (hv : op.onValue u = .ok v) : R.value w v := by
  unfold UnaryOp.onValue at hv
  split at hv
  · cases hv
    exact h.value_made (.atom rfl)
  · cases hv
    exact h.value_made (.atom rfl)
  · cases hv
  · cases hb : u.asBool with
    | error fault =>
      rw [hb] at hv
      cases hv
    | ok b =>
      rw [hb] at hv
      cases hv
      exact value_bool h w _

end Values

/-! ## 7. Loops -/

/-- An evaluator that keeps to the regime, and its watched form. -/
structure Sound (E : Engine σ (σ × List Event)) (D : Engine σ σ) : Prop where
  eval : ∀ {w env e}, R.code w env e → R.Holds w R.value (E.eval env e) (D.eval env e)
  apply : ∀ {w f a}, R.value w f → R.value w a → R.Holds w R.value (E.apply f a) (D.apply f a)
  supply : ∀ {w f received a}, R.ready w f received → R.value w a →
    R.Holds w R.value (E.supply f received a) (D.supply f received a)
  call : ∀ {w code arguments}, R.callable w code arguments →
    R.Holds w R.value (E.call code arguments) (D.call code arguments)
  callBuiltin : ∀ {w b arguments}, R.callable w (.builtin b) arguments →
    R.Holds w R.value (E.callBuiltin b arguments) (D.callBuiltin b arguments)
  perform : ∀ {w a}, a.Within R.le R.value R.state w →
    R.Holds w R.value (E.perform a) (D.perform a)
  advance : ∀ {w l}, R.list w l → R.Holds w R.Stepped (E.advance l) (D.advance l)
  materialize : ∀ {w v}, R.value w v → R.Holds w R.value (E.materialize v) (D.materialize v)
  displayText : ∀ {w v}, R.value w v →
    R.Holds w (fun _ _ => True) (E.displayText v) (D.displayText v)

section Loops

variable {R} {S : Setting σ} (h : R.Laws S) {E : Engine σ (σ × List Event)} {D : Engine σ σ}
variable (ih : R.Sound E D) {β : Type} {w : R.World}
include h ih

theorem holds_foldItems {P : R.World → β → Prop} {f : β → Expr → Eval (σ × List Event) β}
    {g : β → Expr → Eval σ β} (hmono : ∀ {w w' b}, R.le w w' → P w b → P w' b)
    (hf : ∀ {w b x}, P w b → R.value w x → R.Holds w P (f b x) (g b x)) (rounds : Nat) {b : β}
    {l : LazyList} (hb : P w b) (hl : R.list w l) :
    R.Holds w P (foldItems E.advance f rounds b l) (foldItems D.advance g rounds b l) := by
  induction rounds generalizing w b l with
  | zero => exact .outOfFuel
  | succ rounds ihr =>
    refine holds_checked h ((ih.advance hl).bind ?_)
    rintro w₁ ⟨_ | _ | x, rest⟩ h₁ ⟨hrest, hx⟩
    · exact .fail _
    · exact .pure (hmono h₁ hb)
    · refine (hf (hmono h₁ hb) (hx x rfl)).bind fun w₂ b₂ h₂ hb₂ => ?_
      exact ihr hb₂ (h.value_mono h₂ hrest)

theorem holds_takeItems (count : Nat) {taken : List Expr} {l : LazyList}
    (htaken : ∀ v ∈ taken, R.value w v) (hl : R.list w l) :
    R.Holds w (fun w vs => ∀ v ∈ vs, R.value w v) (takeItems E.advance count taken l)
      (takeItems D.advance count taken l) := by
  induction count generalizing w taken l with
  | zero => exact .pure fun v hv => htaken v (List.mem_reverse.mp hv)
  | succ count ihc =>
    refine holds_checked h ((ih.advance hl).bind ?_)
    rintro w₁ ⟨_ | _ | x, rest⟩ h₁ ⟨hrest, hx⟩
    · exact .fail _
    · exact .pure fun v hv => h.value_mono h₁ (htaken v (List.mem_reverse.mp hv))
    · refine ihc (fun v hv => ?_) hrest
      rcases List.mem_cons.mp hv with rfl | hv
      · exact hx v rfl
      · exact h.value_mono h₁ (htaken v hv)

theorem holds_firstItem (function : String) {l : LazyList} (hl : R.list w l) :
    R.Holds w R.value (firstItem E.advance function l) (firstItem D.advance function l) := by
  refine holds_checked h ((ih.advance hl).bind ?_)
  rintro w₁ ⟨_ | _ | x, rest⟩ h₁ ⟨-, hx⟩
  · exact .fail _
  · exact .fail _
  · exact .pure (hx x rfl)

end Loops

/-! ## 8. The functions of the evaluator -/

section Functions

variable {R} {S : Setting σ} (h : R.Laws S) {E : Engine σ (σ × List Event)} {D : Engine σ σ}
variable (ih : R.Sound E D) {w : R.World} {env : Env} (n : Nat)
include ih

theorem holds_number {e : Expr} (he : R.code w env e) {α : Type} {P : R.World → α → Prop}
    {f : Number → Eval (σ × List Event) α} {g : Number → Eval σ α}
    (hf : ∀ w' n, R.le w w' → R.Holds w' P (f n) (g n)) :
    R.Holds w P (E.eval env e >>= fun v => Eval.lift v.asNumber >>= f)
      (D.eval env e >>= fun v => Eval.lift v.asNumber >>= g) := by
  refine (ih.eval he).bind fun w₁ v h₁ _ => ?_
  refine (Holds.lift (P := fun _ _ => True) fun _ _ => trivial).bind fun w₂ m h₂ _ => ?_
  exact hf w₂ m (R.le_trans h₁ h₂)

theorem holds_boolean {e : Expr} (he : R.code w env e) {α : Type} {P : R.World → α → Prop}
    {f : Bool → Eval (σ × List Event) α} {g : Bool → Eval σ α}
    (hf : ∀ w' b, R.le w w' → R.Holds w' P (f b) (g b)) :
    R.Holds w P (E.eval env e >>= fun v => Eval.lift v.asBool >>= f)
      (D.eval env e >>= fun v => Eval.lift v.asBool >>= g) := by
  refine (ih.eval he).bind fun w₁ v h₁ _ => ?_
  refine (Holds.lift (P := fun _ _ => True) fun _ _ => trivial).bind fun w₂ b h₂ _ => ?_
  exact hf w₂ b (R.le_trans h₁ h₂)

theorem holds_rangeStep (first : Number) {second : Option Expr}
    (hsecond : ∀ e ∈ second, R.code w env e) :
    R.Holds w (fun _ _ => True) (E.rangeStep env first second) (D.rangeStep env first second) := by
  cases second with
  | none => exact .pure trivial
  | some second =>
    refine holds_number ih (hsecond second rfl) fun w₁ m h₁ => ?_
    cases m.sub? first with
    | some step => exact .pure trivial
    | none => exact .fail _

theorem holds_rangeStop {stop : Option Expr} (hstop : ∀ e ∈ stop, R.code w env e) :
    R.Holds w (fun _ _ => True) (E.rangeStop env stop) (D.rangeStop env stop) := by
  cases stop with
  | none => exact .pure trivial
  | some stop => exact holds_number ih (hstop stop rfl) fun w₁ m h₁ => .pure trivial

theorem holds_displayTextNext {v : Expr} (hv : R.value w v) :
    R.Holds w (fun _ _ => True) (E.displayTextNext S n v) (D.displayTextNext S n v) := by
  cases v with
  | str text => exact .pure trivial
  | null => exact .pure trivial
  | _ => exact (ih.materialize hv).bind fun w₁ u h₁ _ => .fueled fun _ _ => trivial

include h

theorem holds_fragments {fragments : List Fragment}
    (hfragments : ∀ e, .embedded e ∈ fragments → R.code w env e) (text : String) :
    R.Holds w (fun _ _ => True) (fragments.foldlM (E.addFragment env) text)
      (fragments.foldlM (D.addFragment env) text) := by
  induction fragments generalizing w text with
  | nil => exact .pure trivial
  | cons fragment fragments ihf =>
    rw [List.foldlM_cons, List.foldlM_cons]
    refine Holds.bind (P := fun _ _ => True) ?_ fun w₁ text₁ h₁ _ => ?_
    · cases fragment with
      | text more => exact .pure trivial
      | embedded e =>
        refine (ih.eval (hfragments e List.mem_cons_self)).bind fun w₁ v h₁ hv => ?_
        exact (ih.displayText hv).bind fun w₂ more h₂ _ => .pure trivial
    · exact ihf (fun e he => h.code_mono h₁ (hfragments e (List.mem_cons_of_mem _ he))) text₁

theorem holds_evalInside {e : Expr} (he : R.code w env e) :
    R.Holds w R.value (E.evalInside S (.log σ) env e)
      (D.evalInside S (.blind σ) env e) := by
  have hform := h.code_form he
  cases e with
  | number | bool | str | null | closure | applied => exact .pure hform
  | function f =>
    simp only [Engine.evalInside]
    simp only [CodeForm] at hform
    split at hform
    · next hf =>
      rw [if_pos hf, if_pos hf]
      exact ih.call hform
    · next hf =>
      rw [if_neg hf, if_neg hf]
      exact .pure hform
  | list l =>
    cases l with
    | items xs own cell => exact holds_makeList h hform.1 hform.2
    | _ => exact .pure hform
  | range start second stop =>
    obtain ⟨hstart, hsecond, hstop⟩ := hform
    refine holds_number ih hstart fun w₁ first h₁ => ?_
    have hsecond₁ := fun e he => h.code_mono h₁ (hsecond e he)
    refine (holds_rangeStep ih first hsecond₁).bind fun w₂ step h₂ _ => ?_
    have hstop₂ := fun e he => h.code_mono (R.le_trans h₁ h₂) (hstop e he)
    refine (holds_rangeStop ih hstop₂).bind fun w₃ last h₃ _ => ?_
    exact .pure (h.value_made (.progression _))
  | call f a =>
    refine (ih.eval hform.1).bind fun w₁ f' h₁ hf => ?_
    refine (ih.eval (h.code_mono h₁ hform.2)).bind fun w₂ a' h₂ ha => ?_
    exact ih.apply (h.value_mono h₂ hf) ha
  | lambda => exact .pure hform
  | argument slot =>
    simp only [Engine.evalInside]
    cases hv : S.find slot env with
    | some v => exact .pure (hform v hv)
    | none => exact .fail _
  | unary op e =>
    refine (ih.eval hform).bind fun w₁ v h₁ hv => ?_
    exact .lift fun u hu => value_of_onValue h hu
  | binary op l r =>
    simp only [Engine.evalInside]
    split
    · refine holds_boolean ih hform.1 fun w₁ a h₁ => ?_
      split
      · exact .pure (value_bool h w₁ _)
      · refine holds_boolean ih (h.code_mono h₁ hform.2) fun w₂ b h₂ => ?_
        exact .pure (value_bool h w₂ b)
    · refine (ih.eval hform.1).bind fun w₁ u h₁ hu => ?_
      refine (ih.eval (h.code_mono h₁ hform.2)).bind fun w₂ v h₂ hv => ?_
      exact .lift fun result hresult => value_of_onValues h (h.value_mono h₂ hu) hv hresult
  | leftSection op e =>
    refine (ih.eval hform).bind fun w₁ v h₁ hv => ?_
    exact .pure (h.value_made (.leftSection op hv))
  | rightSection op e =>
    refine (ih.eval hform).bind fun w₁ v h₁ hv => ?_
    exact .pure (h.value_made (.rightSection op hv))
  | conditional c y n =>
    refine holds_boolean ih hform.1 fun w₁ b h₁ => ?_
    cases b with
    | true => exact ih.eval (h.code_mono h₁ hform.2.1)
    | false => exact ih.eval (h.code_mono h₁ hform.2.2)
  | interpolated fragments =>
    refine (holds_fragments h ih hform "").bind fun w₁ text h₁ _ => ?_
    exact .pure (h.value_made (.atom rfl))

theorem holds_eval {e : Expr} (he : R.code w env e) :
    R.Holds w R.value ((E.next S (.log σ) n).eval env e) ((D.next S (.blind σ) n).eval env e) :=
  holds_checked h (holds_nested h (holds_evalInside h ih he))

theorem holds_applyNext {f a : Expr} (hf : R.value w f) (ha : R.value w a) :
    R.Holds w R.value (E.applyNext f a) (D.applyNext f a) := by
  have hform := h.value_form hf
  cases f with
  | function | closure => exact ih.supply hform ha
  | applied => exact ih.supply hform ha
  | leftSection op l => exact .lift fun v hv => value_of_onValues h hform ha hv
  | rightSection op r => exact .lift fun v hv => value_of_onValues h ha hform hv
  | _ => exact .fail _

theorem holds_supplyNext {f a : Expr} {received : List Expr} (hf : R.ready w f received)
    (ha : R.value w a) :
    R.Holds w R.value (E.supplyNext (.log σ) f received a)
      (D.supplyNext (.blind σ) f received a) := by
  cases f with
  | function f =>
    simp only [Engine.supplyNext]
    split
    · next hlt => exact .pure (h.value_made (.applied hf ha rfl hlt))
    · next hge => exact ih.call (h.ready_call hf ha hge)
  | closure depth parameters body here =>
    simp only [Engine.supplyNext]
    split
    · next hlt => exact .pure (h.value_made (.applied hf ha rfl hlt))
    · next hge =>
      obtain ⟨hframed, hbody⟩ := h.ready_frame hf ha hge
      exact holds_noting h hframed (ih.eval hbody)
  | _ => exact holds_noting h (h.ready_refused hf rfl) (.fail _)

theorem holds_callNext {code : Code} {arguments : List Expr} (hcode : R.callable w code arguments) :
    R.Holds w R.value (E.callNext S (.log σ) code arguments)
      (D.callNext S (.blind σ) code arguments) := by
  refine holds_noting h (h.callable_called hcode) ?_
  cases code with
  | builtin b => exact ih.callBuiltin hcode
  | foreign entry => exact ih.perform (h.callable_foreign hcode)

theorem holds_performNext {a : Action σ} (ha : a.Within R.le R.value R.state w) :
    R.Holds w R.value (E.performNext (.log σ) a) (D.performNext (.blind σ) a) := by
  cases ha with
  | give hv => exact .pure hv
  | fail fault => exact .fail fault
  | read hnext => exact holds_read h fun s hs => ih.perform (hnext s hs)
  | write hs hnext => exact holds_write h hs (ih.perform hnext)
  | newList hxs hnext =>
    exact (holds_makeList_top h hxs).bind fun w₁ v h₁ hv => ih.perform (hnext w₁ v h₁ hv)
  | display hv hnext =>
    exact (ih.displayText hv).bind fun w₁ text h₁ _ => ih.perform (hnext w₁ text h₁)
  | apply hf ha hnext =>
    exact (ih.apply hf ha).bind fun w₁ v h₁ hv => ih.perform (hnext w₁ v h₁ hv)
  | cancel hnext => exact holds_cancel h (ih.perform hnext)

theorem holds_materializeNext {v : Expr} (hv : R.value w v) :
    R.Holds w R.value (E.materializeNext (.log σ) n v) (D.materializeNext (.blind σ) n v) := by
  cases v with
  | list l =>
    simp only [Engine.materializeNext]
    split
    · exact .pure hv
    · refine (holds_foldItems h ih (P := fun w vs => ∀ v ∈ vs, R.value w v) ?_ ?_ n ?_ hv).bind ?_
      · exact fun hle hvs v hv => h.value_mono hle (hvs v hv)
      · intro w₁ vs x hvs hx
        refine (ih.materialize hx).bind fun w₂ u h₂ hu => .pure fun v hv => ?_
        rcases List.mem_cons.mp hv with rfl | hv
        · exact hu
        · exact h.value_mono h₂ (hvs v hv)
      · exact fun v hv => absurd hv List.not_mem_nil
      · intro w₁ vs h₁ hvs
        exact holds_makeList_top h fun v hv => hvs v (List.mem_reverse.mp hv)
  | _ => exact .pure hv

/-! ## 9. Built-in functions -/

theorem holds_sum {v : Expr} (hv : R.value w v) :
    R.Holds w R.value (E.callBuiltinNext (.log σ) n .sum [v])
      (D.callBuiltinNext (.blind σ) n .sum [v]) := by
  refine Holds.bind (P := R.list) (.lift fun l hl => list_of_asFiniteList hv hl) fun w₁ l h₁ hl =>
    ?_
  refine (holds_foldItems h ih (P := fun _ _ => True) (fun _ _ => trivial) ?_ n trivial hl).bind ?_
  · intro w₂ total x _ hx
    refine Holds.bind (P := fun _ _ => True) (.lift fun _ _ => trivial) fun w₃ m h₃ _ => ?_
    cases total.add? m.toDecimal with
    | some total => exact .pure trivial
    | none => exact .fail _
  · exact fun w₂ total h₂ _ => .pure (h.value_made (.atom rfl))

theorem holds_length {v : Expr} (hv : R.value w v) :
    R.Holds w R.value (E.callBuiltinNext (.log σ) n .length [v])
      (D.callBuiltinNext (.blind σ) n .length [v]) := by
  refine Holds.bind (P := R.list) (.lift fun l hl => list_of_asFiniteList hv hl) fun w₁ l h₁ hl =>
    ?_
  refine (holds_foldItems h ih (P := fun _ _ => True) (fun _ _ => trivial) ?_ n trivial hl).bind ?_
  · exact fun _ _ => .pure trivial
  · exact fun w₂ count h₂ _ => .pure (h.value_made (.atom rfl))

theorem holds_join {separator v : Expr} (hv : R.value w v) :
    R.Holds w R.value (E.callBuiltinNext (.log σ) n .join [separator, v])
      (D.callBuiltinNext (.blind σ) n .join [separator, v]) := by
  refine Holds.bind (P := fun _ _ => True) (.lift fun _ _ => trivial) fun w₁ text h₁ _ => ?_
  have hv₁ := h.value_mono h₁ hv
  refine Holds.bind (P := R.list) (.lift fun l hl => list_of_asFiniteList hv₁ hl) fun w₂ l h₂ hl =>
    ?_
  refine (holds_foldItems h ih (P := fun _ _ => True) (fun _ _ => trivial) ?_ n trivial hl).bind ?_
  · exact fun _ hx => (ih.displayText hx).bind fun w₃ more h₃ _ => .pure trivial
  · exact fun w₃ parts h₃ _ => .pure (h.value_made (.atom rfl))

theorem holds_take {count v : Expr} (hv : R.value w v) :
    R.Holds w R.value (E.callBuiltinNext (.log σ) n .take [count, v])
      (D.callBuiltinNext (.blind σ) n .take [count, v]) := by
  refine Holds.bind (P := fun _ _ => True) (.lift fun _ _ => trivial) fun w₁ k h₁ _ => ?_
  have hv₁ := h.value_mono h₁ hv
  refine Holds.bind (P := R.list) (.lift fun l hl => list_of_asList hv₁ hl) fun w₂ l h₂ hl => ?_
  refine (holds_takeItems h ih _ (fun v hv => absurd hv List.not_mem_nil) hl).bind
    fun w₃ vs h₃ hvs => ?_
  exact holds_makeList_top h hvs

theorem holds_callBuiltinNext {b : Builtin} {arguments : List Expr}
    (hb : R.callable w (.builtin b) arguments) :
    R.Holds w R.value (E.callBuiltinNext (.log σ) n b arguments)
      (D.callBuiltinNext (.blind σ) n b arguments) := by
  have hargs := h.callable_builtin hb
  have hmismatched (hlen : arguments.length ≠ b.arity) :
      R.Holds w R.value
        ((Watch.log σ).noting (.mismatched b arguments) >>= fun _ =>
          Eval.fail (.arityMismatch b.name b.arity arguments.length))
        ((Watch.blind σ).noting (.mismatched b arguments) >>= fun _ =>
          Eval.fail (.arityMismatch b.name b.arity arguments.length)) :=
    holds_noting h (h.callable_mismatched hb hlen) (.fail _)
  rcases arguments with _ | ⟨u, _ | ⟨v, _ | ⟨_, _⟩⟩⟩
  · cases b <;> exact hmismatched (by simp [Builtin.arity])
  · have hu := hargs u List.mem_cons_self
    cases b with
    | sum => exact holds_sum h ih n hu
    | length => exact holds_length h ih n hu
    | head =>
      refine Holds.bind (P := R.list) (.lift fun l hl => list_of_asList hu hl) fun w₁ l h₁ hl => ?_
      exact holds_firstItem h ih "head" hl
    | tail =>
      refine Holds.bind (P := R.list) (.lift fun l hl => list_of_asList hu hl) fun w₁ l h₁ hl => ?_
      refine (holds_firstItem h ih "tail" hl).bind fun w₂ _ h₂ _ => ?_
      exact .pure (h.value_made (.dropped 1 (h.value_mono h₂ hl)))
    | _ => exact hmismatched (by simp [Builtin.arity])
  · have hu := hargs u List.mem_cons_self
    have hv := hargs v (List.mem_cons_of_mem u List.mem_cons_self)
    cases b with
    | map =>
      refine Holds.bind (P := R.list) (.lift fun l hl => list_of_asList hv hl) fun w₁ l h₁ hl => ?_
      exact .pure (h.value_made (.mapped (h.value_mono h₁ hu) hl))
    | filter =>
      refine Holds.bind (P := R.list) (.lift fun l hl => list_of_asList hv hl) fun w₁ l h₁ hl => ?_
      exact .pure (h.value_made (.filtered (h.value_mono h₁ hu) hl))
    | take => exact holds_take h ih n hv
    | drop =>
      refine Holds.bind (P := fun _ _ => True) (.lift fun _ _ => trivial) fun w₁ k h₁ _ => ?_
      have hv₁ := h.value_mono h₁ hv
      refine Holds.bind (P := R.list) (.lift fun l hl => list_of_asList hv₁ hl) fun w₂ l h₂ hl => ?_
      exact .pure (h.value_made (.dropped _ hl))
    | join => exact holds_join h ih n hv
    | _ => exact hmismatched (by simp [Builtin.arity])
  · cases b <;> exact hmismatched (by simp [Builtin.arity])

/-! ## 10. Lists -/

theorem holds_advanceNext {l : LazyList} (hl : R.list w l) :
    R.Holds w R.Stepped (E.advanceNext S (.log σ) l) (D.advanceNext S (.blind σ) l) := by
  have hform : R.ListForm w l := h.value_form hl
  cases l with
  | items xs here cell =>
    cases xs with
    | nil => exact .pure ⟨hl, by rintro x ⟨⟩⟩
    | cons x xs =>
      refine (h.element hl fun w' hcode => ih.eval hcode).bind fun w₁ outcome h₁ houtcome => ?_
      refine .pure ⟨h.value_mono h₁ hform.2, ?_⟩
      rintro v hv
      cases outcome with
      | error fault => cases hv
      | ok u =>
        cases hv
        exact houtcome
  | progression range =>
    refine .pure ?_
    unfold advanceProgression
    cases range.head? with
    | none => exact ⟨h.value_made .empty, by rintro x ⟨⟩⟩
    | some m =>
      refine ⟨?_, ?_⟩
      · cases range.tail? with
        | none => exact h.value_made .empty
        | some tail => exact h.value_made (.progression tail)
      · rintro x ⟨⟩
        exact h.value_made (.atom rfl)
  | prepend head tail =>
    refine .pure ⟨hform.2, ?_⟩
    rintro x ⟨⟩
    exact hform.1
  | concat first second =>
    refine (ih.advance hform.1).bind ?_
    rintro w₁ ⟨outcome, rest⟩ h₁ ⟨hrest, hx⟩
    have hsecond := h.value_mono h₁ hform.2
    rcases outcome with fault | _ | x
    · exact .pure ⟨h.value_made (.concat hrest hsecond), hx⟩
    · exact ih.advance hsecond
    · exact .pure ⟨h.value_made (.concat hrest hsecond), hx⟩
  | mapped f source =>
    refine (ih.advance hform.2).bind ?_
    rintro w₁ ⟨outcome, rest⟩ h₁ ⟨hrest, hx⟩
    have hf := h.value_mono h₁ hform.1
    rcases outcome with fault | _ | x
    · exact .pure ⟨h.value_made (.mapped hf hrest), hx⟩
    · exact .pure ⟨h.value_made (.mapped hf hrest), hx⟩
    · refine (ih.apply hf (hx x rfl)).attempt.bind fun w₂ result h₂ hresult => ?_
      refine .pure ⟨h.value_made (.mapped (h.value_mono h₂ hf) (h.value_mono h₂ hrest)), ?_⟩
      intro v hv
      cases result with
      | error fault => cases hv
      | ok u =>
        cases hv
        exact hresult
  | filtered p source =>
    refine (ih.advance hform.2).bind ?_
    rintro w₁ ⟨outcome, rest⟩ h₁ ⟨hrest, hx⟩
    have hp := h.value_mono h₁ hform.1
    rcases outcome with fault | _ | x
    · exact .pure ⟨h.value_made (.filtered hp hrest), hx⟩
    · exact .pure ⟨h.value_made (.filtered hp hrest), hx⟩
    · have htest : R.Holds w₁ (fun _ _ => True)
          (check >>= fun _ => E.apply p x >>= fun v => Eval.lift v.asBool)
          (check >>= fun _ => D.apply p x >>= fun v => Eval.lift v.asBool) := by
        refine holds_checked h ((ih.apply hp (hx x rfl)).bind fun w₂ v h₂ _ => ?_)
        exact .lift fun _ _ => trivial
      refine htest.attempt.bind fun w₂ result h₂ _ => ?_
      have hrest₂ : R.list w₂ (.filtered p rest) :=
        h.value_made (.filtered (h.value_mono h₂ hp) (h.value_mono h₂ hrest))
      rcases result with fault | _ | _
      · exact .pure ⟨hrest₂, by rintro x ⟨⟩⟩
      · exact ih.advance hrest₂
      · refine .pure ⟨hrest₂, ?_⟩
        rintro v ⟨⟩
        exact h.value_mono h₂ (hx x rfl)
  | dropped count source =>
    cases count with
    | zero => exact ih.advance hform
    | succ count =>
      refine (holds_check h).attempt.bind fun w₁ result h₁ _ => ?_
      have hsource := h.value_mono h₁ hform
      cases result with
      | error fault => exact .pure ⟨h.value_mono h₁ hl, by rintro x ⟨⟩⟩
      | ok =>
        refine (ih.advance hsource).bind ?_
        rintro w₂ ⟨outcome, rest⟩ h₂ ⟨hrest, hx⟩
        rcases outcome with fault | _ | x
        · exact .pure ⟨h.value_made (.dropped count hrest), by rintro x ⟨⟩⟩
        · exact .pure ⟨hrest, by rintro x ⟨⟩⟩
        · exact ih.advance (h.value_made (.dropped count hrest))

/-! ## 11. The evaluator as a whole -/

theorem Sound.next : R.Sound (E.next S (.log σ) n) (D.next S (.blind σ) n) where
  eval := holds_eval h ih n
  apply := holds_applyNext h ih
  supply := holds_supplyNext h ih
  call := holds_callNext h ih
  callBuiltin := holds_callBuiltinNext h ih n
  perform := holds_performNext h ih
  advance := holds_advanceNext h ih
  materialize := holds_materializeNext h ih n
  displayText := holds_displayTextNext ih n

end Functions

/-- **The evaluator keeps to a regime that obeys the laws**, and watching it changes nothing. -/
theorem Laws.sound {R : Regime σ} {S : Setting σ} (h : R.Laws S) (n : Nat) :
    R.Sound (Engine.watched S n) (Engine.actual S n) := by
  induction n with
  | zero => constructor <;> intros <;> exact .outOfFuel
  | succ n ih =>
    rw [Engine.watched, Engine.actual_succ]
    exact Sound.next h ih n

/-! ## 12. Elements of lists -/

/-- The value of the expression of an element, if its end may be noted. -/
theorem Holds.producing {R : Regime σ} {w : R.World} {cell : Option Nat}
    {x : Eval (σ × List Event) Expr} {y : Eval σ Expr} (hx : R.Holds w R.value x y)
    (hnote : ∀ w' m event, event.aboutElement cell → R.Fits w' m →
      R.Fits w' ((Watch.log σ).after event m) ∧ R.Kept w' m ((Watch.log σ).after event m)) :
    R.Holds w R.value ((Watch.log σ).producing cell x) ((Watch.blind σ).producing cell y) := by
  intro m hm
  obtain ⟨hsame, w', hle, hfits, hkept, hvalue⟩ := hx m hm
  rw [Watch.producing_blind, hsame]
  unfold Watch.producing
  generalize x m = r at hfits hkept hvalue ⊢
  cases r with
  | ok v m' =>
    obtain ⟨hfits', hkept'⟩ := hnote w' m' (.produced cell) rfl hfits
    exact Run.ok hle hfits' (R.kept_trans hkept hle hkept') (hvalue v m' rfl)
  | error halt m' =>
    obtain ⟨hfits', hkept'⟩ := hnote w' m' (.failed cell m.cells m'.cells) rfl hfits
    exact Run.error hle hfits' (R.kept_trans hkept hle hkept')

/-- An element is the one that is known, or the value of its expression, if contents of cells are
values and cells may be filled. -/
theorem holds_element {R : Regime σ} {w : R.World} {remembers : Bool} {cell : Option Nat}
    {x : Eval (σ × List Event) Expr} {y : Eval σ Expr}
    (hknown : ∀ a ∈ cell, ∀ m v, R.Fits w m → m.cell? a = some v → R.value w v)
    (hx : R.Holds w R.value x y)
    (hnote : ∀ w' m event, event.aboutElement cell → R.Fits w' m →
      R.Fits w' ((Watch.log σ).after event m) ∧ R.Kept w' m ((Watch.log σ).after event m))
    (hfill : ∀ a ∈ cell, ∀ w' m v, R.Fits w' m → R.value w' v → R.Fits w' (m.fill a v) ∧
      R.Kept w' m (m.fill a v) ∧ R.value w' (((m.fill a v).cell? a).getD v)) :
    R.Holds w (R.Outcome R.value) ((Watch.log σ).element remembers cell x)
      ((Watch.blind σ).element remembers cell y) := by
  have hseen : R.Holds w (fun w' o => w' = w ∧ ∀ v, o = some v → R.value w v)
      (known remembers cell) (known remembers cell) := by
    intro m hm
    refine Run.ok (P := fun w' o => w' = w ∧ ∀ v, o = some v → R.value w v) (R.le_refl w) hm
      R.kept_refl ⟨rfl, fun v hv => ?_⟩
    split at hv
    · obtain ⟨a, hcell, ha⟩ := Option.bind_eq_some_iff.mp hv
      exact hknown a hcell m v hm ha
    · cases hv
  refine hseen.bind ?_
  rintro _ o - ⟨rfl, ho⟩
  cases o with
  | some v => exact .pure (ho v rfl)
  | none =>
    refine (hx.producing hnote).attempt.bind fun w₁ outcome h₁ houtcome => ?_
    cases outcome with
    | error fault => exact .pure trivial
    | ok v =>
      refine Holds.bind (P := R.value) (fun m hm => ?_) fun w₃ u h₃ hu => .pure hu
      rcases remembers with _ | _
      · exact Run.ok (R.le_refl w₁) hm R.kept_refl houtcome
      · rcases cell with _ | a
        · exact Run.ok (R.le_refl w₁) hm R.kept_refl houtcome
        · obtain ⟨hfits, hkept, hvalue⟩ := hfill a rfl w₁ m v hm houtcome
          have hsame := fill_unwatched m a v
          simp only [remember, hsame]
          exact Run.ok (R.le_refl w₁) hfits hkept hvalue

/-! ## 13. Regimes that are about the machine alone -/

/-- The regime in which everything may be evaluated and met. -/
def ofMachine (Fits : Machine (σ × List Event) → Prop)
    (Kept : Machine (σ × List Event) → Machine (σ × List Event) → Prop) (hrefl : ∀ m, Kept m m)
    (htrans : ∀ m m' m'', Kept m m' → Kept m' m'' → Kept m m'') : Regime σ where
  World := Unit
  le _ _ := True
  le_refl _ := trivial
  le_trans _ _ := trivial
  env _ _ := True
  code _ _ _ := True
  value _ _ := True
  ready _ _ _ := True
  callable _ _ _ := True
  state _ _ := True
  allowed _ event := event ≠ .opened ∧ event ≠ .closed
  Fits _ := Fits
  Kept _ := Kept
  kept_refl := hrefl _
  kept_trans h _ h' := htrans _ _ _ h h'

theorem within_ofMachine {World : Type} {le : World → World → Prop} (a : Action σ) (w : World) :
    a.Within le (fun _ _ => True) (fun _ _ => True) w := by
  induction a generalizing w with
  | give v => exact .give trivial
  | fail fault => exact .fail fault
  | read next ih => exact .read fun s _ => ih s w
  | write s next ih => exact .write trivial (ih w)
  | newList xs next ih => exact .newList (fun _ _ => trivial) fun w' v _ _ => ih v w'
  | display v next ih => exact .display trivial fun w' text _ => ih text w'
  | apply f a next ih => exact .apply trivial trivial fun w' v _ _ => ih v w'
  | cancel next ih => exact .cancel (ih w)

section OfMachine

variable {S : Setting σ} {Fits : Machine (σ × List Event) → Prop}
variable {Kept : Machine (σ × List Event) → Machine (σ × List Event) → Prop}
variable {hrefl : ∀ m, Kept m m} {htrans : ∀ m m' m'', Kept m m' → Kept m' m'' → Kept m m''}

theorem laws_ofMachine
    (signal : ∀ {m}, Fits m → ∀ cancelled checksLeft, Fits { m with cancelled, checksLeft } ∧
      Kept m { m with cancelled, checksLeft })
    (note : ∀ {m event}, Fits m → event ≠ .opened ∧ event ≠ .closed →
      Fits ((Watch.log σ).after event m) ∧ Kept m ((Watch.log σ).after event m))
    (update : ∀ {m s}, Fits m → Fits { m with host := (s, m.host.2) } ∧
      Kept m { m with host := (s, m.host.2) })
    (opened : ∀ {m}, Fits m → (∀ l ∈ S.depthLimit, m.depth < l) → Fits (opened m))
    (closed : ∀ {m m'}, Fits m → Fits m' → Kept (Regime.opened m) m' →
      Fits (closed m.depth m') ∧ Kept m (closed m.depth m'))
    (newList : ∀ {m} k, Fits m → Fits { m with cells := m.cells ++ Array.replicate k none } ∧
      Kept m { m with cells := m.cells ++ Array.replicate k none })
    (fill : ∀ {m} a v, Fits m → Fits (m.fill a v) ∧ Kept m (m.fill a v)) :
    (ofMachine Fits Kept hrefl htrans).Laws S where
  code_mono _ h := h
  value_mono _ h := h
  env_top _ := trivial
  code_top _ := trivial
  code_form {_ here e} _ := by
    cases e with
    | function f =>
      simp only [CodeForm]
      split <;> exact trivial
    | list l => cases l <;> simp [CodeForm, ofMachine]
    | _ => simp [CodeForm, ofMachine]
  value_form {_ v} _ := by
    cases v with
    | list l =>
      cases l with
      | items xs => cases xs <;> simp [ValueForm, ListForm, list, ofMachine]
      | _ => simp [ValueForm, ListForm, list, ofMachine]
    | _ => simp [ValueForm, ofMachine]
  value_made _ := trivial
  ready_frame _ _ _ := ⟨⟨by rintro ⟨⟩, by rintro ⟨⟩⟩, trivial⟩
  ready_call _ _ _ := trivial
  ready_refused _ _ := ⟨by rintro ⟨⟩, by rintro ⟨⟩⟩
  callable_called _ := ⟨by rintro ⟨⟩, by rintro ⟨⟩⟩
  callable_builtin _ _ _ := trivial
  callable_mismatched _ _ := ⟨by rintro ⟨⟩, by rintro ⟨⟩⟩
  callable_foreign _ := within_ofMachine _ _
  signal := signal
  note := note
  state _ := trivial
  update h _ := update h
  opened := opened
  closed h _ h' hkept := closed h h' hkept
  newList {_ m here xs} h _ _ := by
    have hevent : Event.made m.cells.size xs.length ≠ .opened ∧
        Event.made m.cells.size xs.length ≠ .closed := ⟨by rintro ⟨⟩, by rintro ⟨⟩⟩
    obtain ⟨hnote, hkept⟩ := note h hevent
    obtain ⟨hfits, hkept'⟩ := newList xs.length hnote
    exact ⟨(), trivial, hfits, htrans _ _ _ hkept hkept', trivial⟩
  element _ hx := by
    refine holds_element (fun _ _ _ _ _ _ => trivial) (hx () trivial)
      (fun _ m event hevent hm => ?_)
      fun a _ _ m v hm _ => ⟨(fill a v hm).1, (fill a v hm).2, trivial⟩
    refine note hm ⟨?_, ?_⟩
    · rintro rfl
      cases hevent
    · rintro rfl
      cases hevent

end OfMachine

end Regime

end LazyExpr
