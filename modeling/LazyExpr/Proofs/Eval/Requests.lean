import LazyExpr.Proofs.Eval.Regime
import LazyExpr.Expr.Reader

/-!
# Everything an application can ask for

An application keeps a machine, the values that it was given and the traversals that it has begun,
and asks for one thing after another: the value of a text, or of a value once more; a function at an
argument; the elements of a list, all at once or one by one; the text of a value.  A request that
fails gives nothing, but the machine that it leaves is kept.

A traversal either goes on behind a fault, or it is over at its end and at its first fault and
checks for a request to stop before each step.

* `Client.serve` — one request, with an engine of the evaluator.
* `Client.history` — one request after another.
* `Regime.Laws.history` — **whatever was asked for, everything that an application holds keeps to
  every regime that obeys the laws**, and watching the evaluator changes nothing of it.
-/

namespace LazyExpr

open Eval

/-! ## 1. Clients -/

/-- The element that a step gave, if it gave one. -/
def Step.element? (step : Step) : Option Expr := step.outcome.toOption.join

/-- A traversal under way. -/
structure Cursor where
  rest : LazyList
  /-- Whether the traversal is over at its first fault, and checks before each step. -/
  iterates : Bool
  finished : Bool

/-- The traversal after a step. -/
def Cursor.after (c : Cursor) (step : Step) : Cursor :=
  { c with rest := step.rest, finished := c.iterates && step.element?.isNone }

/-- What an application has at some point; values and traversals the latest first. -/
structure Client (τ : Type) where
  machine : Machine τ
  values : List Expr
  cursors : List Cursor

/-- What an application can ask for.  Values and traversals are named by their places. -/
inductive Request where
  /-- The value of a text, with some names bound to values of the client. -/
  | eval (scope : Scope) (names : List (String × Nat)) (source : String)
  /-- The value of a value. -/
  | again (value : Nat)
  | apply (function argument : Nat)
  | materialize (value : Nat)
  | render (value : Nat)
  | display (value : Nat)
  /-- A traversal of a list. -/
  | traverse (list : Nat) (iterates : Bool)
  /-- One more step of a traversal. -/
  | next (cursor : Nat)
  /-- Sets or takes back a request to stop and a deadline. -/
  | signal (cancelled : Bool) (checksLeft : Option Nat)

/-- What the names of the scope stand for in which a text is to be read has a property. -/
def Request.Names (P : Expr → Prop) : Request → Prop
  | .eval outer _ _ => ∀ name e, outer.lookup name = some e → P e
  | _ => True

namespace Client

variable {σ τ γ : Type}

/-- A client without values. -/
def fresh (host : τ) : Client τ := ⟨.fresh host, [], []⟩

/-- The client without what stands beside the state of the application. -/
def unwatched (C : Client (σ × γ)) : Client σ := ⟨C.machine.unwatched, C.values, C.cursors⟩

/-- The client with no events beside the state of the application yet. -/
def observed (C : Client σ) : Client (σ × List Event) := ⟨C.machine.observed, C.values, C.cursors⟩

/-- The events up to now. -/
def log (C : Client (σ × List Event)) : List Event := C.machine.host.2

/-- The scope with names for values of the client. -/
def scope (C : Client τ) (outer : Scope) (names : List (String × Nat)) : Scope :=
  names.foldr (fun name scope => (C.values[name.2]?).elim scope (scope.define name.1)) outer

/-- Keeps the machine of a run, and its value. -/
def gain (C : Client τ) : Ended τ Expr → Client τ
  | .ok v m => { C with machine := m, values := v :: C.values }
  | .error _ m => { C with machine := m }

/-- Keeps the machine of a run. -/
def keep {α : Type} (C : Client τ) (r : Ended τ α) : Client τ := { C with machine := r.machine }

/-- Keeps the machine of a step of a traversal, the element, and what remains. -/
def advance (C : Client τ) (i : Nat) (c : Cursor) : Ended τ Step → Client τ
  | .ok step m => ⟨m, step.element?.toList ++ C.values, C.cursors.set i (c.after step)⟩
  | .error _ m =>
    { C with machine := m, cursors := C.cursors.set i { c with finished := c.iterates } }

/-- Carries out a request, with an engine of fuel `n`. -/
def serve (E : Engine σ τ) (n : Nat) (C : Client τ) : Request → Client τ
  | .eval outer names source => (parseIn (C.scope outer names) source).toOption.elim C fun e =>
    C.gain (E.eval .top e C.machine)
  | .again i => (C.values[i]?).elim C fun v => C.gain (E.eval .top v C.machine)
  | .apply i j => (C.values[i]?).elim C fun f => (C.values[j]?).elim C fun a =>
    C.gain (E.apply f a C.machine)
  | .materialize i => (C.values[i]?).elim C fun v => C.gain (E.materialize v C.machine)
  | .render i => (C.values[i]?).elim C fun v =>
    C.keep ((E.materialize v >>= fun u => fueled (u.display? n)) C.machine)
  | .display i => (C.values[i]?).elim C fun v => C.keep (E.displayText v C.machine)
  | .traverse i iterates => ((C.values[i]?).bind fun v => v.asList.toOption).elim C fun l =>
    { C with cursors := ⟨l, iterates, false⟩ :: C.cursors }
  | .next i => (C.cursors[i]?).elim C fun c =>
    if c.finished then C
    else if c.iterates then C.advance i c ((check >>= fun _ => E.advance c.rest) C.machine)
    else C.advance i c (E.advance c.rest C.machine)
  | .signal cancelled checksLeft => { C with machine := { C.machine with cancelled, checksLeft } }

/-- Carries out one request after another, each with a fuel of its own. -/
def history (engine : Nat → Engine σ τ) (C : Client τ)
    (requests : List (Nat × Request)) : Client τ :=
  requests.foldl (fun C r => C.serve (engine r.1) r.1 r.2) C

end Client

/-! ## 2. Clients of a regime -/

namespace Regime

variable {σ : Type} {R : Regime σ}

/-- All that a client has keeps to the regime. -/
structure Owns (R : Regime σ) (w : R.World) (C : Client (σ × List Event)) : Prop where
  machine : R.Fits w C.machine
  values : ∀ v ∈ C.values, R.value w v
  cursors : ∀ c ∈ C.cursors, R.list w c.rest

/-- The names of a scope stand for expressions that may be evaluated. -/
def Names (R : Regime σ) (w : R.World) (scope : Scope) : Prop :=
  ∀ name e, scope.lookup name = some e → R.code w .top e

/-- What is read from a text may be evaluated, if what its names stand for may be. -/
def Reads (R : Regime σ) : Prop :=
  ∀ {w scope source e}, R.Names w scope → parseIn scope source = .ok e → R.code w .top e

/-- A text is to be read with names for expressions that may always be evaluated. -/
def Admits (R : Regime σ) (r : Request) : Prop := ∀ w, r.Names (R.code w .top)

/-- Where everything may be evaluated, everything may be asked for. -/
theorem admits_ofMachine {Fits : Machine (σ × List Event) → Prop}
    {Kept : Machine (σ × List Event) → Machine (σ × List Event) → Prop} {hrefl : ∀ m, Kept m m}
    {htrans : ∀ m m' m'', Kept m m' → Kept m' m'' → Kept m m''} (r : Request) :
    (ofMachine Fits Kept hrefl htrans).Admits r := by
  intro w
  cases r with
  | eval => exact fun _ _ _ => trivial
  | _ => exact trivial

/-- What a request makes of a client, watched and not watched. -/
structure Serves (R : Regime σ) (w : R.World) (m : Machine (σ × List Event))
    (C : Client (σ × List Event)) (C' : Client σ) : Prop where
  same : C' = C.unwatched
  owns : ∃ w', R.le w w' ∧ R.Kept w m C.machine ∧ R.Owns w' C

section Served

variable {S : Setting σ} (h : R.Laws S) {w : R.World} {C : Client (σ × List Event)}

theorem Serves.unchanged (hC : R.Owns w C) : R.Serves w C.machine C C.unwatched :=
  ⟨rfl, w, R.le_refl w, R.kept_refl, hC⟩

/-- Something that is looked up among what a client has, and may not be there. -/
theorem Serves.elim {α : Type} {o : Option α} {f : α → Client (σ × List Event)} {g : α → Client σ}
    (hC : R.Owns w C) (hf : ∀ a, o = some a → R.Serves w C.machine (f a) (g a)) :
    R.Serves w C.machine (o.elim C f) (o.elim C.unwatched g) := by
  cases o with
  | none => exact .unchanged hC
  | some a => exact hf a rfl

include h

theorem Owns.names (hC : R.Owns w C) {outer : Scope} (houter : R.Names w outer)
    (names : List (String × Nat)) : R.Names w (C.scope outer names) := by
  induction names with
  | nil => exact houter
  | cons binding names ih =>
    obtain ⟨x, i⟩ := binding
    intro name e hlookup
    simp only [Client.scope, List.foldr_cons] at hlookup ih
    cases hv : C.values[i]? with
    | none =>
      rw [hv] at hlookup
      exact ih name e hlookup
    | some v =>
      rw [hv, Option.elim_some, Scope.lookup_define] at hlookup
      split at hlookup
      · cases hlookup
        exact h.code_top (hC.values _ (List.mem_of_getElem? hv))
      · exact ih name e hlookup

theorem Owns.at (hC : R.Owns w C) {w' : R.World} (hle : R.le w w')
    {m : Machine (σ × List Event)} (hm : R.Fits w' m) : R.Owns w' { C with machine := m } where
  machine := hm
  values v hv := h.value_mono hle (hC.values v hv)
  cursors c hc := h.value_mono hle (hC.cursors c hc)

theorem serves_gain (hC : R.Owns w C) {x : Eval (σ × List Event) Expr} {y : Eval σ Expr}
    (hx : R.Holds w R.value x y) :
    R.Serves w C.machine (C.gain (x C.machine)) (C.unwatched.gain (y C.machine.unwatched)) := by
  obtain ⟨hsame, w', hle, hfits, hkept, hvalue⟩ := hx C.machine hC.machine
  rw [hsame]
  generalize x C.machine = r at hfits hkept hvalue ⊢
  cases r with
  | error halt m => exact ⟨rfl, w', hle, hkept, hC.at h hle hfits⟩
  | ok v m =>
    refine ⟨rfl, w', hle, hkept, { hC.at h hle hfits with values := fun u hu => ?_ }⟩
    rcases List.mem_cons.mp hu with rfl | hu
    · exact hvalue u m rfl
    · exact h.value_mono hle (hC.values u hu)

theorem serves_keep (hC : R.Owns w C) {α : Type} {P : R.World → α → Prop}
    {x : Eval (σ × List Event) α} {y : Eval σ α} (hx : R.Holds w P x y) :
    R.Serves w C.machine (C.keep (x C.machine)) (C.unwatched.keep (y C.machine.unwatched)) := by
  obtain ⟨hsame, w', hle, hfits, hkept, -⟩ := hx C.machine hC.machine
  rw [hsame]
  refine ⟨?_, w', hle, hkept, hC.at h hle hfits⟩
  cases x C.machine <;> rfl

theorem serves_advance (hC : R.Owns w C) {i : Nat} {c : Cursor} (hc : R.list w c.rest)
    {x : Eval (σ × List Event) Step} {y : Eval σ Step} (hx : R.Holds w R.Stepped x y) :
    R.Serves w C.machine (C.advance i c (x C.machine))
      (C.unwatched.advance i c (y C.machine.unwatched)) := by
  obtain ⟨hsame, w', hle, hfits, hkept, hstep⟩ := hx C.machine hC.machine
  rw [hsame]
  generalize x C.machine = r at hfits hkept hstep ⊢
  have hset : ∀ c' : Cursor, R.list w' c'.rest → ∀ c₀ ∈ C.cursors.set i c', R.list w' c₀.rest := by
    intro c' hc' c₀ hc₀
    rcases List.mem_or_eq_of_mem_set hc₀ with hc₀ | rfl
    · exact h.value_mono hle (hC.cursors c₀ hc₀)
    · exact hc'
  cases r with
  | error halt m =>
    refine ⟨rfl, w', hle, hkept, { hC.at h hle hfits with cursors := ?_ }⟩
    exact hset { c with finished := c.iterates } (h.value_mono hle hc)
  | ok step m =>
    obtain ⟨hrest, helement⟩ := hstep step m rfl
    refine ⟨rfl, w', hle, hkept, ⟨hfits, fun v hv => ?_, hset (c.after step) hrest⟩⟩
    rcases List.mem_append.mp hv with hv | hv
    · obtain ⟨_ | _ | x, rest⟩ := step
      · cases hv
      · cases hv
      · obtain rfl := List.mem_singleton.mp hv
        exact helement v rfl
    · exact h.value_mono hle (hC.values v hv)

/-- One request. -/
theorem serves_request (hreads : R.Reads) (hC : R.Owns w C) (n : Nat) {r : Request}
    (hr : R.Admits r) :
    R.Serves w C.machine (C.serve (Engine.watched S n) n r)
      (C.unwatched.serve (Engine.actual S n) n r) := by
  have hsound := h.sound n
  have hvalue : ∀ {i v}, C.values[i]? = some v → R.value w v := fun hv =>
    hC.values _ (List.mem_of_getElem? hv)
  cases r with
  | eval outer names source =>
    refine .elim hC fun e he => ?_
    have hnames := hC.names h (hr w) names
    cases hparse : parseIn (C.scope outer names) source with
    | error error =>
      rw [hparse] at he
      cases he
    | ok e' =>
      rw [hparse] at he
      cases he
      exact serves_gain h hC (hsound.eval (hreads hnames hparse))
  | again i => exact .elim hC fun v hv => serves_gain h hC (hsound.eval (h.code_top (hvalue hv)))
  | apply i j =>
    refine .elim hC fun f hf => .elim hC fun a ha => ?_
    exact serves_gain h hC (hsound.apply (hvalue hf) (hvalue ha))
  | materialize i => exact .elim hC fun v hv => serves_gain h hC (hsound.materialize (hvalue hv))
  | render i =>
    refine .elim hC fun v hv => ?_
    have hx := (hsound.materialize (hvalue hv)).bind (Q := fun _ _ => True) fun w₁ u h₁ _ =>
      Holds.fueled (o := u.display? n) fun _ _ => trivial
    exact serves_keep h hC hx
  | display i => exact .elim hC fun v hv => serves_keep h hC (hsound.displayText (hvalue hv))
  | traverse i iterates =>
    refine .elim hC fun l hl => ?_
    obtain ⟨v, hv, hl⟩ := Option.bind_eq_some_iff.mp hl
    refine ⟨rfl, w, R.le_refl w, R.kept_refl, { hC with cursors := fun c hc => ?_ }⟩
    rcases List.mem_cons.mp hc with rfl | hc
    · cases v with
      | list =>
        cases hl
        exact hvalue hv
      | _ => cases hl
    · exact hC.cursors c hc
  | next i =>
    refine .elim hC fun c hc => ?_
    have hrest := hC.cursors c (List.mem_of_getElem? hc)
    cases hfinished : c.finished with
    | true => exact .unchanged hC
    | false =>
      cases hiterates : c.iterates with
      | true => exact serves_advance h hC hrest (holds_checked h (hsound.advance hrest))
      | false => exact serves_advance h hC hrest (hsound.advance hrest)
  | signal cancelled checksLeft =>
    obtain ⟨hfits, hkept⟩ := h.signal hC.machine cancelled checksLeft
    exact ⟨rfl, w, R.le_refl w, hkept, hC.at h (R.le_refl w) hfits⟩

/-- **Whatever an application asks for**, what it has keeps to the regime, and it has the same when
the evaluator is not watched. -/
theorem Laws.history (hreads : R.Reads) (hC : R.Owns w C) {requests : List (Nat × Request)}
    (hrequests : ∀ r ∈ requests, R.Admits r.2) :
    R.Serves w C.machine (C.history (Engine.watched S) requests)
      (C.unwatched.history (Engine.actual S) requests) := by
  induction requests generalizing w C with
  | nil => exact .unchanged hC
  | cons r requests ih =>
    obtain ⟨hsame, w', hle, hkept, hC'⟩ :=
      serves_request h hreads hC r.1 (hrequests r List.mem_cons_self)
    obtain ⟨hsame', w'', hle', hkept', hC''⟩ :=
      ih hC' fun r' hr' => hrequests r' (List.mem_cons_of_mem r hr')
    refine ⟨?_, w'', R.le_trans hle hle', R.kept_trans hkept hle hkept', hC''⟩
    exact (congrArg (·.history (Engine.actual S) requests) hsame).trans hsame'

end Served

end Regime

end LazyExpr
