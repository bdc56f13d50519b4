import LazyExpr.Proofs.Eval.Run
import LazyExpr.Session.Native

/-!
# Applications that keep to themselves

A function of the embedding application may ask the evaluator for anything.  The functions
considered here are *independent*: they read and change the application's own state and may make
lists, but ask for nothing that takes time, and never to stop.

To speak of the calls that an evaluation makes, the application can be made to note each call in a
list beside its own state (`Host.logged`).  That keeps it independent, and calls are only ever
added.

* `Host.ofTable_independent` tells which functions with a counter are of this kind.
-/

namespace LazyExpr

open Eval

/-! ## 1. Independent functions -/

/-- An action that asks the evaluator for nothing but new lists. -/
inductive Action.Independent {σ : Type} : Action σ → Prop where
  | give (value : Expr) : Independent (.give value)
  | fail (fault : Fault) : Independent (.fail fault)
  | read {next : σ → Action σ} (h : ∀ state, Independent (next state)) : Independent (.read next)
  | write (state : σ) {next : Action σ} (h : Independent next) : Independent (.write state next)
  | newList (elements : List Expr) {next : Expr → Action σ} (h : ∀ list, Independent (next list)) :
    Independent (.newList elements next)

/-- An application all of whose functions are independent. -/
def Host.Independent {σ : Type} (host : Host σ) : Prop :=
  ∀ entry arguments, (host entry arguments).Independent

/-- Whether a function with a counter leaves the evaluator alone. -/
def Native.isIndependent : Native → Bool
  | tick | echo | pack | fail | failAt _ => true
  | greet | apply | cancelAt _ => false

theorem Native.act_independent {native : Native} (h : native.isIndependent = true)
    (arguments : List Expr) : (native.act arguments).Independent := by
  cases native with
  | tick | echo => exact .read fun _ => .write _ (.give _)
  | pack => exact .newList _ fun _ => .give _
  | fail => exact .fail _
  | failAt n =>
    refine .read fun count => .write _ ?_
    show Action.Independent (if count + 1 = n then _ else _)
    split
    · exact .fail _
    · exact .give _
  | greet | apply | cancelAt => cases h

theorem Host.ofTable_independent {table : Array Native}
    (h : ∀ native ∈ table, native.isIndependent = true) : (Host.ofTable table).Independent := by
  intro entry arguments
  unfold Host.ofTable
  split
  · next native hat => exact Native.act_independent (h native (Array.mem_of_getElem? hat)) arguments
  · exact .give .null

/-! ## 2. Noting calls -/

/-- A call of a function of the application. -/
structure HostCall where
  entry : Nat
  arguments : List Expr

/-- The action on a state that has something beside it, which is left as it is. -/
def Action.beside {σ γ : Type} : Action σ → Action (σ × γ)
  | .give value => .give value
  | .fail fault => .fail fault
  | .read next => .read fun s => (next s.1).beside
  | .write state next => .read fun s => .write (state, s.2) next.beside
  | .newList elements next => .newList elements fun list => (next list).beside
  | .display value next => .display value fun text => (next text).beside
  | .apply function argument next => .apply function argument fun value => (next value).beside
  | .cancel next => .cancel next.beside

/-- The application that notes its calls, the latest last. -/
def Host.logged {σ : Type} (host : Host σ) : Host (σ × List HostCall) := fun entry arguments =>
  .read fun s => .write (s.1, s.2 ++ [⟨entry, arguments⟩]) (host entry arguments).beside

section Logged

variable {σ γ : Type}

theorem Action.Independent.beside {a : Action σ} (h : a.Independent) :
    (a.beside (γ := γ)).Independent := by
  induction h with
  | give value => exact .give value
  | fail fault => exact .fail fault
  | read _ ih => exact .read fun s => ih s.1
  | write state _ ih => exact .read fun s => .write (state, s.2) ih
  | newList elements _ ih => exact .newList elements ih

theorem Host.Independent.logged {host : Host σ} (h : host.Independent) : host.logged.Independent :=
  fun entry arguments => .read fun _ => .write _ (h entry arguments).beside

/-- An action on the state alone leaves alone what stands beside it. -/
theorem Action.Independent.beside_host (S : Setting (σ × γ)) {a : Action σ} (ha : a.Independent) :
    ∀ (n : Nat) (m : Machine (σ × γ)),
      (Ended.machine (perform S n a.beside m)).host.2 = m.host.2
  | 0, _ => rfl
  | n + 1, m => by
    cases ha with
    | give value => rfl
    | fail fault => rfl
    | read h => exact (h m.host.1).beside_host S n m
    | write state h =>
      cases n with
      | zero => rfl
      | succ n => exact h.beside_host S n { m with host := (state, m.host.2) }
    | newList elements h =>
      exact (h _).beside_host S n
        { m with cells := m.cells ++ Array.replicate elements.length none }

/-- A call is noted behind those before it. -/
theorem Host.Independent.logged_grows {host : Host σ} (h : host.Independent)
    (S : Setting (σ × List HostCall)) (entry : Nat) (arguments : List Expr) :
    ∀ (n : Nat) (m : Machine (σ × List HostCall)),
      m.host.2 <+: (Ended.machine (perform S n (host.logged entry arguments) m)).host.2
  | 0, _ | 1, _ => List.prefix_rfl
  | n + 2, m => by
    show _ <+: (Ended.machine (perform S n (host entry arguments).beside
      { m with host := (m.host.1, m.host.2 ++ [⟨entry, arguments⟩]) })).host.2
    rw [(h entry arguments).beside_host]
    exact List.prefix_append _ _

end Logged

end LazyExpr
