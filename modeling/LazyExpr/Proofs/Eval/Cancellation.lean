import Mathlib
import LazyExpr.Proofs.Eval.Fuel
import LazyExpr.Request

/-!
# Stopping an evaluation changes nothing else

An evaluation with a deadline is compared with the one that is never asked to stop.  As long as no
check has seen the deadline, the two do the same, and their machines differ in nothing but the
number of checks left.  Once a check has seen it, every part of the evaluator hands the fault on,
and nothing is called any more.

The functions of the embedding application are taken to be independent: they make no use of the
evaluator, so a deadline cannot reach into them.  Their calls are those that `Host.logged` notes,
which by `renderValue_logged` has no influence on the rest.

* `renderValue_deadline` — **an evaluation with a deadline ends with the request to stop, after a
  beginning of the calls of the evaluation without a deadline; or it ends like that one, after the
  same calls.**
* `evaluateText_deadline` says the same of requests.
-/

namespace LazyExpr

open Eval

/-! ## 1. Two machines side by side -/

section Runs

variable {σ α β : Type}

/-- The machine without a deadline. -/
def Machine.endless (m : Machine σ) : Machine σ := m.withDeadline none

/-- How an evaluation with a deadline ends, beside the one without: the same way, or early. -/
inductive Parallel (log : σ → List HostCall) (P : α → β → Prop) :
    Ended σ α → Ended σ β → Prop where
  | ok {a : α} {b : β} {m : Machine σ} (hm : m.cancelled = false) (h : P a b) :
    Parallel log P (.ok a m) (.ok b m.endless)
  | halt (halt : Halt) {m : Machine σ} (hm : m.cancelled = false) :
    Parallel log P (.error halt m) (.error halt m.endless)
  | cut {m : Machine σ} {r : Ended σ β} (h : log m.host <+: log r.machine.host) :
    Parallel log P (.error (.fault .cancelled) m) r

/-- What an evaluation with a deadline has in common with one without. The second part is about the
one without alone: calls are only ever added, and what it gives is related to something. -/
structure Keeps (log : σ → List HostCall) (P : α → β → Prop) (x : Eval σ α) (y : Eval σ β) :
    Prop where
  parallel : ∀ m, m.cancelled = false → Parallel log P (x m) (y m.endless)
  grows : ∀ m, log m.host <+: log (Ended.machine (y m)).host
  related : ∀ m b m', y m = .ok b m' → ∃ a, P a b

end Runs

/-! ## 2. What an evaluation can do -/

namespace Keeps

variable {σ α β γ δ : Type} {log : σ → List HostCall} {P : α → β → Prop} {Q : γ → δ → Prop}

theorem pure {a : α} {b : β} (h : P a b) : Keeps log P (pure a) (pure b) where
  parallel _ hm := .ok hm h
  grows _ := List.prefix_rfl
  related := by
    rintro m _ _ ⟨⟩
    exact ⟨a, h⟩

theorem throw (halt : Halt) : Keeps log P (throw halt) (throw halt) where
  parallel _ hm := .halt halt hm
  grows _ := List.prefix_rfl
  related := by rintro m b _ ⟨⟩

theorem grows_andThen {r : Ended σ β} {g : β → Eval σ δ}
    (h : ∀ b m, r = .ok b m → ∀ m, log m.host <+: log (Ended.machine (g b m)).host) :
    log r.machine.host <+: log (r.andThen g).machine.host := by
  cases r with
  | ok b m => exact h b m rfl m
  | error halt m => exact List.prefix_rfl

theorem bind {x : Eval σ α} {y : Eval σ β} {f : α → Eval σ γ} {g : β → Eval σ δ}
    (hx : Keeps log P x y) (hf : ∀ a b, P a b → Keeps log Q (f a) (g b)) :
    Keeps log Q (x >>= f) (y >>= g) := by
  have later : ∀ m, log (Ended.machine (y m)).host <+: log
    (Ended.andThen (y m) g).machine.host := by
    intro m
    refine grows_andThen fun b m' hb => ?_
    obtain ⟨a, hab⟩ := hx.related m b m' hb
    exact (hf a b hab).grows
  refine ⟨fun m hm => ?_, fun m => ?_, fun m d m' h => ?_⟩
  · have hxy := hx.parallel m hm
    have hlater := later m.endless
    rw [bind_run, bind_run]
    generalize x m = r at hxy ⊢
    generalize y m.endless = r' at hxy hlater ⊢
    cases hxy with
    | ok hm' hab => exact (hf _ _ hab).parallel _ hm'
    | halt halt hm' => exact .halt halt hm'
    | cut hcut => exact .cut (hcut.trans hlater)
  · rw [bind_run]
    exact (hx.grows m).trans (later m)
  · rw [bind_run] at h
    cases hy : y m with
    | ok b m₁ =>
      rw [hy] at h
      obtain ⟨a, hab⟩ := hx.related m b m₁ hy
      exact (hf a b hab).related m₁ d m' h
    | error halt m₁ =>
      rw [hy] at h
      cases h

theorem check : Keeps log (fun _ _ => True) (check (σ := σ)) check where
  parallel m hm := by
    rw [check_run hm, check_run (m := m.endless) hm]
    split
    · exact .ok hm trivial
    · exact .cut List.prefix_rfl
    · next left _ =>
      exact Parallel.ok (P := fun _ _ => True) (m := { m with checksLeft := some left }) hm trivial
  grows m := by
    unfold Eval.check
    split
    · exact List.prefix_rfl
    · split <;> exact List.prefix_rfl
  related _ _ _ _ := ⟨(), trivial⟩

theorem above {x : Eval σ α} {y : Eval σ β} (h : Keeps log P x y) (depth : Nat) :
    Keeps log P (above depth x) (above depth y) where
  parallel m hm := by
    have hxy := h.parallel { m with depth := depth + 1 } hm
    rw [above_run, above_run]
    change Parallel log P (x { m with depth := depth + 1 })
      (y { m.endless with depth := depth + 1 }) at hxy
    generalize x { m with depth := depth + 1 } = r at hxy ⊢
    generalize y { m.endless with depth := depth + 1 } = r' at hxy ⊢
    cases hxy with
    | @ok a b m hm' hab => exact .ok (m := { m with depth }) hm' hab
    | @halt halt m hm' => exact .halt (m := { m with depth }) halt hm'
    | cut hcut =>
      refine .cut ?_
      cases r' <;> exact hcut
  grows m := by
    have hy := h.grows { m with depth := depth + 1 }
    rw [above_run]
    generalize y { m with depth := depth + 1 } = r at hy ⊢
    cases r <;> exact hy
  related m b m' hb := by
    rw [above_run] at hb
    cases hr : y { m with depth := depth + 1 } with
    | ok b₁ m₁ =>
      rw [hr] at hb
      cases hb
      exact h.related _ _ _ hr
    | error halt m₁ =>
      rw [hr] at hb
      cases hb

theorem nested {x : Eval σ α} {y : Eval σ β} (h : Keeps log P x y) (limit : Option Nat) :
    Keeps log P (nested limit x) (nested limit y) := by
  cases limit with
  | none =>
    exact ⟨fun m => (h.above m.depth).parallel m, fun m => (h.above m.depth).grows m,
      fun m => (h.above m.depth).related m⟩
  | some l =>
    refine ⟨fun m hm => ?_, fun m => ?_, fun m b m' => ?_⟩
    · rw [nested_some, nested_some]
      show Parallel log P _ (if l ≤ m.depth then _ else Eval.above m.depth y m.endless)
      split
      · exact .halt (.fault (.recursionLimit l)) hm
      · exact (h.above m.depth).parallel m hm
    · rw [nested_some]
      split
      · exact List.prefix_rfl
      · exact (h.above m.depth).grows m
    · rw [nested_some]
      split
      · rintro ⟨⟩
      · exact (h.above m.depth).related m b m'

theorem onCells (f : Cells → α × Cells) : Keeps log (· = ·) (onCells f) (onCells f) where
  parallel m hm := .ok (m := { m with cells := (f m.cells).2 }) hm rfl
  grows _ := List.prefix_rfl
  related _ b _ _ := ⟨b, rfl⟩

theorem newList (xs : List Expr) (env : Env) :
    Keeps log (· = ·) (newList xs env) (newList xs env) := by
  rw [newList_eq]
  exact onCells _

theorem fueled (o : Option α) : Keeps log (· = ·) (fueled o) (fueled o) := by
  cases o with
  | some a => exact pure rfl
  | none => exact throw .outOfFuel

theorem force (S : Setting σ) (cell : Option Nat) {x y : Eval σ Expr} (h : Keeps log (· = ·) x y) :
    Keeps log (· = ·) (force S cell x) (force S cell y) := by
  unfold Eval.force
  rw [known_eq]
  refine (onCells _).bind ?_
  rintro seen _ rfl
  cases seen with
  | some v => exact pure rfl
  | none =>
    refine h.bind ?_
    rintro v _ rfl
    rw [remember_eq]
    exact onCells _

end Keeps

/-! ## 3. The functions of the application -/

section Actions

variable {σ : Type} {log : σ → List HostCall}

theorem Action.Independent.parallel (S : Setting σ) {a : Action σ} (ha : a.Independent) :
    ∀ (n : Nat) (m : Machine σ), m.cancelled = false →
      Parallel log (· = ·) (perform S n a m) (perform S n a m.endless)
  | 0, _, hm => .halt .outOfFuel hm
  | n + 1, m, hm => by
    cases ha with
    | give value => exact .ok hm rfl
    | fail fault => exact .halt (.fault fault) hm
    | read h => exact (h m.host).parallel S n m hm
    | write state h => exact h.parallel S n { m with host := state } hm
    | newList elements h =>
      exact (h _).parallel S n
        { m with cells := m.cells ++ Array.replicate elements.length none } hm

end Actions

/-! ## 4. The comparison -/

/-- The same evaluator with a deadline and without. -/
def Bond.deadline {σ : Type} (S : Setting σ) (log : σ → List HostCall) (hfree : S.host.Independent)
    (hgrows : ∀ entry arguments n m,
      log m.host <+: log (Ended.machine (perform S n (S.host entry arguments) m)).host) :
    Bond σ σ where
  left := S
  right := S
  like := .equality S.find
  Ample n g := ∀ i, g i = n
  Follows _ P x y := Keeps log (P ()) x (y 0)
  ample_succ := Bond.ample_const
  follows_pure h := .pure h
  follows_bind hx hf := hx.bind fun a b hab => hf () a b trivial hab
  follows_fail h := h.eq ▸ .throw _
  follows_stray _ _ _ hname := hname ▸ .throw _
  follows_zero hample h := by
    rw [h 0 (hample 0)]
    exact .throw _
  follows_check := .check
  follows_nested h := h.nested _
  follows_newList := by
    rintro w env _ xs xs' rfl h
    obtain rfl := eq_of_forall₂ (h.imp fun _ _ h => h.2)
    exact Keeps.newList xs env
  follows_force := by
    rintro w n g x x' xs xs' env env' cell cell' hample hl hx
    cases hl
    exact Keeps.force S cell hx
  follows_display := by
    rintro w n g v _ hample rfl
    obtain rfl : g = fun _ => n := funext hample
    exact Keeps.fueled (S.write n v)
  follows_perform := by
    rintro w n g args args' entry hample h
    obtain rfl : g = fun _ => n := funext hample
    obtain rfl := eq_of_forall₂ h
    exact ⟨(hfree entry args).parallel S n, hgrows entry args n, fun _ b _ _ => ⟨b, rfl⟩⟩

/-- How one run ended compared with another: early, on request, after a beginning of the other's
calls; or the same way after the same calls. -/
def EndsEarlyOrLike {σ α : Type} (calls : σ → List HostCall) (r r' : Ended σ α) : Prop :=
  (∃ m, r = .error (.fault .cancelled) m ∧ calls m.host <+: calls r'.machine.host) ∨
    (∃ a m m', r = .ok a m ∧ r' = .ok a m' ∧ m.host = m'.host) ∨
    (∃ halt m m', r = .error halt m ∧ r' = .error halt m' ∧ m.host = m'.host)

theorem Parallel.endsEarlyOrLike {σ α : Type} {log : σ → List HostCall} {r r' : Ended σ α}
    (h : Parallel log (· = ·) r r') : EndsEarlyOrLike log r r' := by
  cases h with
  | @ok a b m hm hab => exact .inr (.inl ⟨a, m, m.endless, rfl, by rw [hab], rfl⟩)
  | @halt halt m hm => exact .inr (.inr ⟨halt, m, m.endless, rfl, rfl, rfl⟩)
  | cut h => exact .inl ⟨_, rfl, h⟩

section Renders

variable {σ : Type}

/-- An evaluation with a deadline beside the one without, whatever is noted of its calls. -/
theorem endsEarlyOrLike_renderValue (S : Setting σ) (log : σ → List HostCall)
    (hfree : S.host.Independent)
    (hgrows : ∀ entry arguments n m,
      log m.host <+: log (Ended.machine (perform S n (S.host entry arguments) m)).host)
    (fuel checks : Nat) (e : Expr) (m : Machine σ) (hm : m.cancelled = false) :
    EndsEarlyOrLike log (renderValue S fuel .top e (m.withDeadline (some checks)))
      (renderValue S fuel .top e (m.withDeadline none)) := by
  let B := Bond.deadline S log hfree hgrows
  have he : B.like.code () .top .top e e := ⟨rfl, rfl⟩
  have h := B.follows_renderValue (n := fuel) (g := fun _ => fuel) (fun _ => rfl) he
  exact (h.parallel (m.withDeadline (some checks)) hm).endsEarlyOrLike

/-- **A deadline is transparent.** An expression is evaluated and written with a deadline, from any
machine that was not asked to stop.  That ends with the request to stop, or with the same text or
the same failure as without the deadline.  When calls are noted, then in the first case those that
were made are a beginning of the calls that are made without the deadline, and in the second case
they are the same. -/
theorem renderValue_deadline (host : Host σ) (hfree : host.Independent) (fuel checks : Nat)
    (e : Expr) :
    (∀ m : Machine σ, m.cancelled = false →
      EndsEarlyOrLike (fun _ => [])
        (renderValue { host } fuel .top e (m.withDeadline (some checks)))
        (renderValue { host } fuel .top e (m.withDeadline none))) ∧
    ∀ m : Machine (σ × List HostCall), m.cancelled = false →
      EndsEarlyOrLike Prod.snd
        (renderValue { host := host.logged } fuel .top e (m.withDeadline (some checks)))
        (renderValue { host := host.logged } fuel .top e (m.withDeadline none)) := by
  refine ⟨fun m hm => ?_, fun m hm => ?_⟩
  · exact endsEarlyOrLike_renderValue _ _ hfree (fun _ _ _ _ => List.prefix_rfl) fuel checks e m hm
  · exact endsEarlyOrLike_renderValue _ _ hfree.logged
      (fun entry args n m => hfree.logged_grows _ entry args n m) fuel checks e m hm

/-- A function that counts is called twice, with a deadline between the two calls. -/
theorem renderValue_deadline_ticks :
    let tick : Expr := .function ⟨"tick", 0, .foreign 0⟩
    let run (checks : Option Nat) : Ended _ _ :=
      renderValue { host := (Host.ofTable #[.tick]).logged } 9 .top
      (.binary .add tick tick) ((Machine.fresh (0, [])).withDeadline checks)
    ((run (some 2)).machine.host.2 = [⟨0, []⟩] ∧
      (run none).machine.host.2 = [⟨0, []⟩, ⟨0, []⟩]) ∧
      EndsEarlyOrLike Prod.snd (run (some 2)) (run none) := by
  refine ⟨⟨rfl, rfl⟩, ?_⟩
  refine (renderValue_deadline (Host.ofTable #[.tick]) (Host.ofTable_independent ?_) 9 2 _).2 _ rfl
  simp [Native.isIndependent]

end Renders

/-- A request with a deadline is stopped, or it is answered like one without. -/
theorem evaluateText_deadline (checks : Nat) (source : String) :
    evaluateText (some checks) source = .error (.fault .cancelled) ∨
      evaluateText (some checks) source = evaluateText none source := by
  unfold evaluateText
  cases parse source with
  | error e => exact .inr rfl
  | ok e =>
    have hends := endsEarlyOrLike_renderValue .standard (fun _ => []) (fun _ _ => .give .null)
      (fun _ _ _ _ => List.prefix_rfl) ampleFuel checks e (.fresh ()) rfl
    have hresult : ∀ deadline, evaluateExpr deadline e =
        (renderValue .standard ampleFuel .top e).result
          ((Machine.fresh ()).withDeadline deadline) :=
      fun _ => rfl
    simp only [hresult, Eval.result]
    rcases hends with ⟨m, h, -⟩ | ⟨a, m, m', h, h', -⟩ | ⟨halt, m, m', h, h', -⟩
    · rw [h]
      exact .inl rfl
    · rw [h, h']
      exact .inr rfl
    · rw [h, h']
      exact .inr rfl

end LazyExpr
