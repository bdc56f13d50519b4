import LazyExpr.Proofs.Eval.Bond
import LazyExpr.Proofs.Eval.Host
import LazyExpr.Proofs.Expr.Erasure

/-!
# More fuel

An evaluation that ends with a value or a fault ends the same way with more fuel.  The comparison is
carried out for two applications at once: the one on the right keeps a larger state, of which the
one on the left sees a part, may take more fuel for each call, and may write values that the left
one cannot.

* `eval_more`, `apply_more`, `pull_more` — **more fuel changes no answer.**
* `materializeValue_writing`, `renderValue_writing` — **more values that can be written change no
  answer.**
* `renderValue_logged` — **an application that notes its calls changes no answer**, given the fuel
  for noting them.
-/

namespace LazyExpr

open Eval

/-! ## 1. Runs that are repeated -/

/-- The machine as it looks to an application that sees a part of the state. -/
def Machine.seen {σ τ : Type} (view : τ → σ) (m : Machine τ) : Machine σ :=
  { cells := m.cells, depth := m.depth, cancelled := m.cancelled, checksLeft := m.checksLeft,
    host := view m.host }

/-- How a run goes when it is repeated with more fuel: the same way, if it had enough. -/
inductive Repeats {σ τ α β : Type} (view : τ → σ) (P : α → β → Prop) :
    Ended σ α → Ended τ β → Prop where
  | ok {a : α} {b : β} (m : Machine τ) (h : P a b) : Repeats view P (.ok a (m.seen view)) (.ok b m)
  | fault (fault : Fault) (m : Machine τ) :
    Repeats view P (.error (.fault fault) (m.seen view)) (.error (.fault fault) m)
  | unknown (m : Machine σ) (r : Ended τ β) : Repeats view P (.error .outOfFuel m) r

/-- All evaluations of a family repeat the one on the left. -/
def RepeatedBy {σ τ α β : Type} (view : τ → σ) (P : α → β → Prop) (x : Eval σ α)
    (y : Nat → Eval τ β) : Prop :=
  ∀ i (m : Machine τ), Repeats view P (x (m.seen view)) (y i m)

namespace RepeatedBy

variable {σ τ α β γ δ : Type} {view : τ → σ} {P : α → β → Prop} {Q : γ → δ → Prop}

theorem pure {a : α} {b : β} (h : P a b) : RepeatedBy view P (pure a) fun _ => pure b :=
  fun _ m => .ok m h

theorem fail (fault : Fault) : RepeatedBy view P (fail fault) fun _ => fail fault :=
  fun _ m => .fault fault m

theorem bind {x : Eval σ α} {y : Nat → Eval τ β} {f : α → Eval σ γ} {g : Nat → β → Eval τ δ}
    (hx : RepeatedBy view P x y)
    (hf : ∀ a b, P a b → RepeatedBy view Q (f a) fun i => g i b) :
    RepeatedBy view Q (x >>= f) fun i => y i >>= g i := by
  intro i m
  have hxy := hx i m
  show Repeats view Q ((x >>= f) (m.seen view)) ((y i >>= g i) m)
  rw [bind_run, bind_run]
  generalize x (m.seen view) = r at hxy ⊢
  generalize y i m = r' at hxy ⊢
  cases hxy with
  | ok m' hab => exact hf _ _ hab i m'
  | fault fault m' => exact .fault fault m'
  | unknown m' r => exact .unknown m' _

theorem check : RepeatedBy view (fun _ _ => True) check fun _ => check := by
  intro i ⟨cells, depth, cancelled, left, host⟩
  cases cancelled with
  | true => exact .fault .cancelled ⟨cells, depth, true, left, host⟩
  | false =>
    match left with
    | none => exact .ok (P := fun _ _ => True) ⟨cells, depth, false, none, host⟩ trivial
    | some 0 => exact .fault .cancelled ⟨cells, depth, true, some 0, host⟩
    | some (left + 1) =>
      exact .ok (P := fun _ _ => True) ⟨cells, depth, false, some left, host⟩ trivial

theorem above {x : Eval σ α} {y : Nat → Eval τ β} (h : RepeatedBy view P x y) (depth : Nat) :
    RepeatedBy view P (above depth x) fun i => above depth (y i) := by
  intro i m
  have hxy := h i { m with depth := depth + 1 }
  show Repeats view P (Eval.above depth x (m.seen view)) (Eval.above depth (y i) m)
  rw [above_run, above_run]
  change Repeats view P (x { m.seen view with depth := depth + 1 }) _ at hxy
  generalize x { m.seen view with depth := depth + 1 } = r at hxy ⊢
  generalize y i { m with depth := depth + 1 } = r' at hxy ⊢
  cases hxy with
  | ok m' hab => exact .ok { m' with depth } hab
  | fault fault m' => exact .fault fault { m' with depth }
  | unknown m' r => exact .unknown _ _

theorem nested {x : Eval σ α} {y : Nat → Eval τ β} (h : RepeatedBy view P x y)
    (limit : Option Nat) : RepeatedBy view P (nested limit x) fun i => nested limit (y i) := by
  intro i m
  cases limit with
  | none => exact h.above m.depth i m
  | some l =>
    show Repeats view P (Eval.nested (some l) x (m.seen view)) (Eval.nested (some l) (y i) m)
    rw [nested_some, nested_some]
    show Repeats view P (if l ≤ m.depth then _ else Eval.above m.depth x (m.seen view)) _
    split
    · exact .fault (.recursionLimit l) m
    · exact h.above m.depth i m

theorem onCells (f : Cells → α × Cells) :
    RepeatedBy view (· = ·) (onCells f) fun _ => onCells f :=
  fun _ m => .ok { m with cells := (f m.cells).2 } rfl

theorem newList (xs : List Expr) (env : Env) :
    RepeatedBy view (· = ·) (newList xs env) fun _ => newList xs env := by
  rw [newList_eq]
  exact onCells _

theorem force {S : Setting σ} {S' : Setting τ} (hsame : S.remembers = S'.remembers)
    (cell : Option Nat) {x : Eval σ Expr} {y : Nat → Eval τ Expr}
    (h : RepeatedBy view (· = ·) x y) :
    RepeatedBy view (· = ·) (force S cell x) fun i => force S' cell (y i) := by
  unfold Eval.force
  simp only [hsame, known_eq]
  refine (onCells _).bind ?_
  rintro seen _ rfl
  cases seen with
  | some v => exact pure rfl
  | none =>
    refine h.bind ?_
    rintro v _ rfl
    simp only [remember_eq]
    exact onCells _

/-- What is there with some fuel is there with more. -/
theorem fueled {o : Option α} {o' : Nat → Option α} (h : ∀ i, Below o (o' i)) :
    RepeatedBy view (· = ·) (fueled o) fun i => fueled (o' i) := by
  intro i m
  cases o with
  | none => exact .unknown _ _
  | some a =>
    show Repeats view _ _ (Eval.fueled (o' i) m)
    rw [h i a rfl]
    exact .ok m rfl

end RepeatedBy

/-! ## 2. The functions of the application -/

section Actions

variable {σ γ : Type}

theorem Action.Independent.repeated (S S' : Setting σ) {a : Action σ} (ha : a.Independent) :
    ∀ {n k : Nat}, n ≤ k → ∀ m : Machine σ,
      Repeats id (· = ·) (perform S n a (m.seen id)) (perform S' k a m)
  | 0, _, _, _ => .unknown _ _
  | n + 1, k + 1, h, m => by
    have h : n ≤ k := Nat.le_of_succ_le_succ h
    cases ha with
    | give value => exact .ok m rfl
    | fail fault => exact .fault fault m
    | read ha => exact (ha m.host).repeated S S' h m
    | write state ha => exact ha.repeated S S' h { m with host := state }
    | newList elements ha =>
      exact (ha _).repeated S S' h
        { m with cells := m.cells ++ Array.replicate elements.length none }

/-- A change of the state beside something else takes one more step. -/
theorem Action.Independent.beside_repeated (S : Setting σ) (S' : Setting (σ × γ)) {a : Action σ}
    (ha : a.Independent) : ∀ {n k : Nat}, 2 * n ≤ k → ∀ m : Machine (σ × γ),
      Repeats Prod.fst (· = ·) (perform S n a (m.seen Prod.fst)) (perform S' k a.beside m)
  | 0, _, _, _ => .unknown _ _
  | n + 1, k + 2, h, m => by
    have h : 2 * n ≤ k := by omega
    have h' : 2 * n ≤ k + 1 := by omega
    cases ha with
    | give value => exact .ok m rfl
    | fail fault => exact .fault fault m
    | read ha => exact (ha m.host.1).beside_repeated S S' h' m
    | write state ha => exact ha.beside_repeated S S' h { m with host := (state, m.host.2) }
    | newList elements ha =>
      exact (ha _).beside_repeated S S' h'
        { m with cells := m.cells ++ Array.replicate elements.length none }
  | _ + 1, 0, h, _ | _ + 1, 1, h, _ => by omega

theorem Host.Independent.logged_repeated {host : Host σ} (hfree : host.Independent) (S : Setting σ)
    (S' : Setting (σ × List HostCall)) (entry : Nat) (args : List Expr) {n k : Nat}
    (h : 2 * n + 2 ≤ k) (m : Machine (σ × List HostCall)) :
    Repeats Prod.fst (· = ·) (perform S n (host entry args) (m.seen Prod.fst))
      (perform S' k (host.logged entry args) m) := by
  obtain ⟨k, rfl⟩ := Nat.exists_eq_add_of_le' (show 2 ≤ k by omega)
  exact (hfree entry args).beside_repeated S S' (by omega)
    { m with host := (m.host.1, m.host.2 ++ [⟨entry, args⟩]) }

end Actions

/-! ## 3. The comparison -/

/-- The setting with another application and another way to write values. -/
def Setting.adapted {σ τ : Type} (S : Setting σ) (host : Host τ)
    (write : (fuel : Nat) → Expr → Option String) : Setting τ :=
  { host, remembers := S.remembers, depthLimit := S.depthLimit, find := S.find, write }

/-- The same evaluator with a fuel that goes with the one on the left, an application that keeps
more, and a way to write values that gives what the one on the left gives. -/
def Bond.slower {σ τ : Type} (S : Setting σ) (host : Host τ)
    (write : (fuel : Nat) → Expr → Option String) (view : τ → σ) (Goes : Nat → Nat → Prop)
    (hgoes : ∀ {n k}, Goes (n + 1) k → ∃ k', Goes n k' ∧ k = k' + 1)
    (hwrite : ∀ {n k}, Goes n k → ∀ v, Below (S.write n v) (write k v))
    (hperform : ∀ entry args n k, Goes n k → ∀ m : Machine τ,
      Repeats view (· = ·) (perform S n (S.host entry args) (m.seen view))
        (perform (S.adapted host write) k (host entry args) m)) : Bond σ τ where
  left := S
  right := S.adapted host write
  like := .equality S.find
  Ample n g := ∀ i, Goes n (g i)
  Follows _ P x y := RepeatedBy view (P ()) x y
  ample_succ h := by
    choose k hk using fun i => hgoes (h i)
    exact ⟨k, fun i => (hk i).1, funext fun i => (hk i).2⟩
  follows_pure h := .pure h
  follows_bind hx hf := hx.bind fun a b hab => hf () a b trivial hab
  follows_fail h := h.eq ▸ .fail _
  follows_stray _ _ _ hname := hname ▸ .fail _
  follows_zero _ _ := fun _ _ => .unknown _ _
  follows_check := .check
  follows_nested h := h.nested _
  follows_newList := by
    rintro w env _ xs xs' rfl h
    obtain rfl := eq_of_forall₂ (h.imp fun _ _ h => h.2)
    exact RepeatedBy.newList xs env
  follows_force := by
    rintro w n g x x' xs xs' env env' cell cell' hample hl hx
    cases hl
    have hsame : S.remembers = (S.adapted host write).remembers := rfl
    exact RepeatedBy.force hsame cell hx
  follows_display := by
    rintro w n g v _ hample rfl
    exact RepeatedBy.fueled fun i => hwrite (hample i) v
  follows_perform := by
    rintro w n g args args' entry hample h
    obtain rfl := eq_of_forall₂ h
    exact fun i => hperform entry args n (g i) (hample i)

/-! ## 4. More fuel -/

section More

variable {σ : Type}

/-- With more fuel there is no other answer from outside: the application asks for nothing that
takes fuel, and what can be written is written in the same way. -/
structure Setting.Steady (S : Setting σ) : Prop where
  host : S.host.Independent
  write : ∀ {n k}, n ≤ k → ∀ v, Below (S.write n v) (S.write k v)

variable (S : Setting σ) (hsteady : S.Steady)

/-- The same evaluator with more fuel. -/
def Bond.moreFuel : Bond σ σ :=
  .slower S S.host S.write id (· ≤ ·)
    (fun {_ k} h =>
      ⟨k - 1, Nat.le_sub_of_add_le h, (Nat.sub_add_cancel (Nat.le_of_add_left_le h)).symm⟩)
    hsteady.write fun entry args _ _ h m => (hsteady.host entry args).repeated S _ h m

/-- An answer that was found is the one that is found again. -/
theorem Repeats.eq {α : Type} {r r' : Ended σ α} (h : Repeats id (· = ·) r r')
    (hr : ∀ m, r ≠ .error .outOfFuel m) : r' = r := by
  cases h with
  | ok m hab => rw [hab]; rfl
  | fault fault m => rfl
  | unknown m r' => exact absurd rfl (hr m)

variable {n n' : Nat} (h : n ≤ n') (m : Machine σ)

include hsteady h

theorem eval_more {env : Env} {e : Expr} (hr : ∀ m', eval S n env e m ≠ .error .outOfFuel m') :
    eval S n' env e m = eval S n env e m :=
  (((Bond.moreFuel S hsteady).sound n (fun _ => n') fun _ => h).eval (w := ()) ⟨rfl, rfl⟩ 0 m).eq hr

theorem apply_more {f a : Expr} (hr : ∀ m', apply S n f a m ≠ .error .outOfFuel m') :
    apply S n' f a m = apply S n f a m :=
  (((Bond.moreFuel S hsteady).sound n (fun _ => n') fun _ => h).apply (w := ()) rfl rfl 0 m).eq hr

theorem materialize_more {v : Expr} (hr : ∀ m', materialize S n v m ≠ .error .outOfFuel m') :
    materialize S n' v m = materialize S n v m :=
  (((Bond.moreFuel S hsteady).sound n (fun _ => n') fun _ => h).materialize (w := ()) rfl 0 m).eq hr

theorem pull_more {l : LazyList} (hr : ∀ m', pull S n l m ≠ .error .outOfFuel m') :
    pull S n' l m = pull S n l m := by
  have hp := ((Bond.moreFuel S hsteady).sound n (fun _ => n') fun _ => h).pull (w := ())
    (l := l) rfl 0 m
  refine Repeats.eq ?_ hr
  change Repeats id _ (pull S n l m) (pull S n' l m) at hp
  generalize pull S n l m = r at hp ⊢
  generalize pull S n' l m = r' at hp ⊢
  cases hp with
  | ok m' hab =>
    refine .ok m' ?_
    cases hab with
    | none => rfl
    | some hp => rw [Prod.ext hp.1 (Expr.list.inj hp.2)]
  | fault fault m' => exact .fault fault m'
  | unknown m' => exact .unknown m' _

theorem render_more {v : Expr} (hr : ∀ m', render S n v m ≠ .error .outOfFuel m') :
    render S n' v m = render S n v m :=
  ((Bond.moreFuel S hsteady).follows_render (w := ()) (n := n) (g := fun _ => n')
    (fun _ => h) rfl 0 m).eq hr

theorem renderValue_more {env : Env} {e : Expr}
    (hr : ∀ m', renderValue S n env e m ≠ .error .outOfFuel m') :
    renderValue S n' env e m = renderValue S n env e m :=
  ((Bond.moreFuel S hsteady).follows_renderValue (w := ()) (n := n) (g := fun _ => n') (fun _ => h)
    (e := e) ⟨rfl, rfl⟩ 0 m).eq hr

end More

/-! ## 5. Writing more -/

section Writing

variable {σ : Type} (S : Setting σ) (hfree : S.host.Independent)
  {write : (fuel : Nat) → Expr → Option String} (hwrite : ∀ n v, Below (S.write n v) (write n v))

/-- The same evaluator with a way to write values that gives at least as much. -/
def Bond.writing : Bond σ σ :=
  .slower S S.host write id (· = ·) (fun {n _} h => ⟨n, rfl, h.symm⟩)
    (fun {n _} h => h ▸ hwrite n) fun entry args _ _ h m =>
      (hfree entry args).repeated S _ (Nat.le_of_eq h) m

variable {n : Nat} {env : Env} {e : Expr} (m : Machine σ)

include hfree hwrite

theorem materializeValue_writing (hr : ∀ m', materializeValue S n env e m ≠ .error .outOfFuel m') :
    materializeValue (S.adapted S.host write) n env e m = materializeValue S n env e m :=
  ((Bond.writing S hfree hwrite).follows_materializeValue (w := ()) (n := n) (g := fun _ => n)
    (fun _ => rfl) (e := e) ⟨rfl, rfl⟩ 0 m).eq hr

theorem renderValue_writing (hr : ∀ m', renderValue S n env e m ≠ .error .outOfFuel m') :
    renderValue (S.adapted S.host write) n env e m = renderValue S n env e m :=
  ((Bond.writing S hfree hwrite).follows_renderValue (w := ()) (n := n) (g := fun _ => n)
    (fun _ => rfl) (e := e) ⟨rfl, rfl⟩ 0 m).eq hr

end Writing

/-! ## 6. Noting calls -/

/-- **Noting calls changes no answer.** What an evaluation gives with some fuel, it gives with the
fuel for noting its calls, and beside the application's state it leaves a list of calls. -/
theorem renderValue_logged {σ : Type} (host : Host σ) (hfree : host.Independent) {n k : Nat}
    (h : 2 * n + 2 ≤ k) (env : Env) (e : Expr) (m : Machine (σ × List HostCall)) :
    Repeats Prod.fst (· = ·) (renderValue { host } n env e (m.seen Prod.fst))
      (renderValue { host := host.logged } k env e m) := by
  let B := Bond.slower { host } host.logged Expr.display? Prod.fst (fun n k => 2 * n + 2 ≤ k)
    (fun {n k} h => ⟨k - 1, by omega, by omega⟩) (fun h => display_mono (by omega))
    fun entry args _ _ h m => hfree.logged_repeated _ _ entry args h m
  exact B.follows_renderValue (w := ()) (n := n) (g := fun _ => k) (fun _ => h) (e := e) ⟨rfl, rfl⟩
    0 m

end LazyExpr
