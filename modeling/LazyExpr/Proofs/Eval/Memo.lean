import LazyExpr.Proofs.Eval.CacheFree
import LazyExpr.Proofs.Expr.Readable

/-!
# Remembered elements

An element of a list literal is evaluated once and then kept in its cell.  A *ledger* says what each
cell is for: the element expression and the environment that it belongs to.  A machine fits a ledger
if each of its filled cells holds what the evaluator without a memory gives for that expression in
that environment.

Every evaluation keeps the machine in line with a ledger that only grows, however it ends, and gives
what the evaluator without a memory gives.  The comparison is with all larger fuels at once: a
remembered element costs nothing, where the other evaluator may need any amount of fuel; and on the
other hand, as far as the other gets with the same fuel, this one gets as well.

* `Ledger.Fits` — the invariant.
* `Bond.memo` — **an evaluator with a memory agrees with the one without**, except that it may end
  because evaluations are nested too deeply.
* `claims_of_parseIn` — an expression that was read has no cells, so any ledger will do for it.
-/

namespace LazyExpr

open Eval

/-! ## 1. Ledgers -/

/-- What the cells of a machine are for. -/
abbrev Ledger := List (Expr × Env)

/-- The evaluator without a memory gives a value. -/
def Yields (env : Env) (x v : Expr) : Prop := ∃ n, evalAnswer n env x = .value v.erase

theorem Yields.unique {env : Env} {x v v' : Expr} (h : Yields env x v) (h' : Yields env x v') :
    v.Alike v' := by
  obtain ⟨n, hn⟩ := h
  obtain ⟨n', hn'⟩ := h'
  have hmore := evalAnswer_more (Nat.le_max_left n n') env x
  have hmore' := evalAnswer_more (Nat.le_max_right n n') env x
  rw [hn] at hmore
  rw [hn'] at hmore'
  have hsame := (hmore.eq fun h => nomatch h).symm.trans (hmore'.eq fun h => nomatch h)
  exact Answer.value.inj hsame

/-- Elements that are alike yield the same. -/
theorem Yields.alike {env env' : Env} {x x' v : Expr} (h : Yields env x v) (henv : env.Alike env')
    (hx : x.Alike x') : Yields env' x' v := by
  obtain ⟨n, hn⟩ := h
  exact ⟨n, (evalAnswer_eq (Machine.fresh_plain ()) henv.symm hx.symm).trans hn⟩

theorem Yields.of_alike {env : Env} {x v v' : Expr} (h : Yields env x v) (hv : v.Alike v') :
    Yields env x v' := by
  obtain ⟨n, hn⟩ := h
  exact ⟨n, hn.trans (congrArg Answer.value hv)⟩

namespace Ledger

/-- A cell is in the ledger for what it is claimed to be for. -/
def Owns (Γ : Ledger) (c : Claim) : Prop := Γ[c.address]? = some (c.element, c.env)

theorem Owns.mono {Γ Γ' : Ledger} {c : Claim} (h : Γ <+: Γ') (hc : Γ.Owns c) : Γ'.Owns c := by
  obtain ⟨new, rfl⟩ := h
  obtain ⟨hlt, -⟩ := List.getElem?_eq_some_iff.mp hc
  exact (List.getElem?_append_left hlt).trans hc

/-- All cells that are filled hold what they are for. -/
structure Fits {σ : Type} (Γ : Ledger) (m : Machine σ) : Prop where
  plain : m.Plain
  size : Γ.length = m.cells.size
  filled : ∀ {a : Nat} {v : Expr}, (m.cells[a]?).join = some v →
    ∃ x env, Γ[a]? = some (x, env) ∧ (∀ c ∈ v.claims, Γ.Owns c) ∧ Yields env x v

theorem fits_fresh {σ : Type} (host : σ) : Ledger.Fits [] (Machine.fresh host) where
  plain := Machine.fresh_plain host
  size := rfl
  filled h := nomatch h

theorem Fits.atDepth {σ : Type} {Γ : Ledger} {m : Machine σ} (h : Γ.Fits m) (depth : Nat) :
    Γ.Fits { m with depth } := ⟨h.plain, h.size, h.filled⟩

/-- The cells of a list that is entered at the end. -/
theorem owns_cellClaims {env : Env} : ∀ {Γ : Ledger} {xs : List Expr} {c : Claim},
    c ∈ cellClaims env xs (some Γ.length) → Owns (Γ ++ xs.map fun x => (x, env)) c
  | Γ, x :: xs, c, hc => by
    rw [List.map_cons, List.append_cons]
    rcases List.mem_cons.mp hc with rfl | hc
    · refine Owns.mono (List.prefix_append _ _) ?_
      exact List.getElem?_concat_length
    · refine owns_cellClaims (Γ := Γ ++ [(x, env)]) ?_
      rwa [List.length_append, List.length_singleton]

/-- A list that is entered at the end has its cells there. -/
theorem owns_newList {Γ : Ledger} {xs : List Expr} {env : Env}
    (hxs : ∀ c ∈ claimsAll xs, Γ.Owns c) (henv : ∀ c ∈ env.claims, Γ.Owns c) {c : Claim}
    (hc : c ∈ (LazyList.items xs env (some Γ.length)).claims) :
    Owns (Γ ++ xs.map fun x => (x, env)) c := by
  have hle : Γ <+: Γ ++ xs.map fun x => (x, env) := List.prefix_append _ _
  rcases List.mem_append.mp hc with hc | hc
  · exact owns_cellClaims hc
  · rcases List.mem_append.mp hc with hc | hc
    · exact (hxs c hc).mono hle
    · exact (henv c hc).mono hle

/-- A machine with empty cells for new elements. -/
theorem Fits.append {σ : Type} {Γ : Ledger} {m : Machine σ} (h : Γ.Fits m) (xs : List Expr)
    (env : Env) :
    Ledger.Fits (Γ ++ xs.map fun x => (x, env))
      { m with cells := m.cells ++ Array.replicate xs.length none } where
  plain := h.plain
  size := by simp [h.size]
  filled {a v} hv := by
    obtain ⟨x, env', hat, hclaims, hyields⟩ := h.filled (cell_append hv)
    obtain ⟨hlt, -⟩ := List.getElem?_eq_some_iff.mp hat
    refine ⟨x, env', (List.getElem?_append_left hlt).trans hat, fun c hc => ?_, hyields⟩
    exact (hclaims c hc).mono (List.prefix_append _ _)

/-- A machine with one more cell filled, with what it is for. -/
theorem Fits.fill {σ : Type} {Γ : Ledger} {m : Machine σ} (h : Γ.Fits m) {a : Nat} {x v : Expr}
    {env : Env} (hat : Γ[a]? = some (x, env)) (hclaims : ∀ c ∈ v.claims, Γ.Owns c)
    (hyields : Yields env x v) : Γ.Fits { m with cells := fillCell a v m.cells } where
  plain := h.plain
  size := by
    rw [h.size]
    show _ = (fillCell a v m.cells).size
    unfold fillCell
    split
    · rfl
    · rw [Array.size_setIfInBounds]
  filled hv := by
    rcases cell_fillCell hv with hv | ⟨rfl, rfl⟩
    · exact h.filled hv
    · exact ⟨x, env, hat, hclaims, hyields⟩

/-- A filled cell holds what the element it is for yields. -/
theorem Fits.recalled {σ : Type} {Γ : Ledger} {m : Machine σ} (h : Γ.Fits m) {a : Nat} {x v : Expr}
    {env : Env} (howns : Γ.Owns ⟨a, x, env⟩) (hcell : (m.cells[a]?).join = some v) :
    Yields env x v ∧ ∀ c ∈ v.claims, Γ.Owns c := by
  obtain ⟨x₀, env₀, hat, hclaims, hyields⟩ := h.filled hcell
  obtain ⟨rfl, rfl⟩ : x = x₀ ∧ env = env₀ := by simpa using howns.symm.trans hat
  exact ⟨hyields, hclaims⟩

/-- Remembering what an element yields gives that, up to cells.  The cell may have been filled while
the element was evaluated. -/
theorem Fits.remembers {σ : Type} {Γ : Ledger} {m : Machine σ} (h : Γ.Fits m) {a : Nat} {x v : Expr}
    {env : Env} (howns : Γ.Owns ⟨a, x, env⟩) (hclaims : ∀ c ∈ v.claims, Γ.Owns c)
    (hyields : Yields env x v) :
    ∃ u cells, remember true (some a) v m = .ok u { m with cells } ∧ Γ.Fits { m with cells } ∧
      u.Alike v ∧ ∀ c ∈ u.claims, Γ.Owns c := by
  have hfits := h.fill howns hclaims hyields
  refine ⟨(((fillCell a v m.cells)[a]?).join).getD v, fillCell a v m.cells,
    congrFun (remember_eq true (some a) v) m, hfits, ?_⟩
  cases hfilled : ((fillCell a v m.cells)[a]?).join with
  | none => exact ⟨rfl, hclaims⟩
  | some u =>
    obtain ⟨huyields, hu⟩ := hfits.recalled howns hfilled
    exact ⟨huyields.unique hyields, hu⟩

end Ledger

/-- Cells on the left are in the ledger; nothing is asked of those on the right. -/
def Tenure.ledger : Tenure where
  World := Ledger
  le Γ Γ' := Γ <+: Γ'
  le_refl _ := List.prefix_rfl
  le_trans := List.IsPrefix.trans
  left := Ledger.Owns
  right _ _ := True
  left_mono := Ledger.Owns.mono
  right_mono _ h := h

/-! ## 2. Runs that are told by others -/

/-- The runs of a family are the same from some index on, and the first one is so already unless its
fuel was too small. -/
structure Settles {β : Type} (y : Nat → Ended Unit β) (r : Ended Unit β) : Prop where
  later : ∃ k, ∀ i, k ≤ i → y i = r
  first : y 0 = r ∨ ∃ m, y 0 = .error .outOfFuel m

theorem Settles.const {β : Type} (r : Ended Unit β) : Settles (fun _ => r) r :=
  ⟨⟨0, fun _ _ => rfl⟩, .inl rfl⟩

theorem Settles.andThen {β δ : Type} {y : Nat → Ended Unit β} {b : β} {m : Machine Unit}
    {g : Nat → β → Eval Unit δ} {r : Ended Unit δ} (h : Settles y (.ok b m))
    (hg : Settles (fun i => g i b m) r) : Settles (fun i => (y i).andThen (g i)) r := by
  obtain ⟨⟨k, hk⟩, hfirst⟩ := h
  obtain ⟨⟨k', hk'⟩, hfirst'⟩ := hg
  refine ⟨⟨max k k', fun i hi => ?_⟩, ?_⟩
  · show (y i).andThen (g i) = r
    rw [hk i (Nat.le_trans (Nat.le_max_left k k') hi)]
    exact hk' i (Nat.le_trans (Nat.le_max_right k k') hi)
  · show (y 0).andThen (g 0) = r ∨ ∃ m, (y 0).andThen (g 0) = .error .outOfFuel m
    rcases hfirst with h0 | ⟨m', h0⟩
    · rw [h0]
      exact hfirst'
    · rw [h0]
      exact .inr ⟨m', rfl⟩

theorem Settles.through {β δ : Type} {y : Nat → Ended Unit β} {r : Ended Unit β} (h : Settles y r)
    (f : Nat → Ended Unit β → Ended Unit δ) {r' : Ended Unit δ} (hr : ∀ i, f i r = r')
    (hf : ∀ m, ∃ m', f 0 (.error .outOfFuel m) = .error .outOfFuel m') :
    Settles (fun i => f i (y i)) r' := by
  obtain ⟨⟨k, hk⟩, hfirst⟩ := h
  refine ⟨⟨k, fun i hi => (congrArg (f i) (hk i hi)).trans (hr i)⟩, ?_⟩
  rcases hfirst with h0 | ⟨m, h0⟩
  · exact .inl ((congrArg (f 0) h0).trans (hr 0))
  · obtain ⟨m', hm'⟩ := hf m
    exact .inr ⟨m', (congrArg (f 0) h0).trans hm'⟩

section Told

variable {σ α β γ δ : Type}

/-- How a run with a memory ends, beside runs without: the same way; or because evaluations are
nested too deeply; or without an answer, and then the first of the others has none either.  The
machine is in line with a larger ledger in every case. -/
inductive Told (Γ : Ledger) (P : Ledger → α → β → Prop) : Ended σ α →
    (Nat → Ended Unit β) → Prop where
  | ok {Γ' : Ledger} {a : α} {b : β} {m : Machine σ} {m' : Machine Unit} {y : Nat → Ended Unit β}
    (hle : Γ <+: Γ') (hm : Γ'.Fits m) (hm' : m'.Plain) (h : P Γ' a b) (hy : Settles y (.ok b m')) :
    Told Γ P (.ok a m) y
  | fault {Γ' : Ledger} {e e' : Fault} {m : Machine σ} {m' : Machine Unit} {y : Nat → Ended Unit β}
    (hle : Γ <+: Γ') (hm : Γ'.Fits m) (h : e.erase = e'.erase)
    (hy : Settles y (.error (.fault e') m')) : Told Γ P (.error (.fault e) m) y
  | limited {Γ' : Ledger} (limit : Nat) {m : Machine σ} {y : Nat → Ended Unit β} (hle : Γ <+: Γ')
    (hm : Γ'.Fits m) : Told Γ P (.error (.fault (.recursionLimit limit)) m) y
  | unknown {Γ' : Ledger} {m : Machine σ} {m' : Machine Unit} {y : Nat → Ended Unit β}
    (hle : Γ <+: Γ') (hm : Γ'.Fits m) (hy : y 0 = .error .outOfFuel m') :
    Told Γ P (.error .outOfFuel m) y

/-- The run on every machine in line with the ledger is told by the runs of the family. -/
def ToldBy (Γ : Ledger) (P : Ledger → α → β → Prop) (x : Eval σ α) (y : Nat → Eval Unit β) : Prop :=
  ∀ m m', Γ.Fits m → m'.Plain → Told Γ P (x m) fun i => y i m'

namespace ToldBy

variable {Γ : Ledger} {P : Ledger → α → β → Prop} {Q : Ledger → γ → δ → Prop}

theorem pure {a : α} {b : β} (h : P Γ a b) : ToldBy (σ := σ) Γ P (pure a) fun _ => pure b :=
  fun _ _ hm hm' => .ok List.prefix_rfl hm hm' h (.const _)

theorem fail {e e' : Fault} (h : e.erase = e'.erase) :
    ToldBy (σ := σ) Γ P (fail e) fun _ => fail e' :=
  fun _ _ hm _ => .fault List.prefix_rfl hm h (.const _)

theorem bind {x : Eval σ α} {y : Nat → Eval Unit β} {f : α → Eval σ γ} {g : Nat → β → Eval Unit δ}
    (hx : ToldBy Γ P x y)
    (hf : ∀ Γ' a b, Γ <+: Γ' → P Γ' a b → ToldBy Γ' Q (f a) fun i => g i b) :
    ToldBy Γ Q (x >>= f) fun i => y i >>= g i := by
  intro m m' hm hm'
  have hxy := hx m m' hm hm'
  simp only [bind_run]
  generalize x m = r at hxy ⊢
  generalize hy : (fun i => y i m') = ys at hxy
  have hys : ∀ i, y i m' = ys i := fun i => congrFun hy i
  simp only [hys]
  cases hxy with
  | @ok Γ' a b m m' _ hle hm hm' hab hsettles =>
    have hfg := hf Γ' a b hle hab m m' hm hm'
    show Told Γ Q (f a m) fun i => Ended.andThen (ys i) (g i)
    generalize f a m = r at hfg ⊢
    generalize hz : (fun i => g i b m') = zs at hfg
    subst hz
    cases hfg with
    | ok hle' hm hm' h hzs => exact .ok (hle.trans hle') hm hm' h (hsettles.andThen hzs)
    | fault hle' hm h hzs => exact .fault (hle.trans hle') hm h (hsettles.andThen hzs)
    | limited limit hle' hm => exact .limited limit (hle.trans hle') hm
    | unknown hle' hm hzs =>
      rcases hsettles.first with h0 | ⟨m₀, h0⟩
      · exact .unknown (hle.trans hle') hm ((congrArg (Ended.andThen · (g 0)) h0).trans hzs)
      · exact .unknown (hle.trans hle') hm (congrArg (Ended.andThen · (g 0)) h0)
  | fault hle hm h hsettles =>
    exact .fault hle hm h
      (hsettles.through (fun i r => r.andThen (g i)) (fun _ => rfl) fun m => ⟨m, rfl⟩)
  | limited limit hle hm => exact .limited limit hle hm
  | unknown hle hm h0 => exact .unknown hle hm (congrArg (Ended.andThen · (g 0)) h0)

theorem check : ToldBy (σ := σ) Γ (fun _ _ _ => True) check fun _ => check := by
  intro m m' hm hm'
  simp only [check_plain hm.plain, check_plain hm']
  exact .ok List.prefix_rfl hm hm' trivial (.const _)

theorem above {x : Eval σ α} {y : Nat → Eval Unit β} (h : ToldBy Γ P x y) (depth : Nat)
    {m : Machine σ} {m' : Machine Unit} (hm : Γ.Fits m) (hm' : m'.Plain) :
    Told Γ P (above depth x m) fun i => above m'.depth (y i) m' := by
  have hxy := h { m with depth := depth + 1 } { m' with depth := m'.depth + 1 } (hm.atDepth _) hm'
  simp only [above_run]
  generalize x { m with depth := depth + 1 } = r at hxy ⊢
  generalize hy : (fun i => y i { m' with depth := m'.depth + 1 }) = ys at hxy
  have hys : ∀ i, y i { m' with depth := m'.depth + 1 } = ys i := fun i => congrFun hy i
  simp only [hys]
  cases hxy with
  | ok hle hm hm' hab hsettles =>
    refine .ok hle (hm.atDepth depth) ?_ hab (hsettles.through (fun _ => Ended.atDepth m'.depth)
      (fun _ => rfl) fun _ => ⟨_, rfl⟩)
    exact hm'
  | fault hle hm h hsettles =>
    exact .fault hle (hm.atDepth depth) h (hsettles.through (fun _ => Ended.atDepth m'.depth)
      (fun _ => rfl) fun _ => ⟨_, rfl⟩)
  | limited limit hle hm => exact .limited limit hle (hm.atDepth depth)
  | unknown hle hm h0 =>
    exact .unknown hle (hm.atDepth depth) (congrArg (Ended.atDepth _) h0)

theorem nested {x : Eval σ α} {y : Nat → Eval Unit β} (h : ToldBy Γ P x y) (limit : Option Nat) :
    ToldBy Γ P (nested limit x) fun i => nested none (y i) := by
  intro m m' hm hm'
  cases limit with
  | none => exact h.above m.depth hm hm'
  | some l =>
    rw [nested_some]
    split
    · exact .limited l List.prefix_rfl hm
    · exact h.above m.depth hm hm'

/-- What is there with some fuel is there with more. -/
theorem fueled {o : Option α} {o' : Nat → Option α} (h0 : o' 0 = o) (h : ∀ i, Below o (o' i)) :
    ToldBy (σ := σ) Γ (fun _ a b => a = b) (fueled o) fun i => fueled (o' i) := by
  intro m m' hm hm'
  cases o with
  | none => exact .unknown List.prefix_rfl hm (congrArg (fun o => Eval.fueled o m') h0)
  | some a =>
    have hall : ∀ i, o' i = some a := fun i => h i a rfl
    simp only [hall]
    exact .ok List.prefix_rfl hm hm' rfl (.const _)

theorem newList {xs xs' : List Expr} {env env' : Env} (henv : Tenure.ledger.EnvValue Γ env env')
    (hxs : List.Forall₂ (Tenure.ledger.Value Γ) xs xs') :
    ToldBy (σ := σ) Γ Tenure.ledger.Value (newList xs env) fun _ => newList xs' env' := by
  intro m m' hm hm'
  obtain ⟨halike, hclaims⟩ := Tenure.values_iff.mp hxs
  have hle : Γ <+: Γ ++ xs.map fun x => (x, env) := List.prefix_append _ _
  refine .ok hle (hm.append xs env) ?_ ?_ (.const _)
  · exact hm'
  refine ⟨congrArg Expr.list (items_alike halike henv.1 _ _), fun c hc => ?_, fun _ _ => trivial⟩
  rw [← hm.size] at hc
  exact Ledger.owns_newList hclaims.1 henv.2.1 hc

end ToldBy

end Told

/-! ## 3. Elements -/

section Elements

variable {σ : Type} {Γ : Ledger} {env env' : Env} {x x' v : Expr} {n : Nat} {m : Machine Unit}

/-- A run of the evaluator without a memory that had enough fuel is what its runs settle at. -/
theorem settles_eval {k : Nat} {r : Ended Unit Expr} (h : eval .cacheFree k env x m = r)
    (hr : ∀ m', r ≠ .error .outOfFuel m') :
    Settles (fun i => eval .cacheFree (n + i) env x m) r := by
  have hsteady := Setting.builtins_steady Unit false none
  have hlater : ∀ i, k ≤ i → eval .cacheFree i env x m = r := fun i hi => by
    rw [eval_more .cacheFree hsteady hi m (h ▸ hr), h]
  refine ⟨⟨k, fun i hi => hlater _ (Nat.le_trans hi (Nat.le_add_left i n))⟩, ?_⟩
  by_cases hn : ∃ m', eval .cacheFree n env x m = .error .outOfFuel m'
  · exact .inr hn
  · have hmore := eval_more .cacheFree hsteady (Nat.le_max_left n k) m fun m' h => hn ⟨m', h⟩
    exact .inl (hmore.symm.trans (hlater _ (Nat.le_max_right n k)))

/-- What an element yields is found again by evaluating it with enough fuel. -/
theorem Yields.settles (h : Yields env x v) (henv : env.Alike env') (hx : x.Alike x')
    (hm : m.Plain) : ∃ b m', m'.Plain ∧ v.Alike b ∧
      Settles (fun i => eval .cacheFree (n + i) env' x' m) (.ok b m') := by
  obtain ⟨k, hk⟩ := h
  rw [← evalAnswer_eq hm henv.symm hx.symm] at hk
  have hplain := mirror_eval k (rfl : env'.Alike env') (rfl : x'.Alike x') m m hm hm
  generalize hr : eval .cacheFree k env' x' m = r at hk hplain
  cases hplain with
  | @ok b _ m' _ hm' =>
    exact ⟨b, m', hm', (Answer.value.inj hk).symm, settles_eval hr fun _ h => nomatch h⟩
  | fault => cases hk
  | unknown => cases hk

/-- What the runs for an element settle at, the element yields. -/
theorem Settles.yields {b : Expr} {m' : Machine Unit} (hm : m.Plain)
    (h : Settles (fun i => eval .cacheFree (n + i) env' x' m) (.ok b m')) (henv : env.Alike env')
    (hx : x.Alike x') (hv : v.Alike b) : Yields env x v := by
  obtain ⟨⟨k, hk⟩, -⟩ := h
  refine ⟨n + k, ?_⟩
  rw [← evalAnswer_eq hm henv.symm hx.symm, hk k (Nat.le_refl k)]
  exact congrArg Answer.value hv.symm

/-- The first elements of lists that are alike. -/
theorem alike_of_items {xs xs' : List Expr} {cell cell' : Option Nat}
    (h : Expr.Alike (.list (.items (x :: xs) env cell)) (.list (.items (x' :: xs') env' cell'))) :
    x.Alike x' ∧ env.Alike env' := by
  cases LazyList.Alike.layer (Expr.list.inj h) with
  | items _ _ hxs henv =>
    cases hxs with
    | cons hx _ => exact ⟨hx, henv⟩

/-- An element is remembered, or evaluated and remembered from then on. -/
theorem ToldBy.force (remembers : Bool) (limit : Option Nat) {xs xs' : List Expr}
    {cell cell' : Option Nat}
    (hl : Tenure.ledger.Value Γ (.list (.items (x :: xs) env cell))
      (.list (.items (x' :: xs') env' cell')))
    (h : ToldBy Γ Tenure.ledger.Value (eval (.builtins σ remembers limit) n env x) fun i =>
      eval .cacheFree (n + i) env' x') :
    ToldBy Γ Tenure.ledger.Value
      (force (.builtins σ remembers limit) cell (eval (.builtins σ remembers limit) n env x))
      fun i => force .cacheFree cell' (eval .cacheFree (n + i) env' x') := by
  simp only [force_forgetful (S := .cacheFree) rfl]
  match remembers, cell with
  | false, cell =>
    rw [force_forgetful (S := .builtins σ false limit) rfl]
    exact h
  | true, none =>
    rw [force_none]
    exact h
  | true, some address =>
    have howns : Γ.Owns ⟨address, x, env⟩ := hl.2.1 _ List.mem_cons_self
    obtain ⟨hx, henv⟩ := alike_of_items hl.1
    intro m m' hm hm'
    rw [force_run (.builtins σ true limit) rfl]
    cases hcell : (m.cells[address]?).join with
    | some value =>
      obtain ⟨hyields, hvclaims⟩ := hm.recalled howns hcell
      obtain ⟨b, m'', hm'', hb, hsettles⟩ := hyields.settles (n := n) henv hx hm'
      exact .ok List.prefix_rfl hm hm'' ⟨hb, hvclaims, fun _ _ => trivial⟩ hsettles
    | none =>
      have hxy := h m m' hm hm'
      show Told Γ _ (Ended.andThen (eval (.builtins σ true limit) n env x m) _) _
      generalize eval (.builtins σ true limit) n env x m = r at hxy ⊢
      generalize hys : (fun i => eval .cacheFree (n + i) env' x' m') = ys at hxy ⊢
      cases hxy with
      | fault hle hm he hsettles => exact .fault hle hm he hsettles
      | limited limit hle hm => exact .limited limit hle hm
      | unknown hle hm h0 => exact .unknown hle hm h0
      | @ok Γ' v b m m'' _ hle hm hm'' hv hsettles =>
        subst hys
        have hyields : Yields env x v := hsettles.yields hm' henv hx hv.1
        obtain ⟨u, cells, hrun, hfits, hu, huclaims⟩ :=
          hm.remembers (howns.mono hle) hv.2.1 hyields
        show Told Γ _ (remember true (some address) v m) _
        rw [hrun]
        exact .ok hle hfits hm'' ⟨hu.trans hv.1, huclaims, fun _ _ => trivial⟩ hsettles

end Elements

/-! ## 4. The comparison -/

/-- The evaluator, with or without a memory and a limit, beside the one without either. -/
def Bond.memo (σ : Type) (remembers : Bool) (limit : Option Nat) : Bond σ Unit where
  left := .builtins σ remembers limit
  right := .cacheFree
  like := .alike .ledger
  Ample n g := ∀ i, g i = n + i
  Follows Γ P x y := ToldBy Γ P x y
  ample_succ {n g} h :=
    ⟨fun i => n + i, fun _ => rfl, funext fun i => (h i).trans (Nat.succ_add n i)⟩
  follows_pure h := .pure h
  follows_bind hx hf := hx.bind hf
  follows_fail h := .fail (h.erase_eq fun _ _ hv => hv.1)
  follows_stray _ _ _ hname := .fail (by rw [hname])
  follows_zero hample h m m' hm _ :=
    .unknown List.prefix_rfl hm (congrFun (h 0 (hample 0)) m')
  follows_check := .check
  follows_nested h := h.nested limit
  follows_newList henv hxs := .newList henv (hxs.imp fun _ _ h => h.2)
  follows_force := by
    intro Γ n g x x' xs xs' env env' cell cell' hample hl hx
    obtain rfl : g = fun i => n + i := funext hample
    exact ToldBy.force remembers limit hl hx
  follows_display := by
    intro Γ n g v v' hample hv
    obtain rfl : g = fun i => n + i := funext hample
    refine .fueled (display_alike hv.1 n).symm fun i => ?_
    show Below (v.display? n) (v'.display? (n + i))
    rw [display_alike hv.1 n]
    exact display_mono (Nat.le_add_right n i) v'
  follows_perform := by
    intro Γ n g args args' entry hample h
    obtain rfl : g = fun i => n + i := funext hample
    cases n with
    | zero => exact fun m m' hm hm' => .unknown List.prefix_rfl hm rfl
    | succ n =>
      have hperform : ∀ i, perform Setting.cacheFree (n + 1 + i) (.give .null) = pure .null :=
        fun i => by
        rw [show n + 1 + i = n + i + 1 by omega]
        rfl
      show ToldBy _ _ _ fun i => perform Setting.cacheFree (n + 1 + i) (.give .null)
      simp only [hperform]
      exact .pure ⟨rfl, .nil⟩

/-! ## 5. Programs -/

/-- An expression that a text builds has no cells but those of the names it uses. -/
theorem claims_of_readable {scope : Scope} {e : Expr} (h : Readable scope e) :
    (∀ name v, scope.lookup name = some v → v.claims = []) → e.claims = [] := by
  induction h with
  | integer | decimal | bool | null | str => exact fun _ => rfl
  | name hlookup => exact fun hscope => hscope _ _ hlookup
  | unary _ _ ih | leftSection _ _ ih | rightSection _ _ ih => exact ih
  | binary _ _ _ ihl ihr | call _ _ ihl ihr =>
    exact fun hscope => List.append_eq_nil_iff.mpr ⟨ihl hscope, ihr hscope⟩
  | @lambda scope names body _ _ _ ih =>
    refine fun hscope => ih fun name v hlookup => ?_
    rw [Scope.inside, Scope.lookup] at hlookup
    rcases Option.or_eq_some_iff.mp hlookup with hlookup | ⟨-, hlookup⟩
    · obtain ⟨index, -, rfl⟩ := Scope.lookup_parameterBindings hlookup
      rfl
    · exact hscope name v hlookup
  | conditional _ _ _ ihc ihy ihn =>
    exact fun hscope => List.append_eq_nil_iff.mpr
      ⟨ihc hscope, List.append_eq_nil_iff.mpr ⟨ihy hscope, ihn hscope⟩⟩
  | @literal scope elements _ ih =>
    intro hscope
    refine List.eq_nil_iff_forall_not_mem.mpr fun c hc => ?_
    have hown : cellClaims .top elements none = [] := by cases elements <;> rfl
    rw [Expr.literal, Expr.claims, LazyList.claims, hown, List.nil_append, Env.claims,
      List.append_nil, mem_claimsAll] at hc
    obtain ⟨e, he, hc⟩ := hc
    rw [ih e he hscope] at hc
    cases hc
  | @range scope start second stop _ _ _ ih ihsecond ihstop =>
    intro hscope
    have hbound : ∀ o : Option Expr, (∀ e ∈ o, e.claims = []) → claimsOption o = [] := by
      rintro (_ | e) h
      · rfl
      · exact h e rfl
    exact List.append_eq_nil_iff.mpr ⟨ih hscope, List.append_eq_nil_iff.mpr
      ⟨hbound _ fun e he => ihsecond e he hscope, hbound _ fun e he => ihstop e he hscope⟩⟩
  | interpolated _ _ ih =>
    intro hscope
    refine List.eq_nil_iff_forall_not_mem.mpr fun c hc => ?_
    obtain ⟨e, he, hc⟩ := mem_claimsFragments.mp hc
    rw [ih e he hscope] at hc
    cases hc

/-- What is read with the built-in functions has no cells. -/
theorem claims_of_parseIn {source : String} {e : Expr} (h : parseIn .standard source = .ok e) :
    e.claims = [] := by
  refine claims_of_readable (readable_of_parseIn h) fun name v hlookup => ?_
  obtain ⟨b, -, rfl⟩ := Scope.lookup_standard hlookup
  rfl

end LazyExpr
