import LazyExpr.Proofs.Eval.Memo

/-!
# An element does not ask for itself

While the element of a cell is evaluated, its cell stays empty, even if the evaluation fails.  For
suppose that the element asked for itself, and was given a value in the end.  Then it yields that
value, and without a memory there is a least fuel that suffices to find it.  But what it asks for is
found with less.

* `Spares` — a run leaves a cell empty, if the run without a memory beside it has enough fuel.
* `Bond.sparing` — every evaluation with less fuel than the element needs spares its cell.
* `Ledger.Fits.spared` — **the evaluation of an element leaves its cell empty.**
-/

namespace LazyExpr

open Eval

/-! ## 1. Runs that spare a cell -/

section Spares

variable {σ α β γ δ : Type} {c : Claim} {Γ : Ledger}

/-- A run leaves the cell empty, unless the first of the runs without a memory has too little
fuel. -/
def Spares (c : Claim) (Γ : Ledger) (x : Eval σ α) (y : Nat → Eval Unit β) : Prop :=
  Γ.Owns c → ∀ m m', Γ.Fits m → m'.Plain → m.cell? c.address = none →
    (∃ m₀, y 0 m' = .error .outOfFuel m₀) ∨ (Ended.machine (x m)).cell? c.address = none

namespace Spares

variable {P : Ledger → α → β → Prop}

theorem halt (halt : Halt) (y : Nat → Eval Unit β) : Spares (σ := σ) (α := α) c Γ (throw halt) y :=
  fun _ _ _ _ _ hnone => .inr hnone

theorem pure (a : α) (y : Nat → Eval Unit β) : Spares (σ := σ) c Γ (pure a) y :=
  fun _ _ _ _ _ hnone => .inr hnone

theorem check (y : Nat → Eval Unit Unit) : Spares (σ := σ) c Γ check y := by
  intro _ m m' hm _ hnone
  rw [check_plain hm.plain]
  exact .inr hnone

theorem bind {x : Eval σ α} {y : Nat → Eval Unit β} {f : α → Eval σ γ} {g : Nat → β → Eval Unit δ}
    (htold : ToldBy Γ P x y) (hx : Spares c Γ x y)
    (hf : ∀ Γ' a b, Γ <+: Γ' → P Γ' a b → Spares c Γ' (f a) fun i => g i b) :
    Spares c Γ (x >>= f) fun i => y i >>= g i := by
  intro howns m m' hm hm' hnone
  simp only [bind_run]
  rcases hx howns m m' hm hm' hnone with ⟨m₀, h0⟩ | hspared
  · exact .inl ⟨m₀, by rw [h0]; rfl⟩
  · have hxy := htold m m' hm hm'
    generalize x m = r at hxy hspared ⊢
    generalize hys : (fun i => y i m') = ys at hxy
    have h0 : y 0 m' = ys 0 := congrFun hys 0
    rw [h0]
    cases hxy with
    | @ok Γ' a b m₁ m₁' _ hle hm₁ hm₁' hab hsettles =>
      rcases hsettles.first with hfirst | ⟨m₀, hfirst⟩
      · rw [hfirst]
        exact hf Γ' a b hle hab (howns.mono hle) m₁ m₁' hm₁ hm₁' hspared
      · rw [hfirst]
        exact .inl ⟨m₀, rfl⟩
    | fault => exact .inr hspared
    | limited => exact .inr hspared
    | unknown => exact .inr hspared

theorem above {x : Eval σ α} {y : Nat → Eval Unit β} (h : Spares c Γ x y) (howns : Γ.Owns c)
    (depth : Nat) {m : Machine σ} {m' : Machine Unit} (hm : Γ.Fits m) (hm' : m'.Plain)
    (hnone : m.cell? c.address = none) :
    (∃ m₀, above m'.depth (y 0) m' = .error .outOfFuel m₀) ∨
      (Ended.machine (above depth x m)).cell? c.address = none := by
  simp only [above_run]
  rcases h howns { m with depth := depth + 1 } { m' with depth := m'.depth + 1 } (hm.atDepth _) hm'
      hnone with ⟨m₀, h0⟩ | hspared
  · exact .inl ⟨{ m₀ with depth := m'.depth }, by rw [h0]; rfl⟩
  · refine .inr ?_
    generalize x { m with depth := depth + 1 } = r at hspared ⊢
    cases r <;> exact hspared

theorem nested {x : Eval σ α} {y : Nat → Eval Unit β} (h : Spares c Γ x y) (limit : Option Nat) :
    Spares c Γ (nested limit x) fun i => nested none (y i) := by
  intro howns m m' hm hm' hnone
  cases limit with
  | none => exact h.above howns m.depth hm hm' hnone
  | some l =>
    rw [nested_some]
    split
    · exact .inr hnone
    · exact h.above howns m.depth hm hm' hnone

theorem newList (xs : List Expr) (env : Env) (y : Nat → Eval Unit Expr) :
    Spares (σ := σ) c Γ (newList xs env) y := by
  intro _ m m' hm _ hnone
  refine .inr ?_
  cases hcell : (Ended.machine (Eval.newList xs env m)).cell? c.address with
  | none => rfl
  | some v =>
    have hold : m.cell? c.address = some v := cell_append hcell
    rw [hnone] at hold
    cases hold

theorem fueled (o : Option α) (y : Nat → Eval Unit α) : Spares (σ := σ) c Γ (fueled o) y := by
  cases o with
  | some a => exact pure a y
  | none => exact halt .outOfFuel y

/-- An element is evaluated with less fuel than that of the cell needs, so it is not that of the
cell. -/
theorem force {limit : Option Nat} {n : Nat} {x x' : Expr} {xs xs' : List Expr} {env env' : Env}
    {cell cell' : Option Nat} (hc : evalAnswer n c.env c.element = .unknown)
    (hl : Tenure.ledger.Value Γ (.list (.items (x :: xs) env cell))
      (.list (.items (x' :: xs') env' cell')))
    (htold : ToldBy Γ Tenure.ledger.Value (eval (.builtins σ true limit) n env x) fun i =>
      eval .cacheFree (n + i) env' x')
    (h : Spares c Γ (eval (.builtins σ true limit) n env x) fun i =>
      eval .cacheFree (n + i) env' x') :
    Spares c Γ (force (.builtins σ true limit) cell (eval (.builtins σ true limit) n env x))
      fun i => force .cacheFree cell' (eval .cacheFree (n + i) env' x') := by
  simp only [force_forgetful (S := .cacheFree) rfl]
  cases cell with
  | none =>
    rw [force_none]
    exact h
  | some address =>
    have hmine : Γ.Owns ⟨address, x, env⟩ := hl.2.1 _ List.mem_cons_self
    obtain ⟨hx, henv⟩ := alike_of_items hl.1
    intro howns m m' hm hm' hnone
    rw [force_run (.builtins σ true limit) rfl]
    cases hcell : (m.cells[address]?).join with
    | some value => exact .inr hnone
    | none =>
      rcases h howns m m' hm hm' hnone with hshort | hspared
      · exact .inl hshort
      · by_cases haddress : address = c.address
        · -- the element is that of the cell, and it needs more fuel
          obtain ⟨rfl, rfl⟩ : x = c.element ∧ env = c.env := by
            have hsame := (haddress ▸ hmine).symm.trans howns
            exact ⟨congrArg Prod.fst (Option.some.inj hsame),
              congrArg Prod.snd (Option.some.inj hsame)⟩
          have hunknown := (evalAnswer_eq (n := n) hm' henv.symm hx.symm).trans hc
          generalize hrun : eval .cacheFree n env' x' m' = r at hunknown
          rcases r with ⟨v, m₀⟩ | ⟨_ | _, m₀⟩
          · cases hunknown
          · cases hunknown
          · exact .inl ⟨m₀, hrun⟩
        · refine .inr ?_
          show (Ended.machine (Ended.andThen (eval (.builtins σ true limit) n env x m) _)).cell? _ =
            none
          generalize eval (.builtins σ true limit) n env x m = r at hspared ⊢
          cases r with
          | error => exact hspared
          | ok v m₁ =>
            show (m₁.fill address v).cell? c.address = none
            cases hfilled : (m₁.fill address v).cell? c.address with
            | none => rfl
            | some u =>
              rw [fill_eq] at hfilled
              rcases cell_fillCell hfilled with hold | ⟨hsame, -⟩
              · exact hold.symm.trans hspared
              · exact absurd hsame.symm haddress

end Spares

end Spares

/-! ## 2. The comparison -/

/-- The evaluator with a memory beside the one without, with less fuel than the element of a cell
needs. -/
def Bond.sparing (σ : Type) (limit : Option Nat) (c : Claim) : Bond σ Unit where
  left := .builtins σ true limit
  right := .cacheFree
  like := .alike .ledger
  Ample n g := evalAnswer n c.env c.element = .unknown ∧ ∀ i, g i = n + i
  Follows Γ P x y := ToldBy Γ P x y ∧ Spares c Γ x y
  ample_succ {n g} h := by
    refine ⟨fun i => n + i, ⟨?_, fun _ => rfl⟩, funext fun i => (h.2 i).trans (Nat.succ_add n i)⟩
    rcases evalAnswer_more (Nat.le_succ n) c.env c.element with hn | hn
    · exact hn
    · exact hn.trans h.1
  follows_pure h := ⟨.pure h, .pure _ _⟩
  follows_bind hx hf :=
    ⟨hx.1.bind fun Γ' a b hle hab => (hf Γ' a b hle hab).1,
      hx.2.bind hx.1 fun Γ' a b hle hab => (hf Γ' a b hle hab).2⟩
  follows_fail h := ⟨.fail (h.erase_eq fun _ _ hv => hv.1), .halt _ _⟩
  follows_stray _ _ _ hname := ⟨.fail (by rw [hname]), .halt _ _⟩
  follows_zero hample h :=
    ⟨fun m m' hm _ => .unknown List.prefix_rfl hm (congrFun (h 0 (hample.2 0)) m'), .halt _ _⟩
  follows_check := ⟨.check, .check _⟩
  follows_nested h := ⟨h.1.nested limit, h.2.nested limit⟩
  follows_newList henv hxs := ⟨.newList henv (hxs.imp fun _ _ h => h.2), .newList _ _ _⟩
  follows_force := by
    intro Γ n g x x' xs xs' env env' cell cell' hample hl hx
    obtain ⟨hc, hg⟩ := hample
    obtain rfl : g = fun i => n + i := funext hg
    exact ⟨ToldBy.force true limit hl hx.1, Spares.force hc hl hx.1 hx.2⟩
  follows_display {Γ n g v v'} hample hv :=
    ⟨(Bond.memo σ true limit).follows_display hample.2 hv, .fueled _ _⟩
  follows_perform {Γ n g args args'} entry hample h := by
    refine ⟨(Bond.memo σ true limit).follows_perform entry hample.2 h, ?_⟩
    cases n with
    | zero => exact .halt _ _
    | succ n => exact .pure _ _

/-! ## 3. Elements -/

section Elements

variable {σ : Type} {limit : Option Nat} {Γ : Ledger} {m : Machine σ} {a n : Nat}
    {x : Expr} {env : Env}

/-- What an element yields it yields from a least fuel on. -/
theorem Yields.exists_least {v : Expr} (h : Yields env x v) :
    ∃ k, evalAnswer k env x = .unknown ∧ evalAnswer (k + 1) env x ≠ .unknown := by
  obtain ⟨n, hn⟩ := h
  induction n with
  | zero => cases hn
  | succ n ih =>
    by_cases hshort : evalAnswer n env x = .unknown
    · exact ⟨n, hshort, hn ▸ Answer.value_ne_unknown⟩
    · exact ih (((evalAnswer_more (Nat.le_succ n) env x).eq hshort).symm.trans hn)

/-- **The evaluation of an element leaves its cell empty**, whatever its end. -/
theorem Ledger.Fits.spared (hm : Γ.Fits m) (howns : Γ.Owns ⟨a, x, env⟩)
    (hx : ∀ c ∈ x.claims, Γ.Owns c)
    (henv : ∀ c ∈ env.claims, Γ.Owns c) (hnone : m.cell? a = none) {r : Ended σ Expr}
    (hr : eval (.builtins σ true limit) n env x m = r) (hfuel : ∀ m', r ≠ .error .outOfFuel m') :
    (Ended.machine r).cell? a = none := by
  have hcode : (Likeness.alike .ledger).code Γ env env x x :=
    ⟨⟨rfl, henv, fun _ _ => trivial⟩, rfl, hx, fun _ _ => trivial⟩
  have hmore : ∀ {k}, (∀ m', eval (.builtins σ true limit) k env x m ≠ .error .outOfFuel m') →
      eval (.builtins σ true limit) k env x m = r := by
    intro k hk
    have hsteady := Setting.builtins_steady σ true limit
    have h₁ := eval_more _ hsteady (Nat.le_max_left n k) m (hr ▸ hfuel)
    have h₂ := eval_more _ hsteady (Nat.le_max_right n k) m hk
    exact h₂.symm.trans (h₁.trans hr)
  by_contra hsome
  obtain ⟨u, hu⟩ := Option.ne_none_iff_exists'.mp hsome
  -- what the cell holds in the end, the element yields
  have hyields : Yields env x u := by
    have htold := ((Bond.memo σ true limit).sound n (fun i => n + i) fun _ => rfl).eval hcode m
      (.fresh ()) hm (Machine.fresh_plain ())
    change Told Γ _ (eval (.builtins σ true limit) n env x m) _ at htold
    rw [hr] at htold
    have hends : ∃ Γ' : Ledger, Γ <+: Γ' ∧ Γ'.Fits (Ended.machine r) := by
      cases htold with
      | ok hle hm' => exact ⟨_, hle, hm'⟩
      | fault hle hm' => exact ⟨_, hle, hm'⟩
      | limited _ hle hm' => exact ⟨_, hle, hm'⟩
      | unknown hle hm' => exact ⟨_, hle, hm'⟩
    obtain ⟨Γ', hle, hfits⟩ := hends
    exact (hfits.recalled (howns.mono hle) hu).1
  obtain ⟨k, hshort, henough⟩ := hyields.exists_least
  -- the least fuel suffices for the evaluation with a memory too
  let B := Bond.sparing σ limit ⟨a, x, env⟩
  have hample : B.Ample k fun i => k + i := ⟨hshort, fun _ => rfl⟩
  have hsound : B.Sound k fun i => k + i := B.sound k _ hample
  have hcode' : B.like.code Γ env env x x := hcode
  obtain ⟨htold, hspares⟩ := Bond.follows_eval_succ hsound hample hcode'
  have hfound : ∀ m₀, eval .cacheFree (k + 0 + 1) env x (.fresh ()) ≠ .error .outOfFuel m₀ := by
    intro m₀ hrun
    refine henough ?_
    rw [evalAnswer, ← Nat.add_zero k, hrun]
    rfl
  have hends := htold m (.fresh ()) hm (Machine.fresh_plain ())
  have hsame : eval (.builtins σ true limit) (k + 1) env x m = r := by
    refine hmore fun m' hrun => ?_
    change Told Γ _ (eval (.builtins σ true limit) (k + 1) env x m) _ at hends
    rw [hrun] at hends
    cases hends with
    | unknown _ _ hy => exact hfound _ hy
  rcases hspares howns m (.fresh ()) hm (Machine.fresh_plain ()) hnone with ⟨m₀, hrun⟩ | hspared
  · exact hfound m₀ hrun
  · refine hsome ?_
    rw [← hsame]
    exact hspared

end Elements

end LazyExpr
