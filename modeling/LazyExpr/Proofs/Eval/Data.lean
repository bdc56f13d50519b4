import LazyExpr.Proofs.Eval.Recall
import LazyExpr.Proofs.Expr.Data

/-!
# Data that is shown is read and evaluated as the same data

The text of data is an expression of its own: a minus sign is a negation, the least integer a
difference, a range a first element and a second.  Evaluating it has to meet the data again.

* `Gives limit levels x P`: without a deadline, and with so many levels below the limit, `x` ends
  with something that has `P`.  There is one rule for each way to put evaluations together.
* `gives_spelling`: **the spelling of data is evaluated to the same data.**
* `evaluate_display`: **the text of data is answered with that text.**
-/

namespace LazyExpr

open Eval

/-! ## 1. Evaluations that end with a value -/

/-- On every machine without a deadline and with so many levels below the limit, the evaluation ends
with something that has `P`, and at the level where it began. -/
def Gives {σ α : Type} (limit : Option Nat) (levels : Nat) (x : Eval σ α) (P : α → Prop) : Prop :=
  ∀ m : Machine σ, m.Plain → (∀ l ∈ limit, m.depth + levels ≤ l) →
    ∃ a m', x m = .ok a m' ∧ m'.Plain ∧ m'.depth = m.depth ∧ P a

namespace Gives

variable {σ α β : Type} {limit : Option Nat} {levels : Nat} {P : α → Prop} {Q : β → Prop}

theorem pure {a : α} (h : P a) : Gives (σ := σ) limit levels (pure a) P :=
  fun m hm _ => ⟨a, m, rfl, hm, rfl, h⟩

theorem bind {x : Eval σ α} {f : α → Eval σ β} (hx : Gives limit levels x P)
    (hf : ∀ a, P a → Gives limit levels (f a) Q) : Gives limit levels (x >>= f) Q := by
  intro m hm hlevels
  obtain ⟨a, m₁, hrun, hm₁, hdepth, ha⟩ := hx m hm hlevels
  obtain ⟨b, m₂, hrun', hm₂, hdepth', hb⟩ := hf a ha m₁ hm₁ fun l hl => hdepth ▸ hlevels l hl
  exact ⟨b, m₂, by rw [bind_run, hrun]; exact hrun', hm₂, hdepth'.trans hdepth, hb⟩

theorem mono {x : Eval σ α} {levels' : Nat} (h : Gives limit levels x P) (hle : levels ≤ levels') :
    Gives limit levels' x P :=
  fun m hm hlevels => h m hm fun l hl => Nat.le_trans (by omega) (hlevels l hl)

theorem imp {x : Eval σ α} {P' : α → Prop} (h : Gives limit levels x P) (hP : ∀ a, P a → P' a) :
    Gives limit levels x P' := by
  intro m hm hlevels
  obtain ⟨a, m', hrun, hm', hdepth, ha⟩ := h m hm hlevels
  exact ⟨a, m', hrun, hm', hdepth, hP a ha⟩

theorem lift {r : Except Fault α} {a : α} (hr : r = .ok a) (h : P a) :
    Gives (σ := σ) limit levels (lift r) P := by
  subst hr
  exact pure h

theorem fueled {o : Option α} {a : α} (ho : o = some a) (h : P a) :
    Gives (σ := σ) limit levels (fueled o) P := by
  subst ho
  exact pure h

theorem check : Gives (σ := σ) limit levels check fun _ => True :=
  fun m hm _ => ⟨(), m, check_plain hm, hm, rfl, trivial⟩

/-- What is evaluated one level further down needs one level more. -/
theorem nested {x : Eval σ α} (h : Gives limit levels x P) :
    Gives limit (levels + 1) (nested limit x) P := by
  intro m hm hlevels
  have hbelow : ∀ l ∈ limit, m.depth + 1 + levels ≤ l := fun l hl => by
    have := hlevels l hl
    omega
  obtain ⟨a, m₁, hrun, hm₁, -, ha⟩ := h { m with depth := m.depth + 1 } hm hbelow
  have habove : above m.depth x m = .ok a { m₁ with depth := m.depth } := by
    rw [above_run, hrun]
    rfl
  refine ⟨a, { m₁ with depth := m.depth }, ?_, hm₁, rfl, ha⟩
  cases limit with
  | none => rw [nested_none, habove]
  | some l =>
    have := hlevels l rfl
    rw [nested_some, if_neg (by omega), habove]

/-- Every evaluation begins with a check, one level further down. -/
theorem checked {x : Eval σ α} (h : Gives limit levels x P) :
    Gives limit (levels + 1) (Eval.check >>= fun _ => Eval.nested limit x) P :=
  check.bind fun _ _ => h.nested

theorem newList (xs : List Expr) (env : Env) :
    Gives (σ := σ) limit levels (newList xs env) fun v =>
    ∃ cell, v = .list (.items xs env (some cell)) :=
  fun m hm _ =>
    ⟨_, { m with cells := m.cells ++ Array.replicate xs.length none }, rfl, hm, rfl, _, rfl⟩

/-- On a fresh machine there are levels enough. -/
theorem fresh {x : Eval Unit α} (h : Gives (some maxDepth) levels x P)
    (hlevels : levels ≤ maxDepth) :
    ∃ a m, x (.fresh ()) = .ok a m ∧ P a := by
  have hroom : ∀ l ∈ some maxDepth, (Machine.fresh ()).depth + levels ≤ l := by
    intro l hl
    obtain rfl := Option.some.inj hl
    exact (Nat.zero_add levels).symm ▸ hlevels
  obtain ⟨a, m, hrun, -, -, ha⟩ := h (.fresh ()) (Machine.fresh_plain ()) hroom
  exact ⟨a, m, hrun, ha⟩

end Gives

/-! ## 2. Numbers and ranges -/

section Spelled

variable {σ : Type} {S : Setting σ}

/-- A form that is its own value. -/
theorem gives_done {n : Nat} {env : Env} {e : Expr} (h : e.isDone = true) :
    Gives S.depthLimit 1 (eval S (n + 1) env e) (· = e) := by
  rw [eval_done _ n env h]
  exact Gives.checked (Gives.pure rfl)

theorem gives_unary {levels n : Nat} {env : Env} {op : UnaryOp} {e v u : Expr}
    (h : Gives S.depthLimit levels (eval S n env e) (· = v))
    (hop : op.onValue v = .ok u) :
    Gives S.depthLimit (levels + 1) (eval S (n + 1) env (.unary op e)) (· = u) := by
  refine Gives.checked (h.bind ?_)
  rintro _ rfl
  exact .lift hop rfl

/-- The number that is read where a number was written. -/
def Number.pointed : Number → Number
  | .integer n => .integer n
  | .decimal d => .decimal d.pointed

/-- **The spelling of a number is evaluated to it**, with a digit behind the point. -/
theorem gives_number (number : Number) {n : Nat} (env : Env) :
    Gives S.depthLimit 3 (eval S (n + 3) env number.spelling)
      (· = .number number.pointed) := by
  cases number with
  | integer k =>
    simp only [Number.spelling]
    split
    · next hmin =>
      subst hmin
      have hmax : Gives S.depthLimit 2 (eval S (n + 2) env
          (.unary .negate (.integer Int64.maxValue))) (· = .integer (-Int64.maxValue)) :=
        gives_unary (gives_done rfl) rfl
      refine Gives.checked (hmax.bind ?_)
      rintro _ rfl
      refine ((gives_done (e := .integer 1) rfl).mono (by decide)).bind ?_
      rintro _ rfl
      exact .lift rfl rfl
    · split
      · have hneg : UnaryOp.negate.onValue (.integer (-k)) = .ok (.integer k) := by
          simp [UnaryOp.onValue, Expr.integer]
        exact (gives_unary (gives_done rfl) hneg).mono (by decide)
      · exact (gives_done rfl).mono (by decide)
  | decimal d =>
    simp only [Number.spelling]
    split
    · have hneg : UnaryOp.negate.onValue (.decimal d.neg.pointed) = .ok (.decimal d.pointed) := by
        simp [UnaryOp.onValue, Expr.decimal, d.neg_pointed, Decimal.neg_neg]
      exact (gives_unary (gives_done rfl) hneg).mono (by decide)
    · exact (gives_done rfl).mono (by decide)

/-- The end of a range, if there is one. -/
theorem gives_rangeUpTo (S : Setting σ) (n : Nat) (env : Env) (first step : Number)
    (stop : Option Number) :
    Gives S.depthLimit 3 (rangeUpTo S (n + 3) env first step
        (stop.map Number.spelling))
      (· = .list (.progression (.ofBounds first step (stop.map Number.pointed)))) := by
  cases stop with
  | none => exact .pure rfl
  | some stop =>
    refine (gives_number stop env).bind ?_
    rintro _ rfl
    refine Gives.bind (.lift rfl rfl) ?_
    rintro _ rfl
    exact .pure rfl

/-- The second element of a range gives its step back. -/
theorem sub?_add? {start second : Int64} {step : Number}
    (h : (Number.integer second).sub? (.integer start) = some step) :
    (Number.integer start).add? step = some (.integer second) ∧ ∃ k, step = .integer k := by
  simp only [Number.sub?, Option.map_eq_some_iff, int64OfInt?_eq_some_iff] at h
  obtain ⟨k, hk, rfl⟩ := h
  refine ⟨?_, k, rfl⟩
  simp only [Number.add?, Option.map_eq_some_iff, int64OfInt?_eq_some_iff]
  exact ⟨second, by omega, rfl⟩

/-- Integers stay as they are beside integers. -/
theorem Progression.ofBounds_integers (start step : Int64) (stop : Option Int64) :
    Progression.ofBounds (.integer start) (.integer step) (stop.map .integer) =
      ⟨.integer start, .integer step, stop.map .integer⟩ := by
  cases stop <;> rfl

/-- A range literal of numbers is evaluated to the progression with their bounds. -/
theorem gives_range {start step : Number} {second : Option Number} (stop : Option Number)
    (hstep : rangeStep? start.pointed (second.map Number.pointed) = some step)
    {n : Nat} (env : Env) :
    Gives S.depthLimit 4 (eval S (n + 4) env (.range start.spelling (second.map Number.spelling)
        (stop.map Number.spelling)))
      (· = .list (.progression (.ofBounds start.pointed step (stop.map Number.pointed)))) := by
  rw [eval_range]
  refine Gives.checked ((gives_number start env).bind ?_)
  rintro _ rfl
  refine Gives.bind (.lift rfl rfl) ?_
  rintro _ rfl
  cases second with
  | none =>
    obtain rfl : .integer 1 = step := Option.some.inj hstep
    exact gives_rangeUpTo S n env start.pointed (.integer 1) stop
  | some second =>
    refine (gives_number second env).bind ?_
    rintro _ rfl
    refine Gives.bind (.lift rfl rfl) ?_
    rintro _ rfl
    simp only [show second.pointed.sub? start.pointed = some step from hstep]
    exact gives_rangeUpTo S n env start.pointed step stop

/-- **The range literal of a progression is evaluated to it.** -/
theorem gives_progression {p : Progression} (h : p.OfLiteral) {n : Nat} (env : Env) :
    Gives S.depthLimit 4 (eval S (n + 4) env p.spelling)
      (· = .list (.progression p)) := by
  have hstop : ∀ stop : Option Int64, (stop.map Number.integer).map Number.pointed =
      stop.map Number.integer := by
    intro stop
    cases stop <;> rfl
  -- the step is written only if it is not one
  obtain ⟨start, step, stop, rfl, hsecond⟩ : ∃ (start step : Int64) (stop : Option Int64),
      p = ⟨.integer start, .integer step, stop.map .integer⟩ ∧
      ((p.second? = none ∧ step = 1) ∨ ∃ second, p.second? = some (.integer second) ∧
        (Number.integer second).sub? (.integer start) = some (.integer step)) := by
    cases h with
    | unit start stop => exact ⟨start, 1, stop, rfl, .inl ⟨rfl, rfl⟩⟩
    | @stepped start second _ stop hstep =>
      obtain ⟨hadd, step, rfl⟩ := sub?_add? hstep
      refine ⟨start, step, stop, rfl, ?_⟩
      by_cases hone : step = 1
      · subst hone
        exact .inl ⟨rfl, rfl⟩
      · have hne : (Number.integer step).compare (.integer 1) ≠ .eq := by
          intro heq
          rw [Number.compare, Std.LawfulEqCmp.compare_eq_iff_eq] at heq
          exact hone (Int64.toInt_inj.mp heq)
        exact .inr ⟨second, by rw [Progression.second?, if_neg hne, hadd], hstep⟩
  have hstep : rangeStep? (Number.pointed (.integer start))
      ((Progression.second? ⟨.integer start, .integer step, stop.map .integer⟩).map Number.pointed)
        = some (.integer step) := by
    rcases hsecond with ⟨hnone, rfl⟩ | ⟨second, hsome, hsub⟩
    · rw [hnone]
      rfl
    · rw [hsome]
      exact hsub
  have hrange := gives_range (S := S) (stop.map .integer) hstep (n := n) env
  rw [hstop, Number.pointed, Progression.ofBounds_integers] at hrange
  exact hrange

/-! ## 3. Lists -/

variable {limit : Option Nat}

/-- The spellings of the elements, evaluated one after another and replaced by data. -/
theorem gives_elements {levels n rounds : Nat} {g : List Expr → Expr → Eval Unit (List Expr)}
    {xs : List Expr} (acc : List Expr) (cell : Option Nat) (hrounds : xs.length < rounds)
    (h : ∀ x ∈ xs, Gives limit levels (eval (.builtins Unit false limit) n .top x.spelling) fun v =>
      ∀ acc, Gives limit levels (g acc v) fun acc' => ∃ y, SameData x y ∧ acc' = y :: acc) :
    Gives limit levels (foldItems (advance (.builtins Unit false limit) (n + 1)) g rounds acc
        (.items (spellings xs) .top cell))
      fun acc' => ∃ ys, List.Forall₂ SameData xs ys ∧ acc' = ys.reverse ++ acc := by
  induction xs generalizing acc cell rounds with
  | nil =>
    obtain ⟨rounds, rfl⟩ : ∃ r, rounds = r + 1 := ⟨rounds - 1, by omega⟩
    rw [foldItems_succ, spellings, pull_nil]
    exact Gives.check.bind fun _ _ => .pure ⟨[], .nil, rfl⟩
  | cons x xs ih =>
    rw [List.length_cons] at hrounds
    obtain ⟨rounds, rfl⟩ : ∃ r, rounds = r + 1 := ⟨rounds - 1, by omega⟩
    rw [foldItems_succ, spellings, pull_items, force_forgetful rfl]
    refine Gives.check.bind fun _ _ => ?_
    rw [bind_assoc]
    refine (h x (by simp)).bind fun v hv => ?_
    refine (hv acc).bind ?_
    rintro _ ⟨y, hy, rfl⟩
    refine (ih (y :: acc) _ (by omega) fun z hz => h z (by simp [hz])).imp ?_
    rintro _ ⟨ys, hys, rfl⟩
    exact ⟨y :: ys, .cons hy hys, by simp⟩

/-- What a decimal is read as is the same up to the scale of a whole number. -/
theorem sameData_pointed (n : Number) : SameData (.number n) (.number n.pointed) := by
  cases n with
  | integer n => exact .integer n
  | decimal d =>
    exact .decimal d.pointed_negative d.compare_pointed d.pointed_of_scale d.source_pointed

/-- **The spelling of data is evaluated to the same data.** -/
theorem gives_spelling {d : Nat} {m : Expr} (h : IsData d m) {n k : Nat}
    (hn : m.source.length + 4 ≤ n) (hk : m.source.length + 4 ≤ k) :
    Gives limit 4 (eval (.builtins Unit false limit) n .top m.spelling) fun v =>
      Gives limit 4 (materialize (.builtins Unit false limit) k v) (SameData m) := by
  -- what is no list is its own value, and stays as it is
  have hstays : ∀ {m v : Expr} {k : Nat}, 4 ≤ k → v.asList = .error (.invalidCast v .list) →
      SameData m v → Gives limit 4 (materialize (.builtins Unit false limit) k v) (SameData m) := by
    intro m v k hk hlist hv
    obtain ⟨k, rfl⟩ : ∃ j, k = j + 1 := ⟨k - 1, by omega⟩
    rw [materialize_not_list _ k hlist]
    exact .pure hv
  have hfuel : ∀ {n j : Nat}, j ≤ n → ∃ i, n = i + j := fun h => ⟨_, (Nat.sub_add_cancel h).symm⟩
  induction h generalizing n k with
  | number number =>
    obtain ⟨n, rfl⟩ : ∃ i, n = i + 3 := hfuel (by omega)
    refine ((gives_number (S := .builtins Unit false limit) number .top).mono (by decide)).imp ?_
    rintro _ rfl
    exact hstays (by omega) rfl (sameData_pointed number)
  | bool b =>
    obtain ⟨n, rfl⟩ : ∃ i, n = i + 1 := hfuel (by omega)
    refine ((gives_done (S := .builtins Unit false limit) rfl).mono (by decide)).imp ?_
    rintro _ rfl
    exact hstays (by omega) rfl (.bool b)
  | str text =>
    obtain ⟨n, rfl⟩ : ∃ i, n = i + 1 := hfuel (by omega)
    refine ((gives_done (S := .builtins Unit false limit) rfl).mono (by decide)).imp ?_
    rintro _ rfl
    exact hstays (by omega) rfl (.str text)
  | null =>
    obtain ⟨n, rfl⟩ : ∃ i, n = i + 1 := hfuel (by omega)
    refine ((gives_done (S := .builtins Unit false limit) rfl).mono (by decide)).imp ?_
    rintro _ rfl
    exact hstays (by omega) rfl .null
  | @range _ p hp hinfinite =>
    obtain ⟨n, rfl⟩ : ∃ i, n = i + 4 := hfuel (by omega)
    obtain ⟨k, rfl⟩ : ∃ i, k = i + 1 := hfuel (by omega)
    refine (gives_progression (S := .builtins Unit false limit) hp .top).imp ?_
    rintro _ rfl
    have hmaterialize : materialize (.builtins Unit false limit) (k + 1) (.list (.progression p)) =
        pure (.list (.progression p)) := by simp [materialize, LazyList.isInfinite, hinfinite]
    rw [hmaterialize]
    exact .pure (.progression p)
  | @items d xs cell _ ih =>
    obtain ⟨hcount, hlengths⟩ := length_source_items xs .top cell
    obtain ⟨n, rfl⟩ : ∃ i, n = i + 1 := hfuel (by omega)
    obtain ⟨k, rfl⟩ : ∃ i, k = i + 2 := hfuel (by omega)
    have hlist : Gives limit 1
      (eval (.builtins Unit false limit) (n + 1) .top (.literal (spellings xs)))
        fun v => ∃ address, v = .list (.items (spellings xs) .top (some address)) :=
      Gives.checked (.newList (spellings xs) .top)
    refine (hlist.mono (by decide)).imp ?_
    rintro _ ⟨address, rfl⟩
    have hmaterialize : materialize (.builtins Unit false limit) (k + 2)
        (.list (.items (spellings xs) .top (some address))) = (do
          let elements ← foldItems (advance (.builtins Unit false limit) (k + 1))
            (fun elements x => do
              pure ((← materialize (.builtins Unit false limit) (k + 1) x) :: elements)) (k + 1) []
            (.items (spellings xs) .top (some address))
          newList elements.reverse .top) := by
      rw [materialize]
      rfl
    rw [hmaterialize]
    refine (gives_elements [] (some address) (by omega) fun x hx => ?_).bind ?_
    · have hlength := hlengths x hx
      refine (ih x hx (n := k) (k := k + 1) (by omega) (by omega)).imp fun v hv acc => ?_
      exact hv.bind fun y hy => .pure ⟨y, hy, rfl⟩
    · rintro _ ⟨ys, hys, rfl⟩
      refine (Gives.newList _ _).imp ?_
      rintro _ ⟨address', rfl⟩
      simpa using SameData.items cell (some address') hys

end Spelled

/-! ## 4. What was shown -/

theorem Expr.Alike.list_layer {l : LazyList} {v : Expr} (h : (Expr.list l).Alike v) :
    ∃ l', v = .list l' ∧ ListAlikeLayer l l' := by
  cases h.layer with
  | atom hatom => cases hatom
  | list hl => exact ⟨_, rfl, hl.layer⟩

theorem forall₂_comp {α β γ : Type} {R : α → β → Prop} {S : β → γ → Prop} {T : α → γ → Prop}
    {xs : List α} {ys : List β} {zs : List γ} (h : ∀ x ∈ xs, ∀ y z, R x y → S y z → T x z)
    (hxy : List.Forall₂ R xs ys) (hyz : List.Forall₂ S ys zs) : List.Forall₂ T xs zs := by
  induction hxy generalizing zs with
  | nil =>
    cases hyz
    exact .nil
  | cons hR _ ih =>
    cases hyz with
    | cons hS hyz =>
      refine .cons (h _ (by simp) _ _ hR hS) (ih (fun x hx => h x (by simp [hx])) hyz)

/-- Data that is the same up to cells is the same. -/
theorem SameData.of_alike {d : Nat} {m v v' : Expr} (hm : IsData d m) (h : SameData m v)
    (hv : v.Alike v') : SameData m v' := by
  induction hm generalizing v v' with
  | number | bool | str | null =>
    have hatom : v' = v := by cases h <;> cases hv.layer <;> rfl
    exact hatom ▸ h
  | @range _ p =>
    cases h
    obtain ⟨l', rfl, hlayer⟩ := hv.list_layer
    cases hlayer
    exact .progression p
  | @items d xs cell _ ih =>
    cases h with
    | @items _ ys _ cell' hys =>
      obtain ⟨l', rfl, hlayer⟩ := hv.list_layer
      cases hlayer with
      | @items _ zs _ env _ cell'' hzs henv =>
        have htop : env = .top := by cases env <;> cases henv; rfl
        subst htop
        refine .items cell cell'' (forall₂_comp ?_ hys hzs)
        exact fun x hx y z hxy hyz => ih x hx hxy hyz

/-! ## 5. The round trip -/

/-- What is given where nothing is remembered is given, up to cells, by the standard evaluator. -/
theorem materializeValue_recalled {n : Nat} {source : String} {e v : Expr} {m : Machine Unit}
    (hparse : parse source = .ok e)
    (h : materializeValue (.builtins Unit false (some maxDepth)) n .top e (.fresh ()) = .ok v m) :
    ∃ v' m', materializeValue .standard n .top e (.fresh ()) = .ok v' m' ∧ v.Alike v' := by
  have hcode : (Bond.recall Unit (some maxDepth)).like.code [] .top .top e e :=
    ⟨Tenure.env_top, Tenure.value_of_claims (claims_of_parseIn hparse)⟩
  have hrun := (Bond.recall Unit (some maxDepth)).follows_materializeValue (n := n)
    (g := fun _ => n)
    (fun _ => rfl) hcode (.fresh ()) (.fresh ()) (Machine.fresh_plain ()) (Ledger.fits_fresh ()) rfl
  change Recalls [] 0 _
    (materializeValue (.builtins Unit false (some maxDepth)) n .top e (.fresh ()))
    (materializeValue .standard n .top e (.fresh ())) at hrun
  rw [h] at hrun
  generalize materializeValue .standard n .top e (.fresh ()) = r at hrun
  cases hrun with
  | ok _ _ _ _ _ hv => exact ⟨_, _, rfl, hv.1⟩

/-- The spelling of data is rendered as the text of the data. -/
theorem gives_rendered {m : Expr} (h : IsData 120 m) {limit : Option Nat} {n : Nat}
    (hn : m.source.length + 4 ≤ n) :
    Gives limit 4 (renderValue (.builtins Unit false limit) n .top m.spelling) (· = m.source) := by
  refine (gives_spelling h hn hn).bind fun v hv => hv.bind fun u hu => ?_
  obtain ⟨hdata, htext⟩ := hu.isData h
  have hshown : u.display? n = some m.source := by
    rw [← htext] at hn ⊢
    exact display_data hdata (by omega)
  exact .fueled hshown rfl

/-- The text of data is answered with that text. -/
theorem answer_source {m : Expr} (h : IsData 120 m) {fuel : Nat}
    (hfuel : m.source.length + 4 ≤ fuel) :
    Setting.standard.answer fuel m.source = .ok m.source := by
  have hfree : (Setting.builtins Unit false (some maxDepth)).answer fuel m.source =
    .ok m.source := by
    obtain ⟨_, m', hrun, rfl⟩ := (gives_rendered h hfuel).fresh (by decide)
    simp only [Setting.answer, parse_data h, Eval.result, hrun]
  have hsame := answer_recalled fuel m.source (by rw [hfree]; trivial)
  rw [hfree] at hsame
  generalize Setting.standard.answer fuel m.source = answer at hsame ⊢
  cases hsame
  rfl

/-- **Data that is shown is read as the same data.** It is shown as its source text; this text is
answered with itself, and what it is evaluated to is the data, up to the scale of whole decimals. -/
theorem evaluateText_display {m : Expr} (h : IsData 120 m) :
    (∀ fuel, m.source.length < fuel → m.display? fuel = some m.source) ∧
    (m.source.length + 4 ≤ ampleFuel → evaluateText none m.source = .ok m.source) ∧
    ∃ e, parse m.source = .ok e ∧ ∀ fuel, m.source.length + 4 ≤ fuel →
      Setting.standard.answer fuel m.source = .ok m.source ∧
      ∃ v machine, materializeValue .standard fuel .top e (.fresh ()) = .ok v machine ∧
        SameData m v := by
  refine ⟨fun fuel => display_data h, fun hfuel =>
    ?_, m.spelling, parse_data h, fun fuel hfuel => ?_⟩
  · rw [evaluateText_eq]
    exact answer_source h hfuel
  refine ⟨answer_source h hfuel, ?_⟩
  have hgives : Gives (some maxDepth) 4
      (materializeValue (.builtins Unit false (some maxDepth)) fuel .top m.spelling) (SameData m) :=
    (gives_spelling h hfuel hfuel).bind fun v hv => hv
  obtain ⟨v, m', hrun, hv⟩ := hgives.fresh (by decide)
  obtain ⟨v', machine, hrun', halike⟩ := materializeValue_recalled (parse_data h) hrun
  exact ⟨v', machine, hrun', hv.of_alike h halike⟩

/-- A difference, a negative zero, a whole decimal, a range that goes down and an escaped quote. -/
theorem evaluateText_display_mixed :
    let m : Expr :=
      .list (.items [.integer Int64.minValue, .decimal ⟨true, 0, 1, by decide, by decide⟩,
      .decimal ⟨false, 3, 0, by decide, by decide⟩,
        .list (.progression ⟨.integer 5, .integer (-2), none⟩),
      .list (.items [.str "a\"b"] .top (some 3))] .top none)
    let text := "[(-9223372036854775807 - 1), -0.0, 3.0, [5, 3..], [\"a\\\"b\"]]"
    IsData 120 m ∧ m.source = text ∧ evaluateText none text = .ok text := by
  intro m text
  have hstep : (Number.integer 3).sub? (.integer 5) = some (.integer (-2)) := rfl
  have hrange : Progression.OfLiteral ⟨.integer 5, .integer (-2), none⟩ := .stepped none hstep
  have hdata : IsData 120 m := by
    refine .items none ?_
    simp only [List.mem_cons, List.not_mem_nil, or_false, forall_eq_or_imp, forall_eq]
    refine ⟨.number _, .number _, .number _, .range hrange rfl, .items (some 3) ?_⟩
    simp only [List.mem_singleton, forall_eq]
    exact .str _
  have htext : m.source = text := by cbv
  have hanswer := (evaluateText_display hdata).2.1
  rw [htext] at hanswer
  exact ⟨hdata, htext, hanswer (by decide)⟩

end LazyExpr
