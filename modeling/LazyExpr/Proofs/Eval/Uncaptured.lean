import LazyExpr.Proofs.Eval.Data
import LazyExpr.Proofs.Expr.Uncaptured

/-!
# Functions that captured nothing mean what they show

Where nothing was captured, the text of a function or a list is read as its spelling, and that is
evaluated to the same value.

* `Evaluates env e P`: given enough fuel, and without a limit on nested evaluations, `e` is
  evaluated in `env` to something that has `P`.  There is one rule for each form that the text of a
  value may have.
* `evaluates_spelling`: **the spelling of a value that captured nothing is evaluated to that
  value**, up to cells.
* `parse_display_uncaptured`: **what such a value shows is read and evaluated to the same value.**
-/

namespace LazyExpr

open Eval

/-! ## 1. Evaluation with enough fuel -/

/-- Given enough fuel, the expression is evaluated to something that has `P`. -/
def Evaluates (env : Env) (e : Expr) (P : Expr → Prop) : Prop :=
  ∃ n, ∀ fuel, n ≤ fuel → Gives none 0 (eval .cacheFree fuel env e) P

/-- Without a limit no levels are needed. -/
theorem Gives.unlimited {α : Type} {levels : Nat} {x : Eval Unit α} {P : α → Prop}
    (h : Gives none levels x P) : Gives none 0 x P :=
  fun m hm _ => h m hm nofun

namespace Evaluates

variable {env : Env} {e x : Expr} {P Q R : Expr → Prop}

theorem imp (h : Evaluates env e P) (hP : ∀ v, P v → Q v) : Evaluates env e Q := by
  obtain ⟨n, h⟩ := h
  exact ⟨n, fun fuel hfuel => (h fuel hfuel).imp hP⟩

/-- An expression that needs so many steps, and levels of nesting. -/
theorem of_steps (k levels : Nat)
    (h : ∀ fuel, Gives none levels (eval .cacheFree (fuel + k) env e) P) : Evaluates env e P := by
  refine ⟨k, fun fuel hfuel => ?_⟩
  obtain ⟨fuel, rfl⟩ : ∃ f, fuel = f + k := ⟨fuel - k, by omega⟩
  exact (h fuel).unlimited

theorem atom (h : e.isAtom = true) (hP : P e) : Evaluates env e P :=
  of_steps 1 1 fun _ =>
    (gives_done (S := .cacheFree) (Expr.isDone_of_atom h)).imp fun _ heq => heq ▸ hP

theorem builtin (b : Builtin) (hP : P (.function b.toFunction)) :
    Evaluates env (.function b.toFunction) P := by
  refine of_steps 1 1 fun fuel => Gives.checked ?_
  cases b <;> exact Gives.pure hP

theorem lambda {depth : Nat} {names : List String} {body : Expr}
    (hP : P (.closure depth names body env)) : Evaluates env (.lambda depth names body) P :=
  of_steps 1 1 fun _ => Gives.checked (Gives.pure hP)

theorem literal {xs : List Expr} (hP : ∀ cell, P (.list (.items xs env cell))) :
    Evaluates env (.literal xs) P := by
  refine of_steps 1 1 fun fuel => Gives.checked ((Gives.newList xs env).imp ?_)
  rintro _ ⟨address, rfl⟩
  exact hP (some address)

theorem call {k : Nat} (he : Evaluates env e P) (hx : Evaluates env x Q)
    (happly : ∀ f a, P f → Q a → ∀ fuel, Gives none 0 (apply .cacheFree (fuel + k) f a) R) :
    Evaluates env (.call e x) R := by
  obtain ⟨n, he⟩ := he
  obtain ⟨m, hx⟩ := hx
  refine ⟨n + m + k + 1, fun fuel hfuel => ?_⟩
  obtain ⟨fuel, rfl⟩ : ∃ f, fuel = f + k + 1 := ⟨fuel - k - 1, by omega⟩
  refine (Gives.checked ((he (fuel + k) (by omega)).bind fun f hf => ?_)).unlimited
  exact (hx (fuel + k) (by omega)).bind fun a ha => happly f a hf ha fuel

theorem binary {op : BinaryOp} (he : Evaluates env e P) (hx : Evaluates env x Q)
    (hop : op ≠ .and ∧ op ≠ .or) (hvalues : ∀ a b, P a → Q b → ∃ v, op.onValues a b = .ok v ∧ R v) :
    Evaluates env (.binary op e x) R := by
  obtain ⟨n, he⟩ := he
  obtain ⟨m, hx⟩ := hx
  refine ⟨n + m + 1, fun fuel hfuel => ?_⟩
  obtain ⟨fuel, rfl⟩ : ∃ f, fuel = f + 1 := ⟨fuel - 1, by omega⟩
  have heval : eval .cacheFree (fuel + 1) env (.binary op e x) = check >>= fun _ => nested none (do
      let left ← eval .cacheFree fuel env e
      let right ← eval .cacheFree fuel env x
      lift (op.onValues left right)) := by
    rw [eval]
    simp only [hop.1, hop.2, or_self, if_false]
    rfl
  rw [heval]
  refine (Gives.checked ((he fuel (by omega)).bind fun a ha => ?_)).unlimited
  refine (hx fuel (by omega)).bind fun b hb => ?_
  obtain ⟨v, hv, hR⟩ := hvalues a b ha hb
  exact .lift hv hR

/-- A section evaluates its operand and keeps it. -/
theorem kept (make : Expr → Expr)
    (heval : ∀ fuel, eval .cacheFree (fuel + 1) env (make x) =
      check >>= fun _ => nested none (eval .cacheFree fuel env x >>= fun v => pure (make v)))
    (h : Evaluates env x P) (hP : ∀ v, P v → R (make v)) : Evaluates env (make x) R := by
  obtain ⟨n, h⟩ := h
  refine ⟨n + 1, fun fuel hfuel => ?_⟩
  obtain ⟨fuel, rfl⟩ : ∃ f, fuel = f + 1 := ⟨fuel - 1, by omega⟩
  rw [heval]
  exact (Gives.checked ((h fuel (by omega)).bind fun v hv => .pure (hP v hv))).unlimited

end Evaluates

/-! ## 2. Functions and what they have received -/

/-- A function that has received these arguments. -/
def received (f : Expr) : List Expr → Expr
  | [] => f
  | args => .applied f args

/-- A function that takes more arguments keeps the one it is given. -/
theorem apply_received {f : Expr} {args : List Expr} (n : Nat) (a : Expr)
    (h : args.length + 1 < f.takes) :
    apply .cacheFree (n + 2) (received f args) a = pure (received f (args ++ [a])) := by
  have hreceived : received f (args ++ [a]) = .applied f (args ++ [a]) := by cases args <;> rfl
  rw [hreceived]
  cases f with
  | function f =>
    have hlength : (args ++ [a]).length < f.arity := by simpa [Expr.takes] using h
    have hsupply : supply .cacheFree (n + 1) (.function f) args a =
      pure (.applied (.function f) (args ++ [a])) :=
      if_pos hlength
    cases args <;> exact hsupply
  | closure depth parameters body env =>
    have hlength : (args ++ [a]).length < parameters.length := by simpa [Expr.takes] using h
    have hsupply : supply .cacheFree (n + 1) (.closure depth parameters body env) args a =
        pure (.applied (.closure depth parameters body env) (args ++ [a])) := if_pos hlength
    cases args <;> exact hsupply
  | _ => exact absurd h (Nat.not_lt_zero _)

/-- The arguments are received one after another. -/
theorem evaluates_arguments {env : Env} {F : Expr → Prop} {R : Expr → Expr → Prop} {g : Expr → Expr}
    {k : Nat} (hF : ∀ f, F f → f.takes = k) {e : Expr} {before args : List Expr}
    (hk : before.length + args.length < k)
    (he : Evaluates env e fun v => ∃ f ys, F f ∧ List.Forall₂ R before ys ∧ v = received f ys)
    (h : ∀ x ∈ args, Evaluates env (g x) (R x)) :
    Evaluates env (e.callAll (args.map g)) fun v =>
      ∃ f ys, F f ∧ List.Forall₂ R (before ++ args) ys ∧ v = received f ys := by
  induction args generalizing e before with
  | nil => simpa [Expr.callAll] using he
  | cons x args ih =>
    rw [List.length_cons] at hk
    have hcall : Evaluates env (.call e (g x)) fun v =>
        ∃ f ys, F f ∧ List.Forall₂ R (before ++ [x]) ys ∧ v = received f ys := by
      refine he.call (h x (by simp)) (k := 2) ?_
      rintro _ a ⟨f, ys, hf, hys, rfl⟩ ha fuel
      have hroom : ys.length + 1 < f.takes := by
        have := hys.length_eq
        have := hF f hf
        omega
      rw [apply_received fuel a hroom]
      exact .pure ⟨f, ys ++ [a], hf, List.rel_append hys (.cons ha .nil), rfl⟩
    have hrest := ih (by simp; omega) hcall fun y hy => h y (by simp [hy])
    simpa [Expr.callAll] using hrest

/-- A view that a built-in function makes of a value and a list. -/
theorem evaluates_view {env : Env} {b : Builtin} {e l' : Expr} {P R : Expr → Prop}
    {Q : LazyList → Prop} (make : Expr → LazyList → LazyList) (hb : b.arity = 2)
    (he : Evaluates env e P) (hl : Evaluates env l' fun v => ∃ l, v = .list l ∧ Q l)
    (happly : ∀ n v l, P v → apply .cacheFree (n + 4)
      (.applied (.function b.toFunction) [v]) (.list l) = pure (.list (make v l)))
    (hmake : ∀ v l, P v → Q l → R (.list (make v l))) :
    Evaluates env (.call (.call (.function b.toFunction) e) l') R := by
  have hfirst : Evaluates env (.call (.function b.toFunction) e) fun v =>
      ∃ y, P y ∧ v = .applied (.function b.toFunction) [y] := by
    have hfunction : Evaluates env (.function b.toFunction) (· = .function b.toFunction) :=
      .builtin b rfl
    refine hfunction.call he (k := 2) ?_
    rintro _ y rfl hy fuel
    have hroom : ([] : List Expr).length + 1 < (Expr.function b.toFunction).takes :=
      (show 1 < b.arity by rw [hb]; decide)
    have hkept : apply .cacheFree (fuel + 2) (received (.function b.toFunction) []) y =
        pure (.applied (.function b.toFunction) [y]) := apply_received fuel y hroom
    exact hkept ▸ .pure ⟨y, hy, rfl⟩
  refine hfirst.call hl (k := 4) ?_
  rintro _ _ ⟨y, hy, rfl⟩ ⟨l, rfl, hl⟩ fuel
  rw [happly fuel y l hy]
  exact .pure (hmake y l hy hl)

/-- A list without its first elements. -/
theorem evaluates_dropped {env : Env} {count : Nat} {l' : Expr} {R : Expr → Prop}
    {Q : LazyList → Prop}
    (hcount : count < 2 ^ 63) (hl : Evaluates env l' fun v => ∃ l, v = .list l ∧ Q l)
    (hmake : ∀ l, Q l → R (.list (.dropped count l))) :
    Evaluates env
      (.call (.call (.function Builtin.drop.toFunction) (.integer (.ofNat count))) l') R := by
  have hnumber : Evaluates env (.integer (.ofNat count)) (· = .integer (.ofNat count)) :=
    .atom rfl rfl
  have hback : countOfInt64 (.ofNat count) = count := by
    rw [countOfInt64, Int64.toInt_ofNat_of_lt hcount, Int.toNat_natCast]
  refine evaluates_view (fun _ => .dropped count) rfl hnumber hl (fun n v l hv => ?_) fun _ l _ =>
    hmake l
  subst hv
  have hdrop : apply .cacheFree (n + 4) (.applied (.function Builtin.drop.toFunction)
      [.integer (.ofNat count)]) (.list l) = pure (.list
        (.dropped (countOfInt64 (.ofNat count)) l)) := rfl
  rw [hback] at hdrop
  exact hdrop

/-! ## 3. The values come back -/

/-- What is like a list is a list. -/
theorem exists_list_of_alike {v : Expr} {l : LazyList} (h : v.Alike (.list l)) :
    ∃ l', v = .list l' ∧ l'.Alike l := by
  have hlist : (Expr.list l).Alike v := h.symm
  obtain ⟨l', rfl, -⟩ := hlist.list_layer
  exact ⟨l', rfl, Expr.list.inj h⟩

theorem evaluates_callee {f : Expr} {k : Nat} (h : Callee f k) :
    Evaluates .top f.spelling (· = f) := by
  cases h with
  | builtin b => exact .builtin b rfl
  | closure => exact .lambda rfl

/-- **The spelling of a value that captured nothing is evaluated to that value**, up to cells. -/
theorem evaluates_spelling {v : Expr} (h : Uncaptured v) :
    Evaluates .top v.spelling (·.Alike v) := by
  induction h with
  | integer n =>
    exact .of_steps 3 3 fun fuel =>
      (gives_number (S := .cacheFree) (.integer n) .top).imp fun _ h => h ▸ rfl
  | @decimal d hscale _ =>
    refine .of_steps 3 3 fun fuel => (gives_number (S := .cacheFree) (.decimal d) .top).imp ?_
    rintro _ rfl
    rw [Number.pointed, hscale]
    rfl
  | bool | str | null => exact .atom rfl rfl
  | callee h => exact (evaluates_callee h).imp fun _ heq => heq ▸ rfl
  | @applied f a _ args hf _ hk ih =>
    have hcallee : Evaluates .top f.spelling fun v =>
        ∃ g ys, g = f ∧ List.Forall₂ (fun x y => y.Alike x) [] ys ∧ v = received g ys :=
      (evaluates_callee hf).imp fun _ h => ⟨f, [], rfl, .nil, h⟩
    have hall := evaluates_arguments (fun _ h => h ▸ hf.takes_eq) (by simpa using hk) hcallee ih
    rw [← spellings_eq_map] at hall
    refine hall.imp ?_
    rintro _ ⟨g, _, rfl, hys, rfl⟩
    cases hys with
    | cons hy hys => exact congrArg (Expr.applied g.erase) (eraseAll_of_alike (.cons hy hys.flip))
  | leftSection op _ ih =>
    exact ih.kept (.leftSection op) (fun _ => rfl) fun v hv => congrArg (Expr.leftSection op) hv
  | @rightSection op _ _ _ ih =>
    exact ih.kept (.rightSection op) (fun _ => rfl) fun v hv => congrArg (Expr.rightSection op) hv
  | @items xs cell h =>
    have hspelling : (Expr.list (.items xs .top cell)).spelling = .literal xs :=
      spelling_of_readable (Readable.literal h) Scope.faithful_standard
    rw [hspelling]
    exact .literal fun _ => rfl
  | progression hp =>
    exact .of_steps 4 4 fun fuel =>
      (gives_progression (S := .cacheFree) hp .top).imp fun _ h => h ▸ rfl
  | prepend _ _ ihx ihl =>
    refine ihx.binary ihl (by decide) fun x v hx hv => ?_
    obtain ⟨l, rfl, hl⟩ := exists_list_of_alike hv
    exact ⟨_, rfl, congrArg Expr.list (congrArg₂ LazyList.prepend hx hl)⟩
  | concat _ _ iha ihb =>
    refine iha.binary ihb (by decide) fun u v hu hv => ?_
    obtain ⟨a, rfl, ha⟩ := exists_list_of_alike hu
    obtain ⟨b, rfl, hb⟩ := exists_list_of_alike hv
    exact ⟨_, rfl, congrArg Expr.list (congrArg₂ LazyList.concat ha hb)⟩
  | mapped _ _ ihf ihl =>
    exact evaluates_view .mapped rfl ihf (ihl.imp fun _ => exists_list_of_alike)
      (fun _ _ _ _ => rfl)
      fun _ _ hf hl => congrArg Expr.list (congrArg₂ LazyList.mapped hf hl)
  | filtered _ _ ihp ihl =>
    exact evaluates_view .filtered rfl ihp (ihl.imp fun _ => exists_list_of_alike)
      (fun _ _ _ _ => rfl)
      fun _ _ hp hl => congrArg Expr.list (congrArg₂ LazyList.filtered hp hl)
  | @dropped count l hcount _ ihl =>
    exact evaluates_dropped hcount (ihl.imp fun _ => exists_list_of_alike)
      fun _ hl => congrArg Expr.list (congrArg (LazyList.dropped count) hl)

/-! ## 4. What is shown -/

/-- **A value that captured nothing is read back from what it shows**: the text is nested too
deeply, or it is read, and evaluated to the same value. -/
theorem parse_display_uncaptured {v : Expr} (h : Uncaptured v) :
    ∃ text, (∃ n, ∀ fuel, n ≤ fuel → v.display? fuel = some text) ∧
      ((∃ e, parse text = .ok e ∧ ∃ n, ∀ fuel, n ≤ fuel → evalAnswer fuel .top e = .value v.erase) ∨
        ∃ error, parse text = .error error ∧ error.IsNestingLimit) := by
  obtain ⟨ts, hwritten⟩ := written_uncaptured h
  refine ⟨v.source, display_uncaptured h, (parse_written hwritten).imp_left fun hok => ?_⟩
  obtain ⟨k, heval⟩ := evaluates_spelling h
  refine ⟨v.spelling, hok, k, fun fuel hfuel => ?_⟩
  obtain ⟨v', m, hrun, -, -, halike⟩ := heval fuel hfuel (.fresh ()) (Machine.fresh_plain ())
    (by rintro _ ⟨⟩)
  rw [evalAnswer, hrun]
  exact congrArg Answer.value halike

end LazyExpr
