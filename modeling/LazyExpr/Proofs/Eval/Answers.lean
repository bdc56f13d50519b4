import LazyExpr.Proofs.Eval.CacheFree

/-!
# The answer in the end

With more fuel, an answer that is known stays what it is.  So what an evaluation answers tends to
one answer, which is there from some fuel on: a value, a fault, or nothing ever.  This module takes
the answers of the evaluator without a memory to their ends, form by form, without counting fuel.

* `Tends x a`: the answers `x`, by fuel, come to `a` in the end.  `Tends.bind`: **they do so step by
  step.**
* `Expr.isValue` and `tends_value`: a value is its own answer.  `tends_argument`: so is that of a
  parameter.
* `tends_call`, `tends_binary`, `tends_builtin` and `tends_builtin₂`: calls and operators by the
  answers of their parts.
-/

namespace LazyExpr

open Eval

/-! ## 1. Answers that come to one -/

section Ends

variable {α β : Type}

theorem Answer.map_map {γ : Type} (a : Answer α) (f : α → β) (g : β → γ) :
    (a.map f).map g = a.map fun x => g (f x) := by
  cases a <;> rfl

theorem Answer.map_id (a : Answer α) : (a.map fun x => x) = a := by
  cases a <;> rfl

/-- Where it is known, the answer is `a`, and from some fuel on it is `a`. -/
def Tends (x : Nat → Answer α) (a : Answer α) : Prop :=
  (∀ n, (x n).Below a) ∧ ∃ n, ∀ k, n ≤ k → x k = a

namespace Tends

variable {x : Nat → Answer α} {a b : Answer α}

theorem const (a : Answer α) : Tends (fun _ => a) a := ⟨fun _ => .rfl, 0, fun _ _ => rfl⟩

/-- An answer that is known with one fuel is the answer. -/
theorem of_eq (hmore : ∀ {n n'}, n ≤ n' → (x n).Below (x n')) {n : Nat} (h : x n = a)
    (ha : a ≠ .unknown) : Tends x a := by
  have hlater : ∀ k, n ≤ k → x k = a := fun k hk => by
    rw [(hmore hk).eq (h ▸ ha), h]
  refine ⟨fun k => ?_, n, hlater⟩
  rw [← hlater _ (Nat.le_max_left n k)]
  exact hmore (Nat.le_max_right n k)

theorem of_unknown (h : ∀ n, x n = .unknown) : Tends x .unknown :=
  ⟨fun n => h n ▸ .rfl, 0, fun n _ => h n⟩

/-- Where more fuel only adds to what is known, there is an answer in the end. -/
theorem exists_of_more (hmore : ∀ {n n'}, n ≤ n' → (x n).Below (x n')) : ∃ a, Tends x a := by
  by_cases hknown : ∃ n, x n ≠ .unknown
  · obtain ⟨n, hn⟩ := hknown
    exact ⟨x n, .of_eq hmore rfl hn⟩
  · exact ⟨.unknown, .of_unknown fun n => not_not.mp fun hn => hknown ⟨n, hn⟩⟩

/-- The first answers do not matter, if they say nothing. -/
theorem of_succ (h : Tends (fun n => x (n + 1)) a) (h0 : x 0 = .unknown) : Tends x a := by
  obtain ⟨hbelow, n, hn⟩ := h
  refine ⟨fun k => ?_, n + 1, fun k hk => ?_⟩
  · cases k with
    | zero => exact h0 ▸ .unknown
    | succ k => exact hbelow k
  · obtain ⟨k, rfl⟩ : ∃ k', k = k' + 1 := ⟨k - 1, by omega⟩
    exact hn k (by omega)

/-- Where more fuel only adds to what is known, any number of first answers do not matter. -/
theorem of_shift (hmore : ∀ {n n'}, n ≤ n' → (x n).Below (x n')) (k : Nat)
    (h : Tends (fun n => x (n + k)) a) : Tends x a := by
  obtain ⟨hbelow, n, hn⟩ := h
  refine ⟨fun i => (hmore (Nat.le_add_right i k)).trans (hbelow i), n + k, fun i hi => ?_⟩
  obtain ⟨j, rfl⟩ : ∃ j, i = j + k := ⟨i - k, by omega⟩
  exact hn j (by omega)

/-- **Answers come to an end step by step.** -/
theorem bind {y : Nat → α → Answer β} {c : α → Answer β} (hx : Tends x a)
    (hy : ∀ v, a = .value v → Tends (fun n => y n v) (c v)) :
    Tends (fun n => (x n).bind (y n)) (a.bind c) := by
  obtain ⟨hbelow, n, hn⟩ := hx
  cases a with
  | value v =>
    obtain ⟨hbelow', n', hn'⟩ := hy v rfl
    refine ⟨fun k => ?_, max n n', fun k hk => ?_⟩
    · show ((x k).bind (y k)).Below (c v)
      rcases hbelow k with h | h
      · rw [h]
        exact .unknown
      · rw [h]
        exact hbelow' k
    · show (x k).bind (y k) = c v
      rw [hn k (Nat.le_trans (Nat.le_max_left n n') hk)]
      exact hn' k (Nat.le_trans (Nat.le_max_right n n') hk)
  | fault e =>
    refine ⟨fun k => ?_, n, fun k hk => ?_⟩
    · show ((x k).bind (y k)).Below (.fault e)
      rcases hbelow k with h | h
      · rw [h]
        exact .unknown
      · rw [h]
        exact .rfl
    · show (x k).bind (y k) = .fault e
      rw [hn k hk]
      rfl
  | unknown =>
    have hall : ∀ k, x k = .unknown := fun k => (hbelow k).elim id id
    exact .of_unknown fun k => by simp only [hall k]; rfl

theorem map (hx : Tends x a) (f : α → β) : Tends (fun n => (x n).map f) (a.map f) :=
  hx.bind fun v _ => .const (.value (f v))

end Tends

end Ends

/-! ## 2. Values -/

/-- Whether the expression has the form of a value: nothing is left to be done but to give lists of
expressions their cells. -/
def Expr.isValue : Expr → Bool
  | .number _ | .bool _ | .str _ | .null | .closure .. | .applied .. | .list _ => true
  | .function f => f.arity != 0
  | .leftSection _ v | .rightSection _ v => v.isValue
  | _ => false

theorem Expr.isValue_erase : ∀ v : Expr, v.erase.isValue = v.isValue
  | .leftSection _ v | .rightSection _ v => v.isValue_erase
  | .number _ | .bool _ | .str _ | .null | .list _ | .range .. | .call .. | .function _ | .lambda ..
  | .closure .. | .argument _ | .applied .. | .unary .. | .binary .. | .conditional ..
  | .interpolated _ => rfl

/-- An evaluation takes its answer from one level deeper. -/
theorem evalAnswer_succ {n : Nat} {env : Env} {e : Expr} (x : Eval Unit Expr)
    (h : eval .cacheFree (n + 1) env e = do check; nested none x) :
    ∃ m, m.Plain ∧ evalAnswer (n + 1) env e = .ofRun Expr.erase (x m) := by
  refine ⟨{ Machine.fresh () with depth := 0 + 1 }, Machine.fresh_plain (), ?_⟩
  rw [evalAnswer, h, answer_check (Machine.fresh_plain ()), nested_none, above_run]
  show Answer.ofRun _ (Ended.atDepth 0 (x { Machine.fresh () with depth := 0 + 1 })) = _
  rcases x { Machine.fresh () with depth := 0 + 1 } with ⟨a, m⟩ | ⟨_ | _, m⟩ <;> rfl

/-- The answer of what goes on with the value of an expression. -/
theorem answer_eval {n : Nat} {env : Env} {e : Expr} {f : Expr → Eval Unit Expr}
    {g : Expr → Answer Expr} {m : Machine Unit} (hm : m.Plain)
    (hf : ∀ v m, m.Plain → Answer.ofRun Expr.erase (f v m) = g v.erase) :
    Answer.ofRun Expr.erase ((eval .cacheFree n env e >>= f) m) = (evalAnswer n env e).bind g := by
  rw [answer_bind hm (mirror_eval n rfl rfl) hf, evalAnswer_eq hm rfl rfl]

/-- The answer of what goes on with the first element of a list. -/
theorem answer_pull {β γ : Type} {n : Nat} {l : LazyList}
    {f : Option (Expr × LazyList) → Eval Unit β}
    {keep : β → γ} {g : Option (Expr × LazyList) → Answer γ} {m : Machine Unit} (hm : m.Plain)
    (hf : ∀ p m, m.Plain → Answer.ofRun keep (f p m) = g (erasePulled p)) :
    Answer.ofRun keep ((pull .cacheFree n l >>= f) m) = (pullAnswer n l).bind g := by
  rw [answer_bind hm (mirror_pull n rfl) hf, pullAnswer_eq hm rfl]

/-- A form whose value is made of the value of a part of it. -/
theorem evalAnswer_wrapped {n : Nat} {env : Env} {e v : Expr} {f : Expr → Expr}
    (hf : ∀ v, (f v).erase = f v.erase)
    (h : eval .cacheFree (n + 1) env e = do
      check
      nested none (eval .cacheFree n env v >>= fun u => pure (f u))) :
    evalAnswer (n + 1) env e = (evalAnswer n env v).map f := by
  obtain ⟨m, hm, hanswer⟩ := evalAnswer_succ _ h
  rw [hanswer]
  exact answer_eval hm fun v m hm => congrArg Answer.value (hf v)

/-- A form that needs no evaluation. -/
theorem tends_pure {env : Env} {e v : Expr}
    (h : ∀ n, eval .cacheFree (n + 1) env e = do check; nested none (pure v)) :
    Tends (fun n => evalAnswer n env e) (.value v.erase) := by
  have hanswer : ∀ n, evalAnswer (n + 1) env e = .value v.erase := by
    intro n
    obtain ⟨m, -, hm⟩ := evalAnswer_succ _ (h n)
    rw [hm]
    rfl
  refine .of_succ ?_ rfl
  simp only [hanswer]
  exact .const _

theorem tends_number (env : Env) (x : Number) :
    Tends (fun n => evalAnswer n env (.number x)) (.value (.number x)) :=
  tends_pure (v := .number x) fun _ => rfl

/-- A function that waits for an argument is its own answer, wherever it stands. -/
theorem tends_function (env : Env) {f : Function} (h : f.arity ≠ 0) :
    Tends (fun n => evalAnswer n env (.function f)) (.value (.function f)) := by
  refine tends_pure (v := .function f) fun n => ?_
  show (check >>= fun _ => nested none (if f.arity = 0 then _ else _)) = _
  rw [if_neg h]

/-- A parameter has the argument that it is bound to. -/
theorem tends_argument {env : Env} {slot : Slot} {v : Expr} (h : env.lookup slot = some v) :
    Tends (fun n => evalAnswer n env (.argument slot)) (.value v.erase) := by
  have hfind : Setting.cacheFree.find slot env = some v := h
  refine tends_pure fun n => ?_
  simp only [eval, hfind]
  rfl

/-- **A value is its own answer.** -/
theorem tends_value {v : Expr} (h : v.isValue = true) :
    Tends (fun n => evalAnswer n .top v) (.value v.erase) := by
  -- the induction is on the sections around the value
  fun_induction Expr.isValue v with
  | case7 l =>
    refine .of_succ ?_ rfl
    cases l with
    | items xs env cell => cases env <;> exact .const _
    | _ => exact .const _
  | case8 f => exact tends_function .top (bne_iff_ne.mp h)
  | case9 op v ih =>
    refine .of_succ ?_ rfl
    simp only [evalAnswer_wrapped (e := .leftSection op v) (f := .leftSection op)
      (fun _ => rfl) rfl]
    exact (ih h).map _
  | case10 op v ih =>
    refine .of_succ ?_ rfl
    simp only [evalAnswer_wrapped (e := .rightSection op v) (f := .rightSection op)
      (fun _ => rfl) rfl]
    exact (ih h).map _
  | case11 => cases h
  | _ => exact .of_succ (.const _) rfl

/-! ## 3. Calls and operators -/

section Calls

variable {env : Env} {f g a : Expr} {o : Answer Expr} {p : Expr → Answer Expr}

theorem evalAnswer_call (n : Nat) (env : Env) (f a : Expr) :
    evalAnswer (n + 1) env (.call f a) =
      (evalAnswer n env f).bind fun f => (evalAnswer n env a).bind fun a => applyAnswer n f a := by
  have hrun : eval .cacheFree (n + 1) env (.call f a) = (do
      check
      nested none (do
        let f ← eval .cacheFree n env f
        let a ← eval .cacheFree n env a
        apply .cacheFree n f a)) := rfl
  obtain ⟨m, hm, h⟩ := evalAnswer_succ _ hrun
  rw [h]
  refine answer_eval hm fun v m hm => answer_eval hm fun u m hm => ?_
  exact applyAnswer_eq hm v.alike_erase u.alike_erase

/-- The result of an operator does not depend on cells. -/
theorem onValues_answer (op : BinaryOp) (l r : Expr) (m : Machine Unit) :
    Answer.ofRun Expr.erase (lift (op.onValues l r) m) =
      (Answer.ofExcept (op.onValues l.erase r.erase)).map Expr.erase := by
  have h := (Likeness.alike .free).onValues_alike (w := ()) op (Tenure.free_value l.alike_erase)
    (Tenure.free_value r.alike_erase)
  revert h
  cases op.onValues l r <;> cases op.onValues l.erase r.erase <;> intro h
  · exact congrArg Answer.fault (h.erase_eq fun _ _ hv => hv.1)
  · exact h.elim
  · exact h.elim
  · exact congrArg Answer.value h.1

theorem evalAnswer_binary {op : BinaryOp} (hop : ¬ (op = .and ∨ op = .or)) (n : Nat) (env : Env)
    (l r : Expr) :
    evalAnswer (n + 1) env (.binary op l r) =
      (evalAnswer n env l).bind fun l => (evalAnswer n env r).bind fun r =>
        (Answer.ofExcept (op.onValues l r)).map Expr.erase := by
  have hrun : eval .cacheFree (n + 1) env (.binary op l r) = (do
      check
      nested none (do
        let l ← eval .cacheFree n env l
        let r ← eval .cacheFree n env r
        lift (op.onValues l r))) := by
    show (check >>= fun _ => nested none (if op = .and ∨ op = .or then _ else _)) = _
    rw [if_neg hop]
  obtain ⟨m, hm, h⟩ := evalAnswer_succ _ hrun
  rw [h]
  refine answer_eval hm fun v m hm => answer_eval hm fun u m hm => ?_
  exact onValues_answer op v u m

/-- A call, by the answers of the function and the argument. -/
theorem tends_call (hf : Tends (fun n => evalAnswer n env f) (.value g))
    (ha : Tends (fun n => evalAnswer n env a) o)
    (h : ∀ v, o = .value v → Tends (fun n => applyAnswer n g v) (p v)) :
    Tends (fun n => evalAnswer n env (.call f a)) (o.bind p) := by
  refine .of_succ ?_ rfl
  simp only [evalAnswer_call]
  refine hf.bind (c := fun _ => o.bind p) fun v hv => ?_
  cases hv
  exact ha.bind h

/-- An operator other than the logical ones, by the answers of its operands. -/
theorem tends_binary (op : BinaryOp) (hop : ¬ (op = .and ∨ op = .or))
    (hf : Tends (fun n => evalAnswer n env f) (.value g))
    (ha : Tends (fun n => evalAnswer n env a) o) :
    Tends (fun n => evalAnswer n env (.binary op f a))
      (o.bind fun v => (Answer.ofExcept (op.onValues g v)).map Expr.erase) := by
  refine .of_succ ?_ rfl
  simp only [evalAnswer_binary hop]
  refine hf.bind (c := fun _ => o.bind fun v => (Answer.ofExcept (op.onValues g v)).map Expr.erase)
    fun v hv => ?_
  cases hv
  exact ha.bind fun v _ => .const _

/-- What a built-in function answers. -/
def builtinAnswer (n : Nat) (b : Builtin) (arguments : List Expr) : Answer Expr :=
  .ofRun Expr.erase (callBuiltin .cacheFree n b arguments (.fresh ()))

/-- A function that is given its last argument is called. -/
theorem tends_of_last {b : Builtin} {arguments : List Expr} {v : Expr}
    (hlast : ∀ n, apply .cacheFree (n + 3) f v = callBuiltin .cacheFree n b arguments)
    (h : Tends (fun n => builtinAnswer n b arguments) o) :
    Tends (fun n => applyAnswer n f v) o := by
  refine .of_shift (fun hle => applyAnswer_more hle f v) 3 ?_
  simp only [applyAnswer, hlast]
  exact h

theorem Builtin.arity_ne_zero (b : Builtin) : b.toFunction.arity ≠ 0 := Nat.ne_of_gt b.arity_pos

/-- The call of a built-in function with one argument. -/
theorem tends_builtin {b : Builtin} (hb : b.arity = 1) (ha : Tends (fun n => evalAnswer n env a) o)
    (h : ∀ v, o = .value v → Tends (fun n => builtinAnswer n b [v]) (p v)) :
    Tends (fun n => evalAnswer n env (.call (.function b.toFunction) a)) (o.bind p) := by
  refine tends_call (tends_function env b.arity_ne_zero) ha fun v hv =>
    tends_of_last (fun n => ?_) (h v hv)
  show (if [v].length < b.arity then pure _ else callBuiltin .cacheFree n b [v]) = _
  rw [if_neg (by simp [hb])]

/-- A function with two arguments keeps the first until the second is there. -/
theorem applyAnswer_first {b : Builtin} (hb : b.arity = 2) (n : Nat) (v : Expr) :
    applyAnswer (n + 2) (.function b.toFunction) v =
      .value (.applied (.function b.toFunction) [v.erase]) := by
  have happly : apply .cacheFree (n + 2) (.function b.toFunction) v =
      pure (.applied (.function b.toFunction) [v]) := by
    show (if [v].length < b.arity then pure _ else _) = _
    rw [if_pos (by simp [hb])]
    rfl
  rw [applyAnswer, happly]
  rfl

/-- The call of a built-in function with two arguments. -/
theorem tends_builtin₂ {b : Builtin} (hb : b.arity = 2)
    (hc : Tends (fun n => evalAnswer n env f) (.value g.erase))
    (ha : Tends (fun n => evalAnswer n env a) o)
    (h : ∀ v, o = .value v → Tends (fun n => builtinAnswer n b [g.erase, v]) (p v)) :
    Tends (fun n => evalAnswer n env ((Expr.function b.toFunction).callAll [f, a])) (o.bind p) := by
  have hpartial : Tends (fun n => evalAnswer n env (.call (.function b.toFunction) f))
      (.value (.applied (.function b.toFunction) [g.erase])) := by
    refine tends_call (p := fun v => .value (.applied (.function b.toFunction) [v]))
      (tends_function env b.arity_ne_zero) hc fun v hv =>
        .of_shift (fun hle => applyAnswer_more hle _ v) 2 ?_
    cases hv
    have hfirst : ∀ n, applyAnswer (n + 2) (.function b.toFunction) g.erase = _ := fun n =>
      applyAnswer_first hb n g.erase
    rw [g.erase_erase] at hfirst
    simp only [hfirst]
    exact .const _
  refine tends_call hpartial ha fun v hv => tends_of_last (fun n => ?_) (h v hv)
  show (if [g.erase, v].length < b.arity then pure _
    else callBuiltin .cacheFree n b [g.erase, v]) = _
  rw [if_neg (by simp [hb])]

end Calls

end LazyExpr
