import LazyExpr.Proofs.Eval.Alike
import LazyExpr.Proofs.Eval.Fuel

/-!
# The evaluator without a memory

When elements of lists are not remembered, an evaluation does not depend on the machine at all: it
reads no cell.  What it gives on one machine it gives on any other, up to the cells that new lists
get.

So an expression has an *answer*, which is a value, a fault, or that the fuel was too small.
Answers are without cells, and depend on nothing but the fuel and the expression without its cells.
This module takes answers from a fresh machine and shows that they are composed like the evaluations
they come from.

* `evalAnswer`, `applyAnswer`, `testAnswer` and `pullAnswer` are the answers.
* `pullAnswer_items` … `pullAnswer_dropped_succ` — **pulling, without a machine.**
* `evalAnswer_more`, …, `pullAnswer_more` — more fuel changes no answer.
-/

namespace LazyExpr

open Eval

/-! ## 1. Answers -/

/-- What is known of the outcome of an evaluation. -/
inductive Answer (α : Type) where
  | value (a : α)
  | fault (fault : Fault)
  /-- The fuel was too small to tell. -/
  | unknown

namespace Answer

variable {α β γ : Type}

/-- Goes on with a value. -/
def bind (a : Answer α) (f : α → Answer β) : Answer β :=
  match a with
  | value a => f a
  | fault e => fault e
  | unknown => unknown

/-- The answer with its value changed. -/
def map (f : α → β) (a : Answer α) : Answer β := a.bind fun a => value (f a)

/-- The answer without cells. -/
def ofExcept : Except Fault α → Answer α
  | .ok a => value a
  | .error e => fault e.erase

/-- The answer that a run gives, with `keep` taking the cells out of its value. -/
def ofRun {σ : Type} (keep : α → β) : Ended σ α → Answer β
  | .ok a _ => value (keep a)
  | .error (.fault e) _ => fault e.erase
  | .error .outOfFuel _ => unknown

theorem value_ne_unknown {a : α} : value a ≠ unknown := by
  rintro ⟨⟩

theorem fault_ne_unknown {e : Fault} : (fault e : Answer α) ≠ unknown := by
  rintro ⟨⟩

theorem bind_assoc (a : Answer α) (f : α → Answer β) (g : β → Answer γ) :
    (a.bind f).bind g = a.bind fun x => (f x).bind g := by
  cases a <;> rfl

/-- What is known in the first answer is so in the second. -/
def Below (a b : Answer α) : Prop := a = unknown ∨ a = b

theorem Below.rfl {a : Answer α} : Below a a := .inr (Eq.refl _)

theorem Below.unknown {a : Answer α} : Below unknown a := .inl (Eq.refl _)

theorem Below.trans {a b c : Answer α} (h : Below a b) (h' : Below b c) : Below a c := by
  rcases h with rfl | rfl
  · exact .unknown
  · exact h'

theorem Below.bind {a a' : Answer α} {f f' : α → Answer β} (h : Below a a')
    (hf : ∀ x, Below (f x) (f' x)) : Below (a.bind f) (a'.bind f') := by
  rcases h with rfl | rfl
  · exact .unknown
  · cases a with
    | value x => exact hf x
    | fault e => exact .rfl
    | unknown => exact .rfl

theorem Below.map {a a' : Answer α} (h : Below a a') (f : α → β) : Below (a.map f) (a'.map f) :=
  h.bind fun _ => .rfl

/-- An answer that is known stays what it is. -/
theorem Below.eq {a a' : Answer α} (h : Below a a') (hne : a ≠ .unknown) : a' = a := by
  rcases h with rfl | rfl
  · exact absurd (Eq.refl _) hne
  · exact Eq.refl _

end Answer

/-! ## 2. The setting -/

/-- The setting without functions of an embedding application. -/
def Setting.builtins (σ : Type) (remembers : Bool) (depthLimit : Option Nat) : Setting σ :=
  { host := fun _ _ => .give .null, remembers, depthLimit }

/-- The setting in which nothing is remembered, and evaluations may be nested at will. -/
def Setting.cacheFree : Setting Unit := .builtins Unit false none

theorem Setting.builtins_steady (σ : Type) (remembers : Bool) (depthLimit : Option Nat) :
    (Setting.builtins σ remembers depthLimit).Steady := ⟨fun _ _ => .give .null, display_mono⟩

/-- The machine is not asked to stop and has no deadline. -/
def Machine.Plain {σ : Type} (m : Machine σ) : Prop := m.cancelled = false ∧ m.checksLeft = none

theorem Machine.fresh_plain {σ : Type} (host : σ) : (Machine.fresh host).Plain := ⟨rfl, rfl⟩

theorem check_plain {σ : Type} {m : Machine σ} (h : m.Plain) : check m = .ok () m := by
  rw [check_run h.1, h.2]

/-- Where nothing is remembered, an element is evaluated whenever it is asked for. -/
theorem force_forgetful {σ : Type} {S : Setting σ} (h : S.remembers = false) (cell : Option Nat)
    (x : Eval σ Expr) : force S cell x = x := by
  have hknown : known (σ := σ) false cell = pure none := rfl
  have hremember : ∀ v, remember (σ := σ) false cell v = pure v := by
    intro v
    cases cell <;> rfl
  simp only [Eval.force, h, hknown, pure_bind, hremember, bind_pure]

/-! ## 3. Runs on two machines -/

/-- Runs that end alike, on machines that are both plain again. -/
inductive Mirrors {α β : Type} (P : α → β → Prop) : Ended Unit α → Ended Unit β → Prop where
  | ok {a : α} {b : β} {m m' : Machine Unit} (hm : m.Plain) (hm' : m'.Plain) (h : P a b) :
    Mirrors P (.ok a m) (.ok b m')
  | fault {e e' : Fault} {m m' : Machine Unit} (hm : m.Plain) (hm' : m'.Plain)
    (h : e.erase = e'.erase) : Mirrors P (.error (.fault e) m) (.error (.fault e') m')
  | unknown (m m' : Machine Unit) : Mirrors P (.error .outOfFuel m) (.error .outOfFuel m')

theorem Mirrors.imp {α β : Type} {P Q : α → β → Prop} {r : Ended Unit α} {r' : Ended Unit β}
    (h : Mirrors P r r') (hpq : ∀ a b, P a b → Q a b) : Mirrors Q r r' := by
  cases h with
  | ok hm hm' hab => exact .ok hm hm' (hpq _ _ hab)
  | fault hm hm' h => exact .fault hm hm' h
  | unknown m m' => exact .unknown m m'

/-- The two evaluations end alike on any two machines. -/
def MirroredBy {α β : Type} (P : α → β → Prop) (x : Eval Unit α) (y : Eval Unit β) : Prop :=
  ∀ m m', m.Plain → m'.Plain → Mirrors P (x m) (y m')

namespace MirroredBy

variable {α β γ δ : Type} {P : α → β → Prop} {Q : γ → δ → Prop}

theorem pure {a : α} {b : β} (h : P a b) : MirroredBy P (pure a) (pure b) :=
  fun _ _ hm hm' => .ok hm hm' h

theorem fail {e e' : Fault} (h : e.erase = e'.erase) : MirroredBy P (fail e) (fail e') :=
  fun _ _ hm hm' => .fault hm hm' h

theorem bind {x : Eval Unit α} {y : Eval Unit β} {f : α → Eval Unit γ} {g : β → Eval Unit δ}
    (hx : MirroredBy P x y) (hf : ∀ a b, P a b → MirroredBy Q (f a) (g b)) :
    MirroredBy Q (x >>= f) (y >>= g) := by
  intro m m' hm hm'
  have hxy := hx m m' hm hm'
  rw [bind_run, bind_run]
  generalize x m = r at hxy ⊢
  generalize y m' = r' at hxy ⊢
  cases hxy with
  | ok hm hm' hab => exact hf _ _ hab _ _ hm hm'
  | fault hm hm' h => exact .fault hm hm' h
  | unknown m m' => exact .unknown m m'

theorem check : MirroredBy (fun _ _ => True) check check := by
  intro m m' hm hm'
  rw [check_plain hm, check_plain hm']
  exact .ok hm hm' trivial

theorem nested {x : Eval Unit α} {y : Eval Unit β} (h : MirroredBy P x y) :
    MirroredBy P (nested none x) (nested none y) := by
  intro m m' hm hm'
  have hxy := h { m with depth := m.depth + 1 } { m' with depth := m'.depth + 1 } hm hm'
  rw [nested_none, nested_none, above_run, above_run]
  generalize x { m with depth := m.depth + 1 } = r at hxy ⊢
  generalize y { m' with depth := m'.depth + 1 } = r' at hxy ⊢
  cases hxy with
  | ok hm hm' hab => exact .ok hm hm' hab
  | fault hm hm' h => exact .fault hm hm' h
  | unknown m m' => exact .unknown _ _

theorem newList {P : Expr → Expr → Prop} {xs xs' : List Expr} {env env' : Env}
    (h : ∀ cell cell', P (.list (.items xs env cell)) (.list (.items xs' env' cell'))) :
    MirroredBy P (newList xs env) (newList xs' env') :=
  fun _ _ hm hm' => .ok hm hm' (h _ _)

theorem fueled (o : Option α) : MirroredBy (· = ·) (fueled o) (fueled o) := by
  cases o with
  | some a => exact pure rfl
  | none => exact fun m m' _ _ => .unknown m m'

end MirroredBy

/-- Nothing is asked of claims. -/
def Tenure.free : Tenure where
  World := Unit
  le _ _ := True
  le_refl _ := trivial
  le_trans _ _ := trivial
  left _ _ := True
  right _ _ := True
  left_mono _ h := h
  right_mono _ h := h

theorem Tenure.free_value {v v' : Expr} (h : v.Alike v') : Tenure.free.Value () v v' :=
  ⟨h, fun _ _ => trivial, fun _ _ => trivial⟩

theorem Tenure.free_env {env env' : Env} (h : env.Alike env') : Tenure.free.EnvValue () env env' :=
  ⟨h, fun _ _ => trivial, fun _ _ => trivial⟩

/-- The faults of values that are alike are equal up to cells. -/
theorem FaultLike.erase_eq {value : Expr → Expr → Prop} (hvalue : ∀ v v', value v v' → v.Alike v')
    {e e' : Fault} (h : FaultLike value e e') : e.erase = e'.erase := by
  cases h with
  | plain => rfl
  | typeMismatch op hl hr => rw [Fault.erase, Fault.erase, hvalue _ _ hl, hvalue _ _ hr]
  | invalidOperand op h => rw [Fault.erase, Fault.erase, hvalue _ _ h]
  | notCallable h => rw [Fault.erase, Fault.erase, hvalue _ _ h]
  | invalidCast target h => rw [Fault.erase, Fault.erase, hvalue _ _ h]

/-- A list literal and its value, whatever its cells. -/
theorem items_alike {xs xs' : List Expr} {env env' : Env} (hxs : List.Forall₂ Expr.Alike xs xs')
    (henv : env.Alike env') (cell cell' : Option Nat) :
    (LazyList.items xs env cell).Alike (.items xs' env' cell') := by
  show LazyList.items _ _ _ = LazyList.items _ _ _
  rw [eraseAll_of_alike hxs, henv]

/-- The evaluator without a memory on two machines. -/
def Bond.mirror : Bond Unit Unit where
  left := .cacheFree
  right := .cacheFree
  like := .alike .free
  Ample n g := ∀ i, g i = n
  Follows _ P x y := MirroredBy (P ()) x (y 0)
  ample_succ := Bond.ample_const
  follows_pure h := .pure h
  follows_bind hx hf := hx.bind fun a b hab => hf () a b trivial hab
  follows_fail h := .fail (h.erase_eq fun _ _ hv => hv.1)
  follows_stray _ _ _ hname := .fail (by rw [hname])
  follows_zero hample h := by
    rw [h 0 (hample 0)]
    exact fun m m' _ _ => .unknown m m'
  follows_check := .check
  follows_nested h := h.nested
  follows_newList := by
    intro w env env' xs xs' henv hxs
    have hxs : List.Forall₂ Expr.Alike xs xs' := hxs.imp fun _ _ h => h.2.1
    exact .newList fun cell cell' =>
      Tenure.free_value (congrArg Expr.list (items_alike hxs henv.1 cell cell'))
  follows_force := by
    intro w n g x x' xs xs' env env' cell cell' hample hl hx
    simp only [force_forgetful (S := .cacheFree) rfl]
    exact hx
  follows_display := by
    intro w n g v v' hample hv
    obtain rfl : g = fun _ => n := funext hample
    show MirroredBy _ (fueled (v.display? n)) (fueled (v'.display? n))
    rw [display_alike hv.1]
    exact .fueled _
  follows_perform := by
    intro w n g args args' entry hample h
    obtain rfl : g = fun _ => n := funext hample
    cases n with
    | zero => exact fun m m' _ _ => .unknown m m'
    | succ n => exact .pure (Tenure.free_value rfl)

section Mirrors

variable (n : Nat)

theorem mirror_eval {env env' : Env} {e e' : Expr} (henv : env.Alike env') (he : e.Alike e') :
    MirroredBy Expr.Alike (eval .cacheFree n env e) (eval .cacheFree n env' e') := by
  intro m m' hm hm'
  have h := (Bond.mirror.sound n (fun _ => n) fun _ => rfl).eval (w := ())
    ⟨Tenure.free_env henv, Tenure.free_value he⟩
  exact (h m m' hm hm').imp fun _ _ hv => hv.1

theorem mirror_apply {f f' a a' : Expr} (hf : f.Alike f') (ha : a.Alike a') :
    MirroredBy Expr.Alike (apply .cacheFree n f a) (apply .cacheFree n f' a') := by
  intro m m' hm hm'
  have h := (Bond.mirror.sound n (fun _ => n) fun _ => rfl).apply (w := ())
    (Tenure.free_value hf) (Tenure.free_value ha)
  exact (h m m' hm hm').imp fun _ _ hv => hv.1

/-- An element and the rest of its list, without cells. -/
def erasePulled : Option (Expr × LazyList) → Option (Expr × LazyList) :=
  Option.map fun p => (p.1.erase, p.2.erase)

theorem mirror_pull {l l' : LazyList} (hl : l.Alike l') :
    MirroredBy (fun p p' => erasePulled p = erasePulled p') (pull .cacheFree n l)
      (pull .cacheFree n l') := by
  intro m m' hm hm'
  have hlist : Bond.mirror.like.list () l l' := Tenure.free_value (congrArg Expr.list hl)
  have h := (Bond.mirror.sound n (fun _ => n) fun _ => rfl).pull hlist
  refine (h m m' hm hm').imp fun p p' hp => ?_
  cases hp with
  | none => rfl
  | some hp => exact congrArg some (Prod.ext hp.1.1 (Expr.list.inj hp.2.1))

end Mirrors

/-! ## 4. Answers of the evaluator -/

/-- The value of an expression in an environment. -/
def evalAnswer (n : Nat) (env : Env) (e : Expr) : Answer Expr :=
  .ofRun Expr.erase (eval .cacheFree n env e (.fresh ()))

/-- The value of a function at an argument. -/
def applyAnswer (n : Nat) (f a : Expr) : Answer Expr :=
  .ofRun Expr.erase (apply .cacheFree n f a (.fresh ()))

/-- Whether a predicate holds. -/
def testAnswer (n : Nat) (p a : Expr) : Answer Bool :=
  (applyAnswer n p a).bind fun v => .ofExcept v.asBool

/-- The first element of a list and the rest. -/
def pullAnswer (n : Nat) (l : LazyList) : Answer (Option (Expr × LazyList)) :=
  .ofRun erasePulled (pull .cacheFree n l (.fresh ()))

/-- Runs that end alike give the same answer. -/
theorem Mirrors.answer_eq {α β : Type} {keep : α → β} {r r' : Ended Unit α}
    (h : Mirrors (fun a b => keep a = keep b) r r') : Answer.ofRun keep r = .ofRun keep r' := by
  cases h with
  | ok _ _ hab => exact congrArg Answer.value hab
  | fault _ _ he => exact congrArg Answer.fault he
  | unknown => rfl

theorem evalAnswer_eq {n : Nat} {env env' : Env} {e e' : Expr} {m : Machine Unit} (hm : m.Plain)
    (henv : env.Alike env') (he : e.Alike e') :
    Answer.ofRun Expr.erase (eval .cacheFree n env e m) = evalAnswer n env' e' :=
  (mirror_eval n henv he m _ hm (Machine.fresh_plain ())).answer_eq

theorem applyAnswer_eq {n : Nat} {f f' a a' : Expr} {m : Machine Unit} (hm : m.Plain)
    (hf : f.Alike f') (ha : a.Alike a') :
    Answer.ofRun Expr.erase (apply .cacheFree n f a m) = applyAnswer n f' a' :=
  (mirror_apply n hf ha m _ hm (Machine.fresh_plain ())).answer_eq

theorem pullAnswer_eq {n : Nat} {l l' : LazyList} {m : Machine Unit} (hm : m.Plain)
    (hl : l.Alike l') :
    Answer.ofRun erasePulled (pull .cacheFree n l m) = pullAnswer n l' :=
  (mirror_pull n hl m _ hm (Machine.fresh_plain ())).answer_eq

theorem LazyList.alike_erase (l : LazyList) : l.Alike l.erase := l.erase_erase.symm

theorem pullAnswer_erase (n : Nat) (l : LazyList) : pullAnswer n l.erase = pullAnswer n l :=
  (pullAnswer_eq (Machine.fresh_plain ()) l.alike_erase).symm

theorem pullAnswer_alike (n : Nat) {l l' : LazyList} (h : l.Alike l') :
    pullAnswer n l = pullAnswer n l' := pullAnswer_eq (Machine.fresh_plain ()) h

/-! ## 5. Composed answers -/

section Composed

variable {α β γ δ : Type}

/-- A run goes on from an answer, if what follows gives the same answer on every plain machine. -/
theorem answer_bind {P : α → α → Prop} {x : Eval Unit α} {f : α → Eval Unit γ} {keep : α → β}
    {keep' : γ → δ} {g : β → Answer δ} {m : Machine Unit} (hm : m.Plain) (hx : MirroredBy P x x)
    (hf : ∀ a m, m.Plain → Answer.ofRun keep' (f a m) = g (keep a)) :
    Answer.ofRun keep' ((x >>= f) m) = (Answer.ofRun keep (x m)).bind g := by
  have hxx := hx m m hm hm
  rw [bind_run]
  generalize x m = r at hxx ⊢
  cases hxx with
  | ok hm => exact hf _ _ hm
  | fault => rfl
  | unknown => rfl

theorem answer_check {f : Unit → Eval Unit γ} {keep' : γ → δ} {m : Machine Unit} (hm : m.Plain) :
    Answer.ofRun keep' ((check >>= f) m) = .ofRun keep' (f () m) := by
  rw [bind_run, check_plain hm]
  rfl

end Composed

theorem asBool_answer (v : Expr) {α δ : Type} {f : Bool → Eval Unit α} {keep' : α → δ}
    {m : Machine Unit} :
    Answer.ofRun keep' ((lift v.asBool >>= f) m) =
      (Answer.ofExcept v.erase.asBool).bind fun b => .ofRun keep' (f b m) := by
  have h := (Likeness.alike .free).asBool_alike (w := ()) (Tenure.free_value v.alike_erase)
  revert h
  cases v.asBool with
  | ok b =>
    cases v.erase.asBool with
    | ok b' =>
      rintro rfl
      rfl
    | error e => exact False.elim
  | error e =>
    cases v.erase.asBool with
    | ok b' => exact False.elim
    | error e' =>
      intro h
      exact congrArg Answer.fault (h.erase_eq fun _ _ hv => hv.1)

section Pulling

variable (n : Nat)

@[simp] theorem pullAnswer_zero (l : LazyList) : pullAnswer 0 l = .unknown := rfl

theorem pullAnswer_nil (env : Env) (cell : Option Nat) :
    pullAnswer (n + 1) (.items [] env cell) = .value none := by
  rw [pullAnswer, pull_nil]
  rfl

theorem pullAnswer_items (x : Expr) (xs : List Expr) (env : Env) (cell : Option Nat) :
    pullAnswer (n + 1) (.items (x :: xs) env cell) =
      (evalAnswer n env x).map fun v => some (v, .items (eraseAll xs) env.erase none) := by
  rw [pullAnswer, pull_items, force_forgetful rfl]
  exact answer_bind (Machine.fresh_plain ()) (mirror_eval n rfl rfl) fun _ _ _ => rfl

theorem pullAnswer_progression (range : Progression) :
    pullAnswer (n + 1) (.progression range) = .value (range.head?.map fun k =>
      (.number k, (range.tail?.map .progression).getD .empty)) := by
  rw [pullAnswer, pull_progression]
  show Answer.value (erasePulled (range.head?.map _)) = _
  cases range.head? with
  | none => rfl
  | some k => cases range.tail? <;> rfl

theorem pullAnswer_prepend (head : Expr) (tail : LazyList) :
    pullAnswer (n + 1) (.prepend head tail) = .value (some (head.erase, tail.erase)) := by
  rw [pullAnswer, pull_prepend]
  rfl

theorem pullAnswer_concat (first second : LazyList) :
    pullAnswer (n + 1) (.concat first second) = (pullAnswer n first).bind fun
      | none => pullAnswer n second
      | some (x, rest) => .value (some (x, .concat rest second.erase)) := by
  rw [pullAnswer, pull_concat]
  refine answer_bind (Machine.fresh_plain ()) (mirror_pull n rfl) fun p m hm => ?_
  cases p with
  | none => exact pullAnswer_eq hm rfl
  | some p => rfl

theorem pullAnswer_mapped (function : Expr) (source : LazyList) :
    pullAnswer (n + 1) (.mapped function source) = (pullAnswer n source).bind fun
      | none => .value none
      | some (x, rest) => (applyAnswer n function x).map fun v =>
        some (v, .mapped function.erase rest) := by
  rw [pullAnswer, pull_mapped]
  refine answer_bind (Machine.fresh_plain ()) (mirror_pull n rfl) fun p m hm => ?_
  cases p with
  | none => rfl
  | some p =>
    have happly := applyAnswer_eq (n := n) hm (f := function) rfl p.1.alike_erase
    show _ = (applyAnswer n function p.1.erase).map _
    rw [← happly]
    exact answer_bind hm (mirror_apply n rfl rfl) fun _ _ _ => rfl

theorem pullAnswer_filtered (predicate : Expr) (source : LazyList) :
    pullAnswer (n + 1) (.filtered predicate source) = (pullAnswer n source).bind fun
      | none => .value none
      | some (x, rest) => (testAnswer n predicate x).bind fun
        | true => .value (some (x, .filtered predicate.erase rest))
        | false => pullAnswer n (.filtered predicate rest) := by
  rw [pullAnswer, pull_filtered]
  refine answer_bind (Machine.fresh_plain ()) (mirror_pull n rfl) fun p m hm => ?_
  cases p with
  | none => rfl
  | some p =>
    have happly := applyAnswer_eq (n := n) hm (f := predicate) rfl p.1.alike_erase
    refine (answer_check hm).trans ?_
    show _ = (testAnswer n predicate p.1.erase).bind _
    rw [testAnswer, ← happly, Answer.bind_assoc]
    refine answer_bind hm (mirror_apply n rfl rfl) fun v m hm => (asBool_answer v).trans ?_
    refine congrArg (Answer.bind _) (funext fun kept => ?_)
    cases kept with
    | true => rfl
    | false =>
      exact pullAnswer_eq hm (congrArg (LazyList.filtered predicate.erase) p.2.alike_erase)

theorem pullAnswer_dropped_zero (source : LazyList) :
    pullAnswer (n + 1) (.dropped 0 source) = pullAnswer n source := by
  rw [pullAnswer, pull_dropped_zero]
  rfl

theorem pullAnswer_dropped_succ (count : Nat) (source : LazyList) :
    pullAnswer (n + 1) (.dropped (count + 1) source) = (pullAnswer n source).bind fun
      | none => .value none
      | some (_, rest) => pullAnswer n (.dropped count rest) := by
  rw [pullAnswer, pull_dropped_succ]
  refine (answer_check (Machine.fresh_plain ())).trans ?_
  refine answer_bind (Machine.fresh_plain ()) (mirror_pull n rfl) fun p m hm => ?_
  cases p with
  | none => rfl
  | some p => exact pullAnswer_eq hm (congrArg (LazyList.dropped count) p.2.alike_erase)

end Pulling

/-! ## 6. More fuel -/

section More

variable {n n' : Nat} (h : n ≤ n')

/-- Answers of runs that only end otherwise when they had too little fuel. -/
theorem answer_below {α β : Type} {keep : α → β} {r r' : Ended Unit α}
    (h : (∀ m, r ≠ .error .outOfFuel m) → r' = r) :
    (Answer.ofRun keep r).Below (.ofRun keep r') := by
  match r, h with
  | .ok a m, h =>
    rw [h fun _ => by rintro ⟨⟩]
    exact .rfl
  | .error (.fault e) m, h =>
    rw [h fun _ => by rintro ⟨⟩]
    exact .rfl
  | .error .outOfFuel m, _ => exact .unknown

include h

theorem evalAnswer_more (env : Env) (e : Expr) : (evalAnswer n env e).Below (evalAnswer n' env e) :=
  answer_below (eval_more _ (Setting.builtins_steady _ _ _) h _)

theorem applyAnswer_more (f a : Expr) : (applyAnswer n f a).Below (applyAnswer n' f a) :=
  answer_below (apply_more _ (Setting.builtins_steady _ _ _) h _)

theorem testAnswer_more (p a : Expr) : (testAnswer n p a).Below (testAnswer n' p a) :=
  (applyAnswer_more h p a).bind fun _ => .rfl

theorem pullAnswer_more (l : LazyList) : (pullAnswer n l).Below (pullAnswer n' l) :=
  answer_below (pull_more _ (Setting.builtins_steady _ _ _) h _)

end More

end LazyExpr
