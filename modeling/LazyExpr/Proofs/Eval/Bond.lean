import LazyExpr.Proofs.Eval.Likeness
import LazyExpr.Proofs.Eval.Pull

/-!
# Evaluations that go the same way

Many properties of the evaluator compare two evaluations of the same program: with and without
remembered elements, with and without a deadline, with arguments found in two ways, with more fuel.
A *bond* is what such a comparison consists of: two settings, a likeness between what they work on,
and a judgement `Follows` that says what one evaluation tells about another.

The judgement compares an evaluation on the left with a family of evaluations on the right, one for
each index.  `Ample n g` says that `g` is a family of fuels that goes with the fuel `n` on the left.
A comparison in lockstep takes the constant family; one that may need more fuel on the right takes a
family that grows.

A bond has to obey one law for each thing an evaluation can do.  The evaluator then follows as a
whole:

* `Bond.sound` — **related programs, values and lists are evaluated, applied, pulled, materialized
  and displayed alike, whatever the bond.**
-/

namespace LazyExpr

open Eval

/-! ## 1. Evaluation, form by form -/

namespace Eval

variable {σ : Type} (S : Setting σ) (n : Nat) (env : Env)

/-- A progression whose end is still to be evaluated. -/
def rangeUpTo (first step : Number) : Option Expr → Eval σ Expr
  | none => pure (.list (.progression (.ofBounds first step none)))
  | some stop => do
    let v ← eval S n env stop
    let last ← lift v.asNumber
    pure (.list (.progression (.ofBounds first step (some last))))

/-- Text with one more fragment of an interpolated string. -/
def addFragment (text : String) : Fragment → Eval σ String
  | .text more => pure (text ++ more)
  | .embedded e => do
    let value ← eval S n env e
    let more ← displayText S n value
    pure (text ++ more)

/-- The value of an expression, with finite lists replaced by lists of their elements. -/
def materializeValue (e : Expr) : Eval σ Expr := do
  let value ← eval S n env e
  materialize S n value

/-- The value of an expression as source text. -/
def renderValue (e : Expr) : Eval σ String := do
  let value ← eval S n env e
  render S n value

/-- A form that is its own value is given back. -/
theorem eval_done {e : Expr} (h : e.isDone = true) :
    eval S (n + 1) env e = check >>= fun _ => nested S.depthLimit (pure e) := by
  cases e with
  | list l => cases l <;> first | rfl | cases h
  | number | bool | str | null | closure | applied => rfl
  | _ => cases h

theorem eval_range (start : Expr) (second stop : Option Expr) :
    eval S (n + 1) env (.range start second stop) = check >>= fun _ => nested S.depthLimit (
      eval S n env start >>= fun v => lift v.asNumber >>= fun first =>
        match second with
        | none => rangeUpTo S n env first (.integer 1) stop
        | some second => eval S n env second >>= fun v => lift v.asNumber >>= fun m =>
          match m.sub? first with
          | some step => rangeUpTo S n env first step stop
          | none => fail (.overflow "..")) := by
  simp only [eval, pure_bind, fail_bind]
  cases second <;> cases stop <;> rfl

theorem eval_interpolated (fragments : List Fragment) :
    eval S (n + 1) env (.interpolated fragments) = check >>= fun _ => nested S.depthLimit (
      fragments.foldlM (addFragment S n env) "" >>= fun text => pure (.str text)) := by
  rw [eval]
  rfl

/-- What is neither a function nor a section cannot be applied. -/
theorem apply_inert {f : Expr} (a : Expr) (h : f.isInert = true) :
    apply S (n + 1) f a = fail (.notCallable f) := by
  cases f <;> first | rfl | cases h

theorem supply_inert {f : Expr} (args : List Expr) (a : Expr) (h : f.isInert = true) :
    supply S (n + 1) f args a = fail (.notCallable f) := by
  cases f <;> first | rfl | cases h

theorem apply_atom {f : Expr} (a : Expr) (h : f.isAtom = true) :
    apply S (n + 1) f a = fail (.notCallable f) := by
  cases f <;> first | rfl | cases h

theorem supply_atom {f : Expr} (args : List Expr) (a : Expr) (h : f.isAtom = true) :
    supply S (n + 1) f args a = fail (.notCallable f) := by
  cases f <;> first | rfl | cases h

theorem callBuiltin_mismatch {b : Builtin} {args : List Expr} (h : args.length ≠ b.arity) :
    callBuiltin S (n + 1) b args = fail (.arityMismatch b.name b.arity args.length) := by
  match b, args with
  | .map, [] | .map, [_] | .map, _ :: _ :: _ :: _ => rfl
  | .filter, [] | .filter, [_] | .filter, _ :: _ :: _ :: _ => rfl
  | .take, [] | .take, [_] | .take, _ :: _ :: _ :: _ => rfl
  | .drop, [] | .drop, [_] | .drop, _ :: _ :: _ :: _ => rfl
  | .join, [] | .join, [_] | .join, _ :: _ :: _ :: _ => rfl
  | .sum, [] | .sum, _ :: _ :: _ => rfl
  | .length, [] | .length, _ :: _ :: _ => rfl
  | .head, [] | .head, _ :: _ :: _ => rfl
  | .tail, [] | .tail, _ :: _ :: _ => rfl
  | .map, [_, _] | .filter, [_, _] | .take, [_, _] | .drop, [_, _] | .join, [_, _] =>
    exact (h rfl).elim
  | .sum, [_] | .length, [_] | .head, [_] | .tail, [_] => exact (h rfl).elim

theorem materialize_not_list {v : Expr} (h : v.asList = .error (.invalidCast v .list)) :
    materialize S (n + 1) v = pure v := by
  cases v <;> first | rfl | cases h

theorem displayText_not_atom {v : Expr} (h : v.isAtom = false) :
    displayText S (n + 1) v = materialize S n v >>= fun u => fueled (S.write n u) := by
  cases v <;> first | rfl | cases h

end Eval

/-! ## 2. The laws -/

/-- Two evaluations to be compared. -/
structure Bond (σ τ : Type) where
  left : Setting σ
  right : Setting τ
  like : Likeness left.find right.find
  /-- Fuels on the right that go with a fuel on the left. -/
  Ample : Nat → (Nat → Nat) → Prop
  /-- What the evaluation on the left tells about those on the right. -/
  Follows : {α β : Type} → like.World → (like.World → α → β → Prop) → Eval σ α →
    (Nat → Eval τ β) → Prop
  ample_succ : ∀ {n g}, Ample (n + 1) g → ∃ h, Ample n h ∧ g = fun i => h i + 1
  follows_pure : ∀ {α β : Type} {w} {P : like.World → α → β → Prop} {a b}, P w a b →
    Follows w P (pure a) fun _ => pure b
  follows_bind : ∀ {α β γ δ : Type} {w} {P : like.World → α → β → Prop}
    {Q : like.World → γ → δ → Prop} {x : Eval σ α} {y : Nat → Eval τ β} {f : α → Eval σ γ}
    {g : Nat → β → Eval τ δ}, Follows w P x y →
    (∀ w' a b, like.le w w' → P w' a b → Follows w' Q (f a) fun i => g i b) →
    Follows w Q (x >>= f) fun i => y i >>= g i
  follows_fail : ∀ {α β : Type} {w} {P : like.World → α → β → Prop} {fault fault'},
    FaultLike (like.value w) fault fault' → Follows w P (fail fault) fun _ => fail fault'
  /-- A parameter that is bound on neither side. -/
  follows_stray : ∀ {α β : Type} {w env env' slot slot'} {P : like.World → α → β → Prop},
    like.code w env env' (.argument slot) (.argument slot') → left.find slot env = none →
    right.find slot' env' = none → slot.name = slot'.name →
    Follows w P (fail (.unboundArgument slot.name)) fun _ => fail (.unboundArgument slot'.name)
  /-- Expressions of which the likeness says that they are evaluated to the same. -/
  follows_other : ∀ {w n g env env' e e'}, like.other w env env' e e' → Ample n g →
    Follows w like.value (eval left (n + 1) env e) fun i => eval right (g i + 1) env' e' := by
      exact fun h _ => False.elim h
  follows_zero : ∀ {α β : Type} {w} {P : like.World → α → β → Prop} {g} {y : Nat → Eval τ β},
    Ample 0 g → (∀ i, g i = 0 → y i = outOfFuel) → Follows w P outOfFuel y
  follows_check : ∀ {w}, Follows w (fun _ _ _ => True) check fun _ => check
  follows_nested : ∀ {α β : Type} {w} {P : like.World → α → β → Prop} {x : Eval σ α}
    {y : Nat → Eval τ β}, Follows w P x y →
    Follows w P (nested left.depthLimit x) fun i => nested right.depthLimit (y i)
  follows_newList : ∀ {w env env' xs xs'}, like.env w env env' →
    List.Forall₂ (like.code w env env') xs xs' →
    Follows w like.value (newList xs env) fun _ => newList xs' env'
  follows_force : ∀ {w n g x x' xs xs' env env' cell cell'}, Ample n g →
    like.list w (.items (x :: xs) env cell) (.items (x' :: xs') env' cell') →
    Follows w like.value (eval left n env x) (fun i => eval right (g i) env' x') →
    Follows w like.value (force left cell (eval left n env x)) fun i =>
      force right cell' (eval right (g i) env' x')
  follows_display : ∀ {w n g v v'}, Ample n g → like.value w v v' →
    Follows w (fun _ text text' => text = text') (fueled (left.write n v)) fun i =>
      fueled (right.write (g i) v')
  follows_perform : ∀ {w n g args args'} (entry : Nat), Ample n g →
    List.Forall₂ (like.value w) args args' →
    Follows w like.value (perform left n (left.host entry args)) fun i =>
      perform right (g i) (right.host entry args')

namespace Bond

/-- The same fuel on both sides. -/
theorem ample_const {n : Nat} {g : Nat → Nat} (h : ∀ i, g i = n + 1) :
    ∃ k : Nat → Nat, (∀ i, k i = n) ∧ g = fun i => k i + 1 :=
  ⟨fun _ => n, fun _ => rfl, funext h⟩

variable {σ τ : Type} (B : Bond σ τ)

/-- What pulling gives on the two sides. -/
def Pulled (w : B.like.World) : Option (Expr × LazyList) → Option (Expr × LazyList) → Prop :=
  Option.Rel fun p p' => B.like.value w p.1 p'.1 ∧ B.like.list w p.2 p'.2

/-- The evaluator with fuel `n` on the left and the fuels `g` on the right does the same with what
is the same. -/
structure Sound (n : Nat) (g : Nat → Nat) : Prop where
  eval : ∀ {w env env' e e'}, B.like.code w env env' e e' →
    B.Follows w B.like.value (eval B.left n env e) fun i => eval B.right (g i) env' e'
  apply : ∀ {w f f' a a'}, B.like.value w f f' → B.like.value w a a' →
    B.Follows w B.like.value (apply B.left n f a) fun i => apply B.right (g i) f' a'
  supply : ∀ {w f f' args args' a a'}, B.like.value w f f' →
    List.Forall₂ (B.like.value w) args args' → B.like.value w a a' →
    B.Follows w B.like.value (supply B.left n f args a) fun i => supply B.right (g i) f' args' a'
  call : ∀ {w args args'} (code : Code), List.Forall₂ (B.like.value w) args args' →
    B.Follows w B.like.value (call B.left n code args) fun i => call B.right (g i) code args'
  callBuiltin : ∀ {w args args'} (b : Builtin), List.Forall₂ (B.like.value w) args args' →
    B.Follows w B.like.value (callBuiltin B.left n b args) fun i =>
      callBuiltin B.right (g i) b args'
  pull : ∀ {w l l'}, B.like.list w l l' →
    B.Follows w B.Pulled (pull B.left n l) fun i => pull B.right (g i) l'
  materialize : ∀ {w v v'}, B.like.value w v v' →
    B.Follows w B.like.value (materialize B.left n v) fun i => materialize B.right (g i) v'
  displayText : ∀ {w v v'}, B.like.value w v v' →
    B.Follows w (fun _ text text' => text = text') (displayText B.left n v) fun i =>
      displayText B.right (g i) v'

/-! ## 3. Derived laws -/

variable {B} {α β : Type} {w : B.like.World}

theorem follows_lift {P : B.like.World → α → β → Prop} {x : Except Fault α} {y : Except Fault β}
    (h : ResultLike (B.like.value w) (P w) x y) : B.Follows w P (lift x) fun _ => lift y := by
  match x, y, h with
  | .ok a, .ok b, h => exact B.follows_pure h
  | .error _, .error _, h => exact B.follows_fail h

theorem list_mono {w w' : B.like.World} (h : B.like.le w w') {l l' : LazyList}
    (hl : B.like.list w l l') : B.like.list w' l l' :=
  B.like.value_mono h hl

theorem values_mono {w w' : B.like.World} (h : B.like.le w w') {vs vs' : List Expr}
    (hv : List.Forall₂ (B.like.value w) vs vs') : List.Forall₂ (B.like.value w') vs vs' :=
  hv.imp fun _ _ => B.like.value_mono h

theorem codes_mono {w w' : B.like.World} (h : B.like.le w w') {env env' : Env} {e e' : Option Expr}
    (he : Option.Rel (B.like.code w env env') e e') :
    Option.Rel (B.like.code w' env env') e e' := by
  cases he with
  | none => exact .none
  | some he => exact .some (B.like.code_mono h he)

theorem fragment_mono {w w' : B.like.World} (h : B.like.le w w') {env env' : Env}
    {f f' : Fragment} (hf : FragmentLike (B.like.code w env env') f f') :
    FragmentLike (B.like.code w' env env') f f' := by
  cases hf with
  | text more => exact .text more
  | embedded he => exact .embedded (B.like.code_mono h he)

/-- Values in a list of their own. -/
theorem follows_newList_top {vs vs' : List Expr} (h : List.Forall₂ (B.like.value w) vs vs') :
    B.Follows w B.like.value (newList vs .top) fun _ => newList vs' .top :=
  B.follows_newList (B.like.env_top w) (h.imp fun _ _ => B.like.code_top)

/-- What happens at each evaluation before its form matters. -/
theorem follows_enter {P : B.like.World → α → β → Prop} {x : Eval σ α} {y : Nat → Eval τ β}
    (h : ∀ w', B.like.le w w' → B.Follows w' P x y) :
    B.Follows w P (check >>= fun _ => nested B.left.depthLimit x) fun i =>
      check >>= fun _ => nested B.right.depthLimit (y i) := by
  refine B.follows_bind B.follows_check fun w' _ _ hw _ => ?_
  exact B.follows_nested (h w' hw)

theorem follows_asList {P : B.like.World → α → β → Prop} {v v' : Expr} {k : LazyList → Eval σ α}
    {k' : Nat → LazyList → Eval τ β} (hv : B.like.value w v v')
    (hk : ∀ w' l l', B.like.le w w' → B.like.list w' l l' → B.Follows w' P (k l) fun i => k' i l') :
    B.Follows w P (lift v.asList >>= k) fun i => lift v'.asList >>= k' i := by
  refine B.follows_bind (P := B.like.list) (follows_lift (B.like.asList_alike hv)) ?_
  intro w₁ l l' h₁ hl
  exact hk w₁ l l' h₁ hl

theorem follows_asFiniteList {P : B.like.World → α → β → Prop} (function : String) {v v' : Expr}
    {k : LazyList → Eval σ α} {k' : Nat → LazyList → Eval τ β} (hv : B.like.value w v v')
    (hk : ∀ w' l l', B.like.le w w' → B.like.list w' l l' → B.Follows w' P (k l) fun i => k' i l') :
    B.Follows w P (lift (v.asFiniteList function) >>= k) fun i =>
      lift (v'.asFiniteList function) >>= k' i := by
  refine B.follows_bind (P := B.like.list) (follows_lift (B.like.asFiniteList_alike hv function)) ?_
  intro w₁ l l' h₁ hl
  exact hk w₁ l l' h₁ hl

theorem follows_asInteger {P : B.like.World → α → β → Prop} {v v' : Expr}
    {k : Int64 → Eval σ α} {k' : Nat → Int64 → Eval τ β} (hv : B.like.value w v v')
    (hk : ∀ w' m, B.like.le w w' → B.Follows w' P (k m) fun i => k' i m) :
    B.Follows w P (lift v.asInteger >>= k) fun i => lift v'.asInteger >>= k' i := by
  refine B.follows_bind (P := fun _ a b => a = b) (follows_lift (B.like.asInteger_alike hv)) ?_
  rintro w₁ m _ h₁ rfl
  exact hk w₁ m h₁

/-! ## 4. Loops -/

section Loops

variable {n : Nat} {g : Nat → Nat} (ih : B.Sound n g)

include ih

theorem follows_foldItems {P : B.like.World → α → β → Prop}
    (hmono : ∀ w w' a b, B.like.le w w' → P w a b → P w' a b)
    {f : α → Expr → Eval σ α} {f' : Nat → β → Expr → Eval τ β}
    (hf : ∀ w a b x x', P w a b → B.like.value w x x' →
      B.Follows w P (f a x) fun i => f' i b x') :
    ∀ {k : Nat} {h : Nat → Nat}, B.Ample k h → ∀ {w a b l l'}, P w a b → B.like.list w l l' →
      B.Follows w P (foldItems (advance B.left n) f k a l) fun i =>
        foldItems (advance B.right (g i)) (f' i) (h i) b l'
  | 0, h, hample, _, _, _, _, _, _, _ =>
    B.follows_zero hample fun i hi => by rw [hi]; rfl
  | k + 1, _, hample, w, a, b, l, l', ha, hl => by
    obtain ⟨h, hk, rfl⟩ := B.ample_succ hample
    simp only [foldItems_succ]
    refine B.follows_bind B.follows_check fun w₁ _ _ h₁ _ => ?_
    refine B.follows_bind (ih.pull (list_mono h₁ hl)) fun w₂ _ _ h₂ hp => ?_
    have ha₂ := hmono w w₂ a b (B.like.le_trans h₁ h₂) ha
    cases hp with
    | none => exact B.follows_pure ha₂
    | some hp =>
      refine B.follows_bind (hf w₂ a b _ _ ha₂ hp.1) fun w₃ a b h₃ hab => ?_
      exact follows_foldItems hmono hf hk hab (list_mono h₃ hp.2)

theorem follows_takeItems :
    ∀ {count : Nat} {w taken taken' l l'}, List.Forall₂ (B.like.value w) taken taken' →
      B.like.list w l l' →
      B.Follows w (fun w => List.Forall₂ (B.like.value w))
        (takeItems (advance B.left n) count taken l) fun i =>
          takeItems (advance B.right (g i)) count taken' l'
  | 0, _, _, _, _, _, ht, _ => B.follows_pure (List.forall₂_reverse_iff.2 ht)
  | count + 1, w, taken, taken', l, l', ht, hl => by
    simp only [takeItems_succ]
    refine B.follows_bind B.follows_check fun w₁ _ _ h₁ _ => ?_
    refine B.follows_bind (ih.pull (list_mono h₁ hl)) fun w₂ _ _ h₂ hp => ?_
    have ht₂ := values_mono (B.like.le_trans h₁ h₂) ht
    cases hp with
    | none => exact B.follows_pure (List.forall₂_reverse_iff.2 ht₂)
    | some hp => exact follows_takeItems (.cons hp.1 ht₂) hp.2

theorem follows_firstItem (function : String) {l l' : LazyList} (hl : B.like.list w l l') :
    B.Follows w B.like.value (firstItem (advance B.left n) function l) fun i =>
      firstItem (advance B.right (g i)) function l' := by
  simp only [firstItem_eq]
  refine B.follows_bind B.follows_check fun w₁ _ _ h₁ _ => ?_
  refine B.follows_bind (ih.pull (list_mono h₁ hl)) fun w₂ _ _ h₂ hp => ?_
  cases hp with
  | none => exact B.follows_fail (.plain rfl)
  | some hp => exact B.follows_pure hp.1

end Loops

/-! ## 5. Evaluation, one form at a time -/

section Steps

variable {n : Nat} {g : Nat → Nat} (ih : B.Sound n g)

include ih

theorem follows_number {P : B.like.World → α → β → Prop} {env env' : Env} {e e' : Expr}
    {k : Number → Eval σ α} {k' : Nat → Number → Eval τ β} (h : B.like.code w env env' e e')
    (hk : ∀ w' n, B.like.le w w' → B.Follows w' P (k n) fun i => k' i n) :
    B.Follows w P (eval B.left n env e >>= fun v => lift v.asNumber >>= k) fun i =>
      eval B.right (g i) env' e' >>= fun v => lift v.asNumber >>= k' i := by
  refine B.follows_bind (ih.eval h) fun w₁ v v' h₁ hv => ?_
  refine B.follows_bind (P := fun _ a b => a = b) (follows_lift (B.like.asNumber_alike hv)) ?_
  rintro w₂ m _ h₂ rfl
  exact hk w₂ m (B.like.le_trans h₁ h₂)

theorem follows_bool {P : B.like.World → α → β → Prop} {env env' : Env} {e e' : Expr}
    {k : Bool → Eval σ α} {k' : Nat → Bool → Eval τ β} (h : B.like.code w env env' e e')
    (hk : ∀ w' b, B.like.le w w' → B.Follows w' P (k b) fun i => k' i b) :
    B.Follows w P (eval B.left n env e >>= fun v => lift v.asBool >>= k) fun i =>
      eval B.right (g i) env' e' >>= fun v => lift v.asBool >>= k' i := by
  refine B.follows_bind (ih.eval h) fun w₁ v v' h₁ hv => ?_
  refine B.follows_bind (P := fun _ a b => a = b) (follows_lift (B.like.asBool_alike hv)) ?_
  rintro w₂ b _ h₂ rfl
  exact hk w₂ b (B.like.le_trans h₁ h₂)

theorem follows_rangeUpTo {env env' : Env} (first step : Number) {stop stop' : Option Expr}
    (hstop : Option.Rel (B.like.code w env env') stop stop') :
    B.Follows w B.like.value (rangeUpTo B.left n env first step stop) fun i =>
      rangeUpTo B.right (g i) env' first step stop' := by
  cases hstop with
  | none => exact B.follows_pure (B.like.value_built (.progression _))
  | some he =>
    refine follows_number ih he fun w₁ last h₁ => ?_
    exact B.follows_pure (B.like.value_built (.progression _))

theorem follows_range {env env' : Env} {start start' : Expr}
    {second second' stop stop' : Option Expr} (hstart : B.like.code w env env' start start')
    (hsecond : Option.Rel (B.like.code w env env') second second')
    (hstop : Option.Rel (B.like.code w env env') stop stop') :
    B.Follows w B.like.value (eval B.left (n + 1) env (.range start second stop)) fun i =>
      eval B.right (g i + 1) env' (.range start' second' stop') := by
  simp only [eval_range]
  refine follows_enter fun w₁ h₁ => ?_
  refine follows_number ih (B.like.code_mono h₁ hstart) fun w₂ first h₂ => ?_
  have h₂ := B.like.le_trans h₁ h₂
  cases hsecond with
  | none => exact follows_rangeUpTo ih first _ (codes_mono h₂ hstop)
  | some he =>
    refine follows_number ih (B.like.code_mono h₂ he) fun w₃ m h₃ => ?_
    cases m.sub? first with
    | none => exact B.follows_fail (.plain rfl)
    | some step => exact follows_rangeUpTo ih first step (codes_mono (B.like.le_trans h₂ h₃) hstop)

theorem follows_binary (op : BinaryOp) {env env' : Env} {l l' r r' : Expr}
    (hl : B.like.code w env env' l l') (hr : B.like.code w env env' r r') :
    B.Follows w B.like.value (eval B.left (n + 1) env (.binary op l r)) fun i =>
      eval B.right (g i + 1) env' (.binary op l' r') := by
  simp only [Eval.eval]
  refine follows_enter fun w₁ h₁ => ?_
  split
  · refine follows_bool ih (B.like.code_mono h₁ hl) fun w₂ a h₂ => ?_
    split
    · exact B.follows_pure (B.like.bool_alike w₂ _)
    · refine follows_bool ih (B.like.code_mono (B.like.le_trans h₁ h₂) hr) fun w₃ b h₃ => ?_
      exact B.follows_pure (B.like.bool_alike w₃ b)
  · refine B.follows_bind (ih.eval (B.like.code_mono h₁ hl)) fun w₂ a a' h₂ ha => ?_
    have hr₂ := B.like.code_mono (B.like.le_trans h₁ h₂) hr
    refine B.follows_bind (ih.eval hr₂) fun w₃ b b' h₃ hb => ?_
    exact follows_lift (B.like.onValues_alike op (B.like.value_mono h₃ ha) hb)

theorem follows_fragments {env env' : Env} :
    ∀ {fs fs' : List Fragment} {w : B.like.World},
      List.Forall₂ (FragmentLike (B.like.code w env env')) fs fs' → ∀ text,
      B.Follows w (fun _ a b => a = b) (fs.foldlM (addFragment B.left n env) text) fun i =>
        fs'.foldlM (addFragment B.right (g i) env') text
  | [], [], _, .nil, _ => B.follows_pure rfl
  | f :: fs, f' :: fs', w, .cons hf hfs, text => by
    simp only [List.foldlM_cons]
    refine B.follows_bind (P := fun _ a b => a = b) ?_ ?_
    · cases hf with
      | text more => exact B.follows_pure rfl
      | embedded he =>
        refine B.follows_bind (ih.eval he) fun w₁ v v' h₁ hv => ?_
        refine B.follows_bind (ih.displayText hv) fun w₂ more more' h₂ hm => ?_
        exact B.follows_pure (hm ▸ rfl)
    · rintro w₁ text _ h₁ rfl
      exact follows_fragments (hfs.imp fun _ _ => fragment_mono h₁) text

theorem follows_eval_succ {env env' : Env} {e e' : Expr} (hample : B.Ample n g)
    (h : B.like.code w env env' e e') :
    B.Follows w B.like.value (eval B.left (n + 1) env e) fun i =>
      eval B.right (g i + 1) env' e' := by
  cases B.like.code_layer h with
  | done hd hd' hv =>
    simp only [eval_done _ _ _ hd, eval_done _ _ _ hd']
    exact follows_enter fun w₁ h₁ => B.follows_pure (B.like.value_mono h₁ hv)
  | function f =>
    simp only [Eval.eval]
    refine follows_enter fun w₁ h₁ => ?_
    split
    · exact ih.call f.code .nil
    · exact B.follows_pure (B.like.value_built (.function f))
  | literal cell cell' henv hxs =>
    simp only [Eval.eval]
    refine follows_enter fun w₁ h₁ => ?_
    exact B.follows_newList (B.like.env_mono h₁ henv) (hxs.imp fun _ _ => B.like.code_mono h₁)
  | range hstart hsecond hstop => exact follows_range ih hstart hsecond hstop
  | call hf ha =>
    simp only [Eval.eval]
    refine follows_enter fun w₁ h₁ => ?_
    refine B.follows_bind (ih.eval (B.like.code_mono h₁ hf)) fun w₂ f f' h₂ hf => ?_
    have ha₂ := B.like.code_mono (B.like.le_trans h₁ h₂) ha
    refine B.follows_bind (ih.eval ha₂) fun w₃ a a' h₃ ha => ?_
    exact ih.apply (B.like.value_mono h₃ hf) ha
  | lambda hv =>
    simp only [Eval.eval]
    exact follows_enter fun w₁ h₁ => B.follows_pure (B.like.value_mono h₁ hv)
  | bound hl hr hv =>
    simp only [Eval.eval, hl, hr]
    exact follows_enter fun w₁ h₁ => B.follows_pure (B.like.value_mono h₁ hv)
  | stray hl hr hname =>
    simp only [Eval.eval, hl, hr]
    exact follows_enter fun w₁ h₁ => B.follows_stray (B.like.code_mono h₁ h) hl hr hname
  | unary op he =>
    simp only [Eval.eval]
    refine follows_enter fun w₁ h₁ => ?_
    refine B.follows_bind (ih.eval (B.like.code_mono h₁ he)) fun w₂ v v' h₂ hv => ?_
    exact follows_lift (B.like.onValue_alike op hv)
  | binary op hl hr => exact follows_binary ih op hl hr
  | leftSection op he =>
    simp only [Eval.eval]
    refine follows_enter fun w₁ h₁ => ?_
    refine B.follows_bind (ih.eval (B.like.code_mono h₁ he)) fun w₂ v v' h₂ hv => ?_
    exact B.follows_pure (B.like.value_built (.leftSection op hv))
  | rightSection op he =>
    simp only [Eval.eval]
    refine follows_enter fun w₁ h₁ => ?_
    refine B.follows_bind (ih.eval (B.like.code_mono h₁ he)) fun w₂ v v' h₂ hv => ?_
    exact B.follows_pure (B.like.value_built (.rightSection op hv))
  | conditional hc hy hn =>
    simp only [Eval.eval]
    refine follows_enter fun w₁ h₁ => ?_
    refine follows_bool ih (B.like.code_mono h₁ hc) fun w₂ b h₂ => ?_
    have h₂ := B.like.le_trans h₁ h₂
    cases b with
    | true => exact ih.eval (B.like.code_mono h₂ hy)
    | false => exact ih.eval (B.like.code_mono h₂ hn)
  | interpolated hfs =>
    simp only [eval_interpolated]
    refine follows_enter fun w₁ h₁ => ?_
    refine B.follows_bind (follows_fragments ih (hfs.imp fun _ _ => fragment_mono h₁) "") ?_
    rintro w₂ text _ h₂ rfl
    exact B.follows_pure (B.like.value_built (.atom rfl))
  | other h => exact B.follows_other h hample

/-! ## 6. Application -/

theorem follows_supply_succ {f f' a a' : Expr} {args args' : List Expr} (hf : B.like.value w f f')
    (hargs : List.Forall₂ (B.like.value w) args args') (ha : B.like.value w a a') :
    B.Follows w B.like.value (supply B.left (n + 1) f args a) fun i =>
      supply B.right (g i + 1) f' args' a' := by
  have hall : List.Forall₂ (B.like.value w) (args ++ [a]) (args' ++ [a']) :=
    List.rel_append hargs (.cons ha .nil)
  have hlen := hall.length_eq
  cases B.like.value_seen hf with
  | built hb =>
    cases hb with
    | function f =>
      simp only [Eval.supply, ← hlen]
      split
      · exact B.follows_pure (B.like.value_built (.applied hf hall))
      · exact ih.call f.code hall
    | atom hatom =>
      simp only [supply_atom _ _ _ _ hatom]
      exact B.follows_fail (.notCallable hf)
    | _ => exact B.follows_fail (.notCallable hf)
  | closure hps hbody =>
    simp only [Eval.supply, ← hlen, ← hps]
    split
    · exact B.follows_pure (B.like.value_built (.applied hf hall))
    · exact ih.eval (hbody _ _ hall (by omega))
  | inert hi hi' =>
    simp only [supply_inert _ _ _ _ hi, supply_inert _ _ _ _ hi']
    exact B.follows_fail (.notCallable hf)
  | _ => exact B.follows_fail (.notCallable hf)

theorem follows_apply_succ {f f' a a' : Expr} (hf : B.like.value w f f')
    (ha : B.like.value w a a') :
    B.Follows w B.like.value (apply B.left (n + 1) f a) fun i => apply B.right (g i + 1) f' a' := by
  cases B.like.value_seen hf with
  | built hb =>
    cases hb with
    | function f => exact ih.supply hf .nil ha
    | applied ht hargs => exact ih.supply ht hargs ha
    | leftSection op hl => exact follows_lift (B.like.onValues_alike op hl ha)
    | rightSection op hr => exact follows_lift (B.like.onValues_alike op ha hr)
    | atom hatom =>
      simp only [apply_atom _ _ _ hatom]
      exact B.follows_fail (.notCallable hf)
    | _ => exact B.follows_fail (.notCallable hf)
  | closure => exact ih.supply hf .nil ha
  | inert hi hi' =>
    simp only [apply_inert _ _ _ hi, apply_inert _ _ _ hi']
    exact B.follows_fail (.notCallable hf)
  | _ => exact B.follows_fail (.notCallable hf)

/-! ## 7. Built-in functions -/

theorem follows_sum {v v' : Expr} (hample : B.Ample n g) (hv : B.like.value w v v') :
    B.Follows w B.like.value (callBuiltin B.left (n + 1) .sum [v]) fun i =>
      callBuiltin B.right (g i + 1) .sum [v'] := by
  refine follows_asFiniteList "sum" hv fun w₁ l l' h₁ hl => ?_
  refine B.follows_bind (follows_foldItems ih (P := fun _ a b => a = b) ?_ ?_ hample rfl hl) ?_
  · exact fun _ _ _ _ _ h => h
  · rintro w₂ a _ x x' rfl hx
    refine B.follows_bind (P := fun _ a b => a = b) (follows_lift (B.like.asNumber_alike hx)) ?_
    rintro w₃ m _ h₃ rfl
    cases a.add? m.toDecimal with
    | some total => exact B.follows_pure rfl
    | none => exact B.follows_fail (.plain rfl)
  · rintro w₂ total _ h₂ rfl
    exact B.follows_pure (B.like.value_built (.atom rfl))

theorem follows_length {v v' : Expr} (hample : B.Ample n g) (hv : B.like.value w v v') :
    B.Follows w B.like.value (callBuiltin B.left (n + 1) .length [v]) fun i =>
      callBuiltin B.right (g i + 1) .length [v'] := by
  refine follows_asFiniteList "length" hv fun w₁ l l' h₁ hl => ?_
  refine B.follows_bind (follows_foldItems ih (P := fun _ a b => a = b) ?_ ?_ hample rfl hl) ?_
  · exact fun _ _ _ _ _ h => h
  · rintro w₂ a _ x x' rfl hx
    exact B.follows_pure rfl
  · rintro w₂ count _ h₂ rfl
    exact B.follows_pure (B.like.value_built (.atom rfl))

theorem follows_join {s s' v v' : Expr} (hample : B.Ample n g) (hs : B.like.value w s s')
    (hv : B.like.value w v v') :
    B.Follows w B.like.value (callBuiltin B.left (n + 1) .join [s, v]) fun i =>
      callBuiltin B.right (g i + 1) .join [s', v'] := by
  refine B.follows_bind (P := fun _ a b => a = b) (follows_lift (B.like.asString_alike hs)) ?_
  rintro w₁ separator _ h₁ rfl
  refine follows_asFiniteList "join" (B.like.value_mono h₁ hv) fun w₂ l l' h₂ hl => ?_
  refine B.follows_bind (follows_foldItems ih (P := fun _ a b => a = b) ?_ ?_ hample rfl hl) ?_
  · exact fun _ _ _ _ _ h => h
  · rintro w₃ parts _ x x' rfl hx
    refine B.follows_bind (ih.displayText hx) ?_
    rintro w₄ text _ h₄ rfl
    exact B.follows_pure rfl
  · rintro w₃ parts _ h₃ rfl
    exact B.follows_pure (B.like.value_built (.atom rfl))

theorem follows_take {c c' v v' : Expr} (hc : B.like.value w c c') (hv : B.like.value w v v') :
    B.Follows w B.like.value (callBuiltin B.left (n + 1) .take [c, v]) fun i =>
      callBuiltin B.right (g i + 1) .take [c', v'] := by
  refine follows_asInteger hc fun w₁ count h₁ => ?_
  refine follows_asList (B.like.value_mono h₁ hv) fun w₂ l l' h₂ hl => ?_
  refine B.follows_bind (follows_takeItems ih .nil hl) fun w₃ taken taken' h₃ htaken => ?_
  exact follows_newList_top htaken

theorem follows_callBuiltin_succ (b : Builtin) {args args' : List Expr} (hample : B.Ample n g)
    (hargs : List.Forall₂ (B.like.value w) args args') :
    B.Follows w B.like.value (callBuiltin B.left (n + 1) b args) fun i =>
      callBuiltin B.right (g i + 1) b args' := by
  by_cases hlen : args.length = b.arity
  · match b, args, args', hargs, hlen with
    | .map, [_, _], [_, _], .cons hf (.cons hl .nil), _ =>
      exact follows_asList hl fun w₁ l l' h₁ hl =>
        B.follows_pure (B.like.value_built (.mapped (B.like.value_mono h₁ hf) hl))
    | .filter, [_, _], [_, _], .cons hp (.cons hl .nil), _ =>
      exact follows_asList hl fun w₁ l l' h₁ hl =>
        B.follows_pure (B.like.value_built (.filtered (B.like.value_mono h₁ hp) hl))
    | .sum, [_], [_], .cons hl .nil, _ => exact follows_sum ih hample hl
    | .length, [_], [_], .cons hl .nil, _ => exact follows_length ih hample hl
    | .take, [_, _], [_, _], .cons hn (.cons hl .nil), _ => exact follows_take ih hn hl
    | .drop, [_, _], [_, _], .cons hn (.cons hl .nil), _ =>
      exact follows_asInteger hn fun w₁ count h₁ =>
        follows_asList (B.like.value_mono h₁ hl) fun w₂ l l' h₂ hl =>
          B.follows_pure (B.like.value_built (.dropped _ hl))
    | .head, [_], [_], .cons hl .nil, _ =>
      exact follows_asList hl fun w₁ l l' h₁ hl => follows_firstItem ih "head" hl
    | .tail, [_], [_], .cons hl .nil, _ =>
      exact follows_asList hl fun w₁ l l' h₁ hl =>
        B.follows_bind (follows_firstItem ih "tail" hl) fun w₂ _ _ h₂ _ =>
          B.follows_pure (B.like.value_built (.dropped 1 (list_mono h₂ hl)))
    | .join, [_, _], [_, _], .cons hs (.cons hl .nil), _ => exact follows_join ih hample hs hl
  · have hlen' : args'.length ≠ b.arity := by rwa [← hargs.length_eq]
    simp only [callBuiltin_mismatch _ _ hlen, callBuiltin_mismatch _ _ hlen', ← hargs.length_eq]
    exact B.follows_fail (.plain rfl)

theorem follows_call_succ (code : Code) {args args' : List Expr} (hample : B.Ample n g)
    (hargs : List.Forall₂ (B.like.value w) args args') :
    B.Follows w B.like.value (call B.left (n + 1) code args) fun i =>
      call B.right (g i + 1) code args' := by
  cases code with
  | builtin b => exact ih.callBuiltin b hargs
  | foreign entry => exact B.follows_perform entry hample hargs

/-! ## 8. Lists and texts -/

theorem follows_pull_succ {l l' : LazyList} (hample : B.Ample n g) (h : B.like.list w l l') :
    B.Follows w B.Pulled (pull B.left (n + 1) l) fun i => pull B.right (g i + 1) l' := by
  cases B.like.list_layer h with
  | nil env env' cell cell' =>
    simp only [pull_nil]
    exact B.follows_pure .none
  | cons hx hxs =>
    simp only [pull_items]
    refine B.follows_bind (B.follows_force hample h (ih.eval hx)) fun w₁ v v' h₁ hv => ?_
    exact B.follows_pure (.some ⟨hv, list_mono h₁ hxs⟩)
  | progression range =>
    simp only [pull_progression]
    refine B.follows_pure ?_
    cases range.head? with
    | none => exact .none
    | some m =>
      refine .some ⟨B.like.value_built (.atom rfl), ?_⟩
      cases range.tail? with
      | none => exact B.like.value_built .empty
      | some tail => exact B.like.value_built (.progression tail)
  | prepend hh ht =>
    simp only [pull_prepend]
    exact B.follows_pure (.some ⟨hh, ht⟩)
  | concat ha hb =>
    simp only [pull_concat]
    refine B.follows_bind (ih.pull ha) fun w₁ p p' h₁ hp => ?_
    cases hp with
    | none => exact ih.pull (list_mono h₁ hb)
    | some hp =>
      have hb₁ : B.like.list w₁ _ _ := list_mono h₁ hb
      exact B.follows_pure (.some ⟨hp.1, B.like.value_built (.concat hp.2 hb₁)⟩)
  | mapped hf hs =>
    simp only [pull_mapped]
    refine B.follows_bind (ih.pull hs) fun w₁ p p' h₁ hp => ?_
    cases hp with
    | none => exact B.follows_pure .none
    | some hp =>
      have hf₁ := B.like.value_mono h₁ hf
      refine B.follows_bind (ih.apply hf₁ hp.1) fun w₂ v v' h₂ hv => ?_
      refine B.follows_pure (.some ⟨hv, B.like.value_built (.mapped ?_ (list_mono h₂ hp.2))⟩)
      exact B.like.value_mono h₂ hf₁
  | filtered hf hs =>
    simp only [pull_filtered]
    refine B.follows_bind (ih.pull hs) fun w₁ p p' h₁ hp => ?_
    cases hp with
    | none => exact B.follows_pure .none
    | some hp =>
      have hf₁ := B.like.value_mono h₁ hf
      refine B.follows_bind B.follows_check fun w₂ _ _ h₂ _ => ?_
      have hf₂ := B.like.value_mono h₂ hf₁
      have hx₂ := B.like.value_mono h₂ hp.1
      refine B.follows_bind (ih.apply hf₂ hx₂) fun w₃ v v' h₃ hv => ?_
      refine B.follows_bind (P := fun _ a b => a = b) (follows_lift (B.like.asBool_alike hv)) ?_
      rintro w₄ kept _ h₄ rfl
      have h₄ := B.like.le_trans h₃ h₄
      have hrest := B.like.value_built
        (.filtered (B.like.value_mono h₄ hf₂) (list_mono (B.like.le_trans h₂ h₄) hp.2))
      cases kept with
      | true => exact B.follows_pure (.some ⟨B.like.value_mono h₄ hx₂, hrest⟩)
      | false => exact ih.pull hrest
  | dropped count hs =>
    cases count with
    | zero =>
      simp only [pull_dropped_zero]
      exact ih.pull hs
    | succ count =>
      simp only [pull_dropped_succ]
      refine B.follows_bind B.follows_check fun w₁ _ _ h₁ _ => ?_
      refine B.follows_bind (ih.pull (list_mono h₁ hs)) fun w₂ p p' h₂ hp => ?_
      cases hp with
      | none => exact B.follows_pure .none
      | some hp => exact ih.pull (B.like.value_built (.dropped count hp.2))

theorem follows_materialize_succ {v v' : Expr} (hample : B.Ample n g) (h : B.like.value w v v') :
    B.Follows w B.like.value (materialize B.left (n + 1) v) fun i =>
      materialize B.right (g i + 1) v' := by
  rcases B.like.list_or h with ⟨l, l', rfl, rfl, hl⟩ | ⟨hv, hv'⟩
  · simp only [Eval.materialize, B.like.isInfinite_alike l l' hl]
    split
    · exact B.follows_pure h
    · refine B.follows_bind (P := fun w => List.Forall₂ (B.like.value w)) ?_ ?_
      · refine follows_foldItems ih
          (P := fun w => List.Forall₂ (B.like.value w)) ?_ ?_ hample .nil hl
        · exact fun _ _ _ _ h hvs => values_mono h hvs
        intro w₁ vs vs' x x' hvs hx
        refine B.follows_bind (ih.materialize hx) fun w₂ u u' h₂ hu => ?_
        exact B.follows_pure (.cons hu (values_mono h₂ hvs))
      · intro w₁ vs vs' h₁ hvs
        exact follows_newList_top (List.forall₂_reverse_iff.2 hvs)
  · simp only [materialize_not_list _ _ hv, materialize_not_list _ _ hv']
    exact B.follows_pure h

theorem follows_displayText_succ {v v' : Expr} (hample : B.Ample n g) (h : B.like.value w v v') :
    B.Follows w (fun _ text text' => text = text') (displayText B.left (n + 1) v) fun i =>
      displayText B.right (g i + 1) v' := by
  have written : B.Follows w (fun _ text text' => text = text')
      (materialize B.left n v >>= fun u => fueled (B.left.write n u))
      fun i => materialize B.right (g i) v' >>= fun u => fueled (B.right.write (g i) u) := by
    refine B.follows_bind (ih.materialize h) fun w₁ u u' h₁ hu => ?_
    exact B.follows_display hample hu
  rcases B.like.atom_or h with ⟨rfl, -⟩ | ⟨hv, hv'⟩
  · cases v with
    | str text => exact B.follows_pure rfl
    | null => exact B.follows_pure rfl
    | _ => exact written
  · simp only [displayText_not_atom _ _ hv, displayText_not_atom _ _ hv']
    exact written

end Steps

/-! ## 9. The evaluator as a whole -/

/-- **The two evaluators do the same with what is the same**, at every fuel and with every family of
fuels that goes with it. -/
theorem sound : ∀ (n : Nat) (g : Nat → Nat), B.Ample n g → B.Sound n g
  | 0, g, h => by
    constructor <;> intros <;> refine B.follows_zero h fun i hi => ?_ <;> rw [hi] <;> rfl
  | n + 1, g, h => by
    obtain ⟨g, hample, rfl⟩ := B.ample_succ h
    have ih := sound n g hample
    constructor
    case eval => exact follows_eval_succ ih hample
    case apply => exact follows_apply_succ ih
    case supply => exact follows_supply_succ ih
    case call => exact fun code => follows_call_succ ih code hample
    case callBuiltin => exact fun b => follows_callBuiltin_succ ih b hample
    case pull => exact follows_pull_succ ih hample
    case materialize => exact follows_materialize_succ ih hample
    case displayText => exact follows_displayText_succ ih hample

/-- A program is evaluated to the same data. -/
theorem follows_materializeValue {n : Nat} {g : Nat → Nat} (h : B.Ample n g) {env env' : Env}
    {e e' : Expr} (he : B.like.code w env env' e e') :
    B.Follows w B.like.value (materializeValue B.left n env e) fun i =>
      materializeValue B.right (g i) env' e' := by
  refine B.follows_bind ((sound n g h).eval he) fun w₁ v v' h₁ hv => ?_
  exact (sound n g h).materialize hv

/-- A value is written alike. -/
theorem follows_render {n : Nat} {g : Nat → Nat} (h : B.Ample n g) {v v' : Expr}
    (hv : B.like.value w v v') :
    B.Follows w (fun _ text text' => text = text') (render B.left n v) fun i =>
      render B.right (g i) v' := by
  refine B.follows_bind ((sound n g h).materialize hv) fun w₁ u u' h₁ hu => ?_
  exact B.follows_display h hu

/-- A program is evaluated and written alike. -/
theorem follows_renderValue {n : Nat} {g : Nat → Nat} (h : B.Ample n g)
    {env env' : Env} {e e' : Expr} (he : B.like.code w env env' e e') :
    B.Follows w (fun _ text text' => text = text') (renderValue B.left n env e) fun i =>
      renderValue B.right (g i) env' e' := by
  refine B.follows_bind ((sound n g h).eval he) fun w₁ v v' h₁ hv => ?_
  exact follows_render h hv

end Bond

end LazyExpr
