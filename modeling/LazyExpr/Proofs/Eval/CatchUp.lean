import LazyExpr.Proofs.Eval.Answers

/-!
# Evaluations that catch up

Of two expressions that mean the same, one may need more fuel than the other.  Where nothing is
remembered, and evaluations may be nested at will, the evaluation of the one still ends like that of
the other once it has fuel enough.

* `Fault.variant`: a fault without the values that it is about.
* `CatchesUp P x y`: if `x` ends, then from some index on the evaluations `y` end alike.
* `Bond.catchUp`: **whatever the likeness, the evaluator with growing fuel catches up.**
* `Likeness.swap`: a likeness, the other way round.
* `Tends.both`: what catches up with each other comes to the same answer.
-/

namespace LazyExpr

open Eval

/-! ## 1. Runs that end alike -/

/-- The fault without the values that it is about. -/
def Fault.variant : Fault → Fault
  | typeMismatch op _ _ => typeMismatch op .null .null
  | invalidOperand op _ => invalidOperand op .null
  | notCallable _ => notCallable .null
  | invalidCast _ target => invalidCast .null target
  | fault => fault

theorem FaultLike.variant_eq {value : Expr → Expr → Prop} {fault fault' : Fault}
    (h : FaultLike value fault fault') : fault.variant = fault'.variant := by
  cases h <;> rfl

/-- How runs end, by index, if a run ended like this: from some index on, alike. -/
inductive Catches {α β : Type} (P : α → β → Prop) : Ended Unit α → (Nat → Ended Unit β) → Prop where
  | ok {a : α} {b : β} {m m' : Machine Unit} {y : Nat → Ended Unit β} (hm : m.Plain)
    (hm' : m'.Plain)
    (h : P a b) (hy : ∃ k, ∀ i, k ≤ i → y i = .ok b m') : Catches P (.ok a m) y
  | fault {fault fault' : Fault} {m m' : Machine Unit} {y : Nat → Ended Unit β}
    (h : fault.variant = fault'.variant) (hy : ∃ k, ∀ i, k ≤ i → y i = .error (.fault fault') m') :
    Catches P (.error (.fault fault) m) y
  | unknown (m : Machine Unit) (y : Nat → Ended Unit β) : Catches P (.error .outOfFuel m) y

/-- The same runs, some of them left out. -/
theorem Catches.later {α β : Type} {P : α → β → Prop} {r : Ended Unit α} {y : Nat → Ended Unit β}
    (h : Catches P r y) {g : Nat → Nat} (hg : ∀ i, i ≤ g i) : Catches P r fun i => y (g i) := by
  cases h with
  | ok hm hm' hab hy =>
    obtain ⟨k, hk⟩ := hy
    exact .ok hm hm' hab ⟨k, fun i hi => hk (g i) (Nat.le_trans hi (hg i))⟩
  | fault h hy =>
    obtain ⟨k, hk⟩ := hy
    exact .fault h ⟨k, fun i hi => hk (g i) (Nat.le_trans hi (hg i))⟩
  | unknown m => exact .unknown m _

/-- If the evaluation `x` ends, then from some index on the evaluations `y` end alike. -/
def CatchesUp {α β : Type} (P : α → β → Prop) (x : Eval Unit α) (y : Nat → Eval Unit β) : Prop :=
  ∀ m m' : Machine Unit, m.Plain → m'.Plain → Catches P (x m) fun i => y i m'

namespace CatchesUp

variable {α β γ δ : Type} {P : α → β → Prop} {Q : γ → δ → Prop}

theorem pure {a : α} {b : β} (h : P a b) : CatchesUp P (pure a) fun _ => pure b :=
  fun _ _ hm hm' => .ok hm hm' h ⟨0, fun _ _ => rfl⟩

theorem fail {fault fault' : Fault} (h : fault.variant = fault'.variant) :
    CatchesUp P (fail fault) fun _ => fail fault' :=
  fun _ _ _ _ => .fault h ⟨0, fun _ _ => rfl⟩

theorem bind {x : Eval Unit α} {y : Nat → Eval Unit β} {f : α → Eval Unit γ}
    {g : Nat → β → Eval Unit δ} (hx : CatchesUp P x y)
    (hf : ∀ a b, P a b → CatchesUp Q (f a) fun i => g i b) :
    CatchesUp Q (x >>= f) fun i => y i >>= g i := by
  intro m m' hm hm'
  have hxy := hx m m' hm hm'
  simp only [bind_run]
  generalize x m = r at hxy ⊢
  generalize hys : (fun i => y i m') = ys at hxy
  have hy : ∀ i, y i m' = ys i := fun i => congrFun hys i
  simp only [hy]
  cases hxy with
  | @ok a b m m' _ hm hm' hab hends =>
    obtain ⟨k, hends⟩ := hends
    have hfg := hf a b hab m m' hm hm'
    show Catches Q (f a m) _
    generalize f a m = r at hfg ⊢
    -- from index `k` on, what comes second starts where the first has ended
    have hlater : ∀ {s : Ended Unit δ}, (∃ j, ∀ i, j ≤ i → g i b m' = s) →
        ∃ j, ∀ i, j ≤ i → Ended.andThen (ys i) (g i) = s := by
      rintro s ⟨j, hj⟩
      refine ⟨max k j, fun i hi => ?_⟩
      rw [hends i (Nat.le_trans (Nat.le_max_left k j) hi)]
      exact hj i (Nat.le_trans (Nat.le_max_right k j) hi)
    cases hfg with
    | ok hm hm' h hz => exact .ok hm hm' h (hlater hz)
    | fault h hz => exact .fault h (hlater hz)
    | unknown m => exact .unknown m _
  | fault h hends =>
    obtain ⟨k, hends⟩ := hends
    exact .fault h ⟨k, fun i hi => by rw [hends i hi]; rfl⟩
  | unknown m => exact .unknown m _

theorem check : CatchesUp (fun _ _ => True) check fun _ => check := by
  intro m m' hm hm'
  simp only [check_plain hm, check_plain hm']
  exact .ok hm hm' trivial ⟨0, fun _ _ => rfl⟩

theorem nested {x : Eval Unit α} {y : Nat → Eval Unit β} (h : CatchesUp P x y) :
    CatchesUp P (nested none x) fun i => nested none (y i) := by
  intro m m' hm hm'
  have hxy := h { m with depth := m.depth + 1 } { m' with depth := m'.depth + 1 } hm hm'
  simp only [nested_none, above_run]
  generalize x { m with depth := m.depth + 1 } = r at hxy ⊢
  generalize hys : (fun i => y i { m' with depth := m'.depth + 1 }) = ys at hxy
  have hy : ∀ i, y i { m' with depth := m'.depth + 1 } = ys i := fun i => congrFun hys i
  simp only [hy]
  cases hxy with
  | ok hm hm' hab hends =>
    obtain ⟨k, hends⟩ := hends
    refine .ok hm ?_ hab ⟨k, fun i hi => by rw [hends i hi]; rfl⟩
    exact hm'
  | fault h hends =>
    obtain ⟨k, hends⟩ := hends
    exact .fault h ⟨k, fun i hi => by rw [hends i hi]; rfl⟩
  | unknown m => exact .unknown _ _

theorem newList {P : Expr → Expr → Prop} {xs xs' : List Expr} {env env' : Env}
    (h : ∀ cell cell', P (.list (.items xs env cell)) (.list (.items xs' env' cell'))) :
    CatchesUp P (newList xs env) fun _ => newList xs' env' := by
  intro m m' hm hm'
  have hmore :
    ({ m' with cells := m'.cells ++ Array.replicate xs'.length none } : Machine Unit).Plain := hm'
  exact .ok hm hmore (h (some m.cells.size) (some m'.cells.size)) ⟨0, fun _ _ => rfl⟩

/-- What is there on the left is there on the right with enough fuel. -/
theorem fueled {o : Option α} {o' : Nat → Option α}
    (h : ∀ a, o = some a → ∃ k, ∀ i, k ≤ i → o' i = some a) :
    CatchesUp (· = ·) (fueled o) fun i => fueled (o' i) := by
  intro m m' hm hm'
  cases o with
  | none => exact .unknown m _
  | some a =>
    obtain ⟨k, hk⟩ := h a rfl
    refine .ok hm hm' rfl ⟨k, fun i hi => ?_⟩
    show Eval.fueled (o' i) m' = _
    rw [hk i hi]
    rfl

end CatchesUp

/-! ## 2. The comparison -/

/-- The evaluator without a memory beside itself with more and more fuel. -/
def Bond.catchUp (K : Likeness Env.lookup Env.lookup)
    (hlist : ∀ {w env env' xs xs'}, K.env w env env' → List.Forall₂ (K.code w env env') xs xs' →
      ∀ cell cell', K.value w (.list (.items xs env cell)) (.list (.items xs' env' cell')))
    (hother : ∀ {w env env' e e'}, K.other w env env' e e' → ∀ n,
      CatchesUp (K.value w) (eval .cacheFree n env e) fun i => eval .cacheFree i env' e')
    (hdisplay : ∀ {w v v'}, K.value w v v' → ∀ n text, v.display? n = some text →
      ∃ k, ∀ fuel, k ≤ fuel → v'.display? fuel = some text) : Bond Unit Unit where
  left := .cacheFree
  right := .cacheFree
  like := K
  Ample n g := ∀ i, n + i ≤ g i
  Follows w P x y := CatchesUp (P w) x y
  ample_succ {n g} h := by
    have hpos : ∀ i, 1 ≤ g i := fun i => by have := h i; omega
    refine ⟨fun i => g i - 1, fun i => ?_, funext fun i => (Nat.sub_add_cancel (hpos i)).symm⟩
    have := h i
    show n + i ≤ g i - 1
    omega
  follows_pure h := .pure h
  follows_bind {α β γ δ w} _ _ _ _ _ _ hx hf := hx.bind fun a b hab => hf w a b (K.le_refl w) hab
  follows_fail h := .fail h.variant_eq
  follows_stray _ _ _ hname := .fail (by rw [hname])
  follows_other := by
    intro w n g env env' e e' h hample m m' hm hm'
    exact (hother h (n + 1) m m' hm hm').later fun i => by have := hample i; omega
  follows_zero _ _ := fun m m' _ _ => .unknown m _
  follows_check := .check
  follows_nested h := h.nested
  follows_newList henv hxs := .newList (hlist henv hxs)
  follows_force := by
    intro w n g x x' xs xs' env env' cell cell' hample hl hx
    simp only [force_forgetful (S := .cacheFree) rfl]
    exact hx
  follows_display := by
    intro w n g v v' hample hv
    refine .fueled fun text htext => ?_
    obtain ⟨k, hk⟩ := hdisplay hv n text htext
    exact ⟨k, fun i hi => hk (g i) (by have := hample i; omega)⟩
  follows_perform := by
    intro w n g args args' entry hample h
    cases n with
    | zero => exact fun m m' _ _ => .unknown m _
    | succ n =>
      have hperform : ∀ i, perform Setting.cacheFree (g i) (.give .null) = pure .null := by
        intro i
        obtain ⟨k, hk⟩ : ∃ k, g i = k + 1 := ⟨g i - 1, by have := hample i; omega⟩
        rw [hk]
        rfl
      show CatchesUp _ _ fun i => perform Setting.cacheFree (g i) (.give .null)
      simp only [hperform]
      exact .pure (K.value_built (.atom rfl))

/-! ## 3. The other way round -/

section Swap

variable {findLeft findRight : Slot → Env → Option Expr} {env : Env → Env → Prop}
variable {code : Env → Env → Expr → Expr → Prop} {value : Expr → Expr → Prop}
variable {other : Env → Env → Expr → Expr → Prop}

theorem optionRel_swap {α β : Type} {r : α → β → Prop} {o : Option α} {o' : Option β}
    (h : Option.Rel r o o') : Option.Rel (fun b a => r a b) o' o := by
  cases h with
  | none => exact .none
  | some h => exact .some h

theorem FragmentLike.swap {r : Expr → Expr → Prop} {f f' : Fragment} (h : FragmentLike r f f') :
    FragmentLike (fun e' e => r e e') f' f := by
  cases h with
  | text t => exact .text t
  | embedded h => exact .embedded h

theorem CodeLayer.swap {here here' : Env} {e e' : Expr}
    (h : CodeLayer findLeft findRight env code value other here here' e e') :
    CodeLayer findRight findLeft (fun a b => env b a) (fun a b x y => code b a y x)
      (fun x y => value y x)
      (fun a b x y => other b a y x) here' here e' e := by
  cases h with
  | done h h' hv => exact .done h' h hv
  | function f => exact .function f
  | literal cell cell' henv h => exact .literal cell' cell henv h.flip
  | range hstart hsecond hstop =>
    exact .range hstart (optionRel_swap hsecond) (optionRel_swap hstop)
  | call hf ha => exact .call hf ha
  | lambda h => exact .lambda h
  | bound h h' hv => exact .bound h' h hv
  | stray h h' hname => exact .stray h' h hname.symm
  | unary op h => exact .unary op h
  | binary op hl hr => exact .binary op hl hr
  | leftSection op h => exact .leftSection op h
  | rightSection op h => exact .rightSection op h
  | conditional hc hy hn => exact .conditional hc hy hn
  | interpolated h => exact .interpolated (h.flip.imp fun _ _ h => h.swap)
  | other h => exact .other h

theorem Built.swap {v v' : Expr} (h : Built value v v') : Built (fun x y => value y x) v' v := by
  cases h with
  | atom h => exact .atom h
  | function f => exact .function f
  | applied ht ha => exact .applied ht ha.flip
  | leftSection op h => exact .leftSection op h
  | rightSection op h => exact .rightSection op h
  | progression p => exact .progression p
  | empty => exact .empty
  | prepend hh ht => exact .prepend hh ht
  | concat ha hb => exact .concat ha hb
  | mapped hf hs => exact .mapped hf hs
  | filtered hp hs => exact .filtered hp hs
  | dropped count hs => exact .dropped count hs

theorem Seen.swap {v v' : Expr} (h : Seen code value v v') :
    Seen (fun a b x y => code b a y x) (fun x y => value y x) v' v := by
  cases h with
  | built h => exact .built h.swap
  | closure hlength h =>
    refine .closure hlength.symm fun args args' hargs hle => ?_
    exact h args' args hargs.flip (by rw [← hargs.length_eq, hlength]; exact hle)
  | nil env env' cell cell' => exact .nil env' env cell' cell
  | cons hx hxs => exact .cons hx hxs
  | inert h h' => exact .inert h' h

/-- The likeness, the other way round. -/
def Likeness.swap (K : Likeness findLeft findRight) : Likeness findRight findLeft where
  World := K.World
  le := K.le
  le_refl := K.le_refl
  le_trans := K.le_trans
  env w a b := K.env w b a
  code w a b e e' := K.code w b a e' e
  value w v v' := K.value w v' v
  other w a b e e' := K.other w b a e' e
  env_mono := K.env_mono
  code_mono := K.code_mono
  value_mono := K.value_mono
  env_top := K.env_top
  code_top := K.code_top
  code_layer h := (K.code_layer h).swap
  value_built h := K.value_built h.swap
  value_seen h := (K.value_seen h).swap

end Swap

/-! ## 4. Answers -/

/-- The answer without the values that its fault is about. -/
def Answer.variant {α : Type} : Answer α → Answer α
  | .fault e => .fault e.variant
  | answer => answer

theorem Fault.variant_erase (fault : Fault) : fault.erase.variant = fault.variant := by
  cases fault <;> rfl

/-- What catches up, with more fuel by `n` than the index says, comes to the same answer. -/
theorem CatchesUp.answer_eq {α : Type} {x : Eval Unit α} {y : Nat → Eval Unit α} {n : Nat}
    (h : CatchesUp (· = ·) x fun i => y (n + i))
    (hknown : (Answer.ofRun id (x (.fresh ()))).variant ≠ .unknown) :
    ∃ k, ∀ i, k ≤ i →
      (Answer.ofRun id (y i (.fresh ()))).variant = (Answer.ofRun id (x (.fresh ()))).variant := by
  have hxy := h (.fresh ()) (.fresh ()) (Machine.fresh_plain ()) (Machine.fresh_plain ())
  have hlater : ∀ {k : Nat} {r : Ended Unit α}, (∀ i, k ≤ i → y (n + i) (.fresh ()) = r) →
      ∀ i, n + k ≤ i → y i (.fresh ()) = r := by
    intro k r hk i hi
    obtain ⟨j, rfl⟩ := Nat.exists_eq_add_of_le (Nat.le_of_add_right_le hi)
    exact hk j (Nat.le_of_add_le_add_left hi)
  generalize x (.fresh ()) = r at hxy hknown ⊢
  cases hxy with
  | ok _ _ hab hy =>
    obtain ⟨k, hk⟩ := hy
    refine ⟨n + k, fun i hi => ?_⟩
    rw [hlater hk i hi, hab]
    rfl
  | fault hvariant hy =>
    obtain ⟨k, hk⟩ := hy
    refine ⟨n + k, fun i hi => ?_⟩
    rw [hlater hk i hi]
    show Answer.fault (Fault.variant _) = Answer.fault (Fault.variant _)
    rw [Fault.variant_erase, Fault.variant_erase, hvariant]
  | unknown m => exact absurd rfl hknown

/-- What catches up with each other comes to the same. -/
theorem Tends.both {α : Type} {x y : Nat → Answer α}
    (hxy : ∀ n, x n ≠ .unknown → ∃ k, ∀ i, k ≤ i → y i = x n)
    (hyx : ∀ n, y n ≠ .unknown → ∃ k, ∀ i, k ≤ i → x i = y n) : ∃ a, Tends x a ∧ Tends y a := by
  -- two answers that are known are the same, because later answers are both
  have hsame : ∀ {n n'}, x n ≠ .unknown → y n' ≠ .unknown → x n = y n' := by
    intro n n' hn hn'
    obtain ⟨k, hk⟩ := hxy n hn
    obtain ⟨k', hk'⟩ := hyx n' hn'
    have hlater := hk' (max k k') (Nat.le_max_right k k')
    obtain ⟨j, hj⟩ := hxy (max k k') (hlater ▸ hn')
    rw [← hk (max k j) (Nat.le_max_left k j), hj (max k j) (Nat.le_max_right k j), hlater]
  by_cases hknown : ∃ n, x n ≠ .unknown
  · obtain ⟨n, hn⟩ := hknown
    obtain ⟨k, hk⟩ := hxy n hn
    have hy : ∀ n', (y n').Below (x n) := fun n' => by
      by_cases h : y n' = .unknown
      · exact .inl h
      · exact .inr (hsame hn h).symm
    have hyk : y k ≠ .unknown := hk k (Nat.le_refl k) ▸ hn
    obtain ⟨k', hk'⟩ := hyx k hyk
    rw [hk k (Nat.le_refl k)] at hk'
    refine ⟨x n, ⟨fun n' => ?_, k', hk'⟩, hy, k, hk⟩
    by_cases h : x n' = .unknown
    · exact .inl h
    · exact .inr ((hsame h hyk).trans (hk k (Nat.le_refl k)))
  · have hx : ∀ n, x n = .unknown := fun n => by_contra fun h => hknown ⟨n, h⟩
    refine ⟨.unknown, .of_unknown hx, .of_unknown fun n => by_contra fun h => ?_⟩
    obtain ⟨k, hk⟩ := hyx n h
    exact h ((hk k (Nat.le_refl k)).symm.trans (hx k))

end LazyExpr
