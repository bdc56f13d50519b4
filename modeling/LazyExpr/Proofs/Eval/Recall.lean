import LazyExpr.Proofs.Eval.Memo
import LazyExpr.Proofs.Expr.Readable
import LazyExpr.Request

/-!
# Remembering changes no answer

A request is answered by evaluators that differ in two points: whether elements of lists are
remembered, and whether nested evaluations are limited.  Without a memory an element is evaluated
each time it is reached, which may nest more deeply than looking it up; so a limit is reached
earlier.

* `unlimited_eval` — where the limit is not reached, it makes no difference.
* `RecalledBy` compares the evaluator without a memory, on the left, with the one that has a memory,
  under the same limit: where the left one is not stopped by the limit, the right one ends alike.
* `answer_memory` — **an answer that is found without a memory is found with one, and an answer that
  is found with a memory is found without one and without a limit.**
-/

namespace LazyExpr

open Eval

/-! ## 1. Without a limit -/

section Unlimited

variable {σ α β γ δ : Type}

/-- How a run ends when the limit is taken away: the same way, unless it ended at the limit. -/
inductive Uncut (P : α → β → Prop) : Ended σ α → Ended σ β → Prop where
  | ok {a : α} {b : β} (m : Machine σ) (h : P a b) : Uncut P (.ok a m) (.ok b m)
  | halt (halt : Halt) (m : Machine σ) : Uncut P (.error halt m) (.error halt m)
  | limited (limit : Nat) (m : Machine σ) (r : Ended σ β) :
    Uncut P (.error (.fault (.recursionLimit limit)) m) r

/-- The run on every machine is the same without the limit, unless it ended there. -/
def UncutBy (P : α → β → Prop) (x : Eval σ α) (y : Eval σ β) : Prop := ∀ m, Uncut P (x m) (y m)

namespace UncutBy

variable {P : α → β → Prop} {Q : γ → δ → Prop}

theorem pure {a : α} {b : β} (h : P a b) : UncutBy (σ := σ) P (pure a) (pure b) := fun m => .ok m h

theorem throw (halt : Halt) : UncutBy (σ := σ) P (throw halt) (throw halt) := fun m => .halt halt m

theorem bind {x : Eval σ α} {y : Eval σ β} {f : α → Eval σ γ} {g : β → Eval σ δ}
    (hx : UncutBy P x y)
    (hf : ∀ a b, P a b → UncutBy Q (f a) (g b)) : UncutBy Q (x >>= f) (y >>= g) := by
  intro m
  have hxy := hx m
  rw [bind_run, bind_run]
  generalize x m = r at hxy ⊢
  generalize y m = r' at hxy ⊢
  cases hxy with
  | ok m hab => exact hf _ _ hab m
  | halt halt m => exact .halt halt m
  | limited limit m => exact .limited limit m _

/-- What does not depend on a limit. -/
theorem refl {x : Eval σ α} : UncutBy (· = ·) x x := by
  intro m
  cases x m with
  | ok a m => exact .ok m rfl
  | error halt m => exact .halt halt m

theorem check : UncutBy (σ := σ) (fun _ _ => True) check check := by
  intro m
  cases Eval.check m with
  | ok a m => exact .ok m trivial
  | error halt m => exact .halt halt m

theorem above {x : Eval σ α} {y : Eval σ β} (h : UncutBy P x y) (depth : Nat) :
    UncutBy P (above depth x) (above depth y) := by
  intro m
  have hxy := h { m with depth := depth + 1 }
  rw [above_run, above_run]
  generalize x { m with depth := depth + 1 } = r at hxy ⊢
  generalize y { m with depth := depth + 1 } = r' at hxy ⊢
  cases hxy with
  | ok m hab => exact .ok { m with depth } hab
  | halt halt m => exact .halt halt { m with depth }
  | limited limit m => exact .limited limit { m with depth } _

theorem nested {x : Eval σ α} {y : Eval σ β} (h : UncutBy P x y) (limit : Option Nat) :
    UncutBy P (nested limit x) (nested none y) := by
  intro m
  cases limit with
  | none => exact h.above m.depth m
  | some l =>
    rw [nested_some, nested_none]
    split
    · exact .limited l m _
    · exact h.above m.depth m

theorem force {S S' : Setting σ} (hsame : S.remembers = S'.remembers) (cell : Option Nat)
    {x y : Eval σ Expr} (h : UncutBy (· = ·) x y) :
    UncutBy (· = ·) (force S cell x) (force S' cell y) := by
  unfold Eval.force
  rw [hsame]
  refine refl.bind ?_
  rintro seen _ rfl
  cases seen with
  | some v => exact pure rfl
  | none =>
    refine h.bind ?_
    rintro v _ rfl
    exact refl

end UncutBy

/-- The evaluator with a limit and without. -/
def Bond.unlimited (σ : Type) (remembers : Bool) (limit : Option Nat) : Bond σ σ where
  left := .builtins σ remembers limit
  right := .builtins σ remembers none
  like := .equality Env.lookup
  Ample n g := ∀ i, g i = n
  Follows _ P x y := UncutBy (P ()) x (y 0)
  ample_succ := Bond.ample_const
  follows_pure h := .pure h
  follows_bind hx hf := hx.bind fun a b hab => hf () a b trivial hab
  follows_fail h := h.eq ▸ .throw _
  follows_stray _ _ _ hname := hname ▸ .throw _
  follows_zero hample h := by
    rw [h 0 (hample 0)]
    exact .throw _
  follows_check := .check
  follows_nested h := h.nested limit
  follows_newList := by
    rintro w env _ xs xs' rfl h
    obtain rfl := eq_of_forall₂ (h.imp fun _ _ h => h.2)
    exact UncutBy.refl
  follows_force := by
    rintro w n g x x' xs xs' env env' cell cell' hample hl hx
    cases hl
    have hsame : (Setting.builtins σ remembers limit).remembers =
      (Setting.builtins σ remembers none).remembers := rfl
    exact UncutBy.force hsame cell hx
  follows_display := by
    rintro w n g v _ hample rfl
    obtain rfl : g = fun _ => n := funext hample
    exact UncutBy.refl
  follows_perform := by
    rintro w n g args args' entry hample h
    obtain rfl : g = fun _ => n := funext hample
    cases n with
    | zero => exact UncutBy.throw .outOfFuel
    | succ n => exact UncutBy.pure rfl

/-- **A limit that is not reached makes no difference.** -/
theorem unlimited_eval (remembers : Bool) (limit : Option Nat) (n : Nat) (env : Env) (e : Expr) :
    UncutBy (σ := σ) (· = ·) (eval (.builtins σ remembers limit) n env e)
      (eval (.builtins σ remembers none) n env e) :=
  ((Bond.unlimited σ remembers limit).sound n (fun _ => n) fun _ => rfl).eval (w := ()) ⟨rfl, rfl⟩

end Unlimited

/-- An element that is evaluated without a memory below the limit yields what it is evaluated to. -/
theorem yields_of_eval {limit : Option Nat} {n : Nat} {env : Env} {x v : Expr} {m m' : Machine Unit}
    (hm : m.Plain) (h : eval (.builtins Unit false limit) n env x m = .ok v m') :
    Yields env x v := by
  have hfree : eval .cacheFree n env x m = .ok v m' := by
    have hcut := unlimited_eval false limit n env x m
    rw [h] at hcut
    show eval (.builtins Unit false none) n env x m = _
    generalize eval (.builtins Unit false none) n env x m = r at hcut ⊢
    cases hcut with
    | ok m hab => rw [hab]
  exact ⟨n, by rw [← evalAnswer_eq (n := n) (e := x) hm (rfl : env.Alike env) rfl, hfree]; rfl⟩

/-- An element that fails without a memory below the limit yields nothing. -/
theorem not_yields_of_eval {limit : Option Nat} {n : Nat} {env : Env} {x v : Expr} {e : Fault}
    {m m' : Machine Unit} (hm : m.Plain)
    (h : eval (.builtins Unit false limit) n env x m = .error (.fault e) m')
    (he : ∀ l, e ≠ .recursionLimit l) : ¬ Yields env x v := by
  rintro ⟨k, hk⟩
  have hfree : evalAnswer n env x = .fault e.erase := by
    rw [← evalAnswer_eq (n := n) (e := x) hm (rfl : env.Alike env) rfl]
    have hcut := unlimited_eval false limit n env x m
    rw [h] at hcut
    show Answer.ofRun _ (eval (.builtins Unit false none) n env x m) = _
    generalize eval (.builtins Unit false none) n env x m = r at hcut ⊢
    cases hcut with
    | halt => rfl
    | limited l => exact absurd rfl (he l)
  have hsame := (evalAnswer_more (Nat.le_max_left n k) env x).eq (hfree ▸ fun h => nomatch h)
  have hsame' := (evalAnswer_more (Nat.le_max_right n k) env x).eq (hk ▸ fun h => nomatch h)
  rw [hfree] at hsame
  rw [hk] at hsame'
  exact nomatch hsame.symm.trans hsame'

/-! ## 2. With a memory -/

/-- Cells on the right are in the ledger; nothing is asked of those on the left. -/
def Tenure.recall : Tenure :=
  { Tenure.ledger with
    left := fun _ _ => True
    right := Ledger.Owns
    left_mono := fun _ h => h
    right_mono := Ledger.Owns.mono }

section Recalled

variable {σ α β γ δ : Type}

/-- How a run without a memory ends, beside one with a memory that starts at the same depth: both
end alike and are back at that depth; or the first is stopped by the limit; or it had too little
fuel. -/
inductive Recalls (Γ : Ledger) (depth : Nat) (P : Ledger → α → β → Prop) :
    Ended Unit α → Ended σ β → Prop where
  | ok {Γ' : Ledger} {a : α} {b : β} {m : Machine Unit} {m' : Machine σ} (hle : Γ <+: Γ')
    (hm : m.Plain) (hm' : Γ'.Fits m') (hd : m.depth = depth) (hd' : m'.depth = depth)
    (h : P Γ' a b) : Recalls Γ depth P (.ok a m) (.ok b m')
  | fault {e e' : Fault} (m : Machine Unit) (m' : Machine σ) (h : e.erase = e'.erase) :
    Recalls Γ depth P (.error (.fault e) m) (.error (.fault e') m')
  | limited (limit : Nat) (m : Machine Unit) (r : Ended σ β) :
    Recalls Γ depth P (.error (.fault (.recursionLimit limit)) m) r
  | unknown (m : Machine Unit) (r : Ended σ β) : Recalls Γ depth P (.error .outOfFuel m) r

/-- The comparison on every two machines of the same depth. -/
def RecalledBy (Γ : Ledger) (P : Ledger → α → β → Prop) (x : Eval Unit α) (y : Eval σ β) : Prop :=
  ∀ m m', m.Plain → Γ.Fits m' → m.depth = m'.depth → Recalls Γ m'.depth P (x m) (y m')

namespace RecalledBy

variable {Γ : Ledger} {P : Ledger → α → β → Prop} {Q : Ledger → γ → δ → Prop}

theorem pure {a : α} {b : β} (h : P Γ a b) : RecalledBy (σ := σ) Γ P (pure a) (pure b) :=
  fun _ _ hm hm' hd => .ok List.prefix_rfl hm hm' hd rfl h

theorem fail {e e' : Fault} (h : e.erase = e'.erase) :
    RecalledBy (σ := σ) Γ P (fail e) (fail e') :=
  fun m m' _ _ _ => .fault m m' h

theorem bind {x : Eval Unit α} {y : Eval σ β} {f : α → Eval Unit γ} {g : β → Eval σ δ}
    (hx : RecalledBy Γ P x y) (hf : ∀ Γ' a b, Γ <+: Γ' → P Γ' a b → RecalledBy Γ' Q (f a) (g b)) :
    RecalledBy Γ Q (x >>= f) (y >>= g) := by
  intro m m' hm hm' hd
  have hxy := hx m m' hm hm' hd
  rw [bind_run, bind_run]
  generalize x m = r at hxy ⊢
  generalize y m' = r' at hxy ⊢
  cases hxy with
  | @ok Γ' a b m₁ m₁' hle hm₁ hm₁' hd₁ hd₁' hab =>
    have hfg := hf Γ' a b hle hab m₁ m₁' hm₁ hm₁' (hd₁.trans hd₁'.symm)
    show Recalls Γ _ Q (f a m₁) (g b m₁')
    rw [hd₁'] at hfg
    generalize f a m₁ = r at hfg ⊢
    generalize g b m₁' = r' at hfg ⊢
    cases hfg with
    | ok hle' hm hm' hd hd' h => exact .ok (hle.trans hle') hm hm' hd hd' h
    | fault m m' h => exact .fault m m' h
    | limited limit m => exact .limited limit m _
    | unknown m => exact .unknown m _
  | fault m m' h => exact .fault m m' h
  | limited limit m => exact .limited limit m _
  | unknown m => exact .unknown m _

theorem check : RecalledBy (σ := σ) Γ (fun _ _ _ => True) check check := by
  intro m m' hm hm' hd
  rw [check_plain hm, check_plain hm'.plain]
  exact .ok List.prefix_rfl hm hm' hd rfl trivial

theorem nested {x : Eval Unit α} {y : Eval σ β} (h : RecalledBy Γ P x y) (limit : Option Nat) :
    RecalledBy Γ P (nested limit x) (nested limit y) := by
  intro m m' hm hm' hd
  have habove : Recalls Γ m'.depth P (above m.depth x m) (above m'.depth y m') := by
    have hxy := h { m with depth := m.depth + 1 } { m' with depth := m'.depth + 1 } hm
      (hm'.atDepth _) (congrArg (· + 1) hd)
    rw [above_run, above_run]
    generalize x { m with depth := m.depth + 1 } = r at hxy ⊢
    generalize y { m' with depth := m'.depth + 1 } = r' at hxy ⊢
    cases hxy with
    | ok hle hm hm' _ _ h => exact .ok hle hm (hm'.atDepth _) hd rfl h
    | fault m m' h => exact .fault _ _ h
    | limited limit m => exact .limited limit _ _
    | unknown m => exact .unknown _ _
  cases limit with
  | none => exact habove
  | some l =>
    rw [nested_some, nested_some, ← hd]
    split
    · exact .limited l m _
    · rw [hd]
      rw [hd] at habove
      exact habove

theorem fueled (o : Option α) :
    RecalledBy (σ := σ) Γ (fun _ a b => a = b) (fueled o) (fueled o) := by
  cases o with
  | some a => exact pure rfl
  | none => exact fun m m' _ _ _ => .unknown m _

theorem newList {xs xs' : List Expr} {env env' : Env} (henv : Tenure.recall.EnvValue Γ env env')
    (hxs : List.Forall₂ (Tenure.recall.Value Γ) xs xs') :
    RecalledBy (σ := σ) Γ Tenure.recall.Value (newList xs env) (newList xs' env') := by
  intro m m' hm hm' hd
  obtain ⟨halike, hclaims⟩ := Tenure.values_iff.mp hxs
  have hle : Γ <+: Γ ++ xs'.map fun x => (x, env') := List.prefix_append _ _
  refine .ok hle ?_ (hm'.append xs' env') hd rfl ?_
  · exact hm
  refine ⟨congrArg Expr.list (items_alike halike henv.1 _ _), fun _ _ => trivial, fun c hc => ?_⟩
  rw [← hm'.size] at hc
  exact Ledger.owns_newList hclaims.2 henv.2.2 hc

theorem force (limit : Option Nat) {n : Nat} {x x' : Expr} {xs xs' : List Expr} {env env' : Env}
    {cell cell' : Option Nat}
    (hl : Tenure.recall.Value Γ (.list (.items (x :: xs) env cell))
      (.list (.items (x' :: xs') env' cell')))
    (h : RecalledBy Γ Tenure.recall.Value (eval (.builtins Unit false limit) n env x)
      (eval (.builtins σ true limit) n env' x')) :
    RecalledBy Γ Tenure.recall.Value
      (force (.builtins Unit false limit) cell (eval (.builtins Unit false limit) n env x))
      (force (.builtins σ true limit) cell' (eval (.builtins σ true limit) n env' x')) := by
  rw [force_forgetful (S := .builtins Unit false limit) rfl]
  cases cell' with
  | none =>
    rw [force_none]
    exact h
  | some address =>
    have howns : Γ.Owns ⟨address, x', env'⟩ := hl.2.2 _ List.mem_cons_self
    obtain ⟨hx, henv⟩ := alike_of_items hl.1
    intro m m' hm hm' hd
    have hxy := h m m' hm hm' hd
    -- what the left one finds is what the cell on the right holds, or will hold
    have hyields : ∀ v m₁, eval (.builtins Unit false limit) n env x m = .ok v m₁ →
        Yields env' x' v := fun v m₁ hrun =>
      (yields_of_eval hm hrun).alike henv hx
    rw [force_run (.builtins σ true limit) rfl]
    generalize hleft : eval (.builtins Unit false limit) n env x m = r at hxy hyields ⊢
    cases hcell : (m'.cells[address]?).join with
    | some value =>
      obtain ⟨hvalue, hclaims⟩ := hm'.recalled howns hcell
      generalize eval (.builtins σ true limit) n env' x' m' = r' at hxy
      cases hxy with
      | ok hle hm₁ _ hd₁ _ _ =>
        have hsame := (hyields _ _ rfl).unique hvalue
        exact .ok List.prefix_rfl hm₁ hm' hd₁ rfl ⟨hsame, fun _ _ => trivial, hclaims⟩
      | @fault e e' m₁ m₁' he =>
        by_cases hlimit : ∃ l, e = .recursionLimit l
        · obtain ⟨l, rfl⟩ := hlimit
          exact .limited l m₁ _
        · exact absurd (hvalue.alike henv.symm hx.symm)
            (not_yields_of_eval hm hleft fun l hl => hlimit ⟨l, hl⟩)
      | limited l m₁ => exact .limited l m₁ _
      | unknown m₁ => exact .unknown m₁ _
    | none =>
      show Recalls Γ _ _ r (Ended.andThen (eval (.builtins σ true limit) n env' x' m') _)
      generalize eval (.builtins σ true limit) n env' x' m' = r' at hxy ⊢
      cases hxy with
      | @ok Γ' v v' m₁ m₁' hle hm₁ hm₁' hd₁ hd₁' hv =>
        have hyields' : Yields env' x' v' := (hyields v m₁ rfl).of_alike hv.1
        obtain ⟨u, cells, hrun, hfits, hu, huclaims⟩ :=
          hm₁'.remembers (howns.mono hle) hv.2.2 hyields'
        show Recalls Γ _ _ _ (remember true (some address) v' m₁')
        rw [hrun]
        exact .ok hle hm₁ hfits hd₁ hd₁' ⟨hv.1.trans hu.symm, fun _ _ => trivial, huclaims⟩
      | fault m₁ m₁' he => exact .fault m₁ m₁' he
      | limited l m₁ => exact .limited l m₁ _
      | unknown m₁ => exact .unknown m₁ _

end RecalledBy

end Recalled

/-- The evaluator without a memory beside the one with a memory, under the same limit. -/
def Bond.recall (σ : Type) (limit : Option Nat) : Bond Unit σ where
  left := .builtins Unit false limit
  right := .builtins σ true limit
  like := .alike .recall
  Ample n g := ∀ i, g i = n
  Follows Γ P x y := RecalledBy Γ P x (y 0)
  ample_succ := Bond.ample_const
  follows_pure h := .pure h
  follows_bind hx hf := hx.bind hf
  follows_fail h := .fail (h.erase_eq fun _ _ hv => hv.1)
  follows_stray _ _ _ hname := .fail (by rw [hname])
  follows_zero hample h := by
    rw [h 0 (hample 0)]
    exact fun m m' _ _ _ => .unknown m _
  follows_check := .check
  follows_nested h := h.nested limit
  follows_newList henv hxs := .newList henv (hxs.imp fun _ _ h => h.2)
  follows_force := by
    intro Γ n g x x' xs xs' env env' cell cell' hample hl hx
    obtain rfl : g = fun _ => n := funext hample
    exact RecalledBy.force limit hl hx
  follows_display := by
    intro Γ n g v v' hample hv
    obtain rfl : g = fun _ => n := funext hample
    show RecalledBy Γ _ (fueled (v.display? n)) (fueled (v'.display? n))
    rw [display_alike hv.1]
    exact .fueled _
  follows_perform := by
    intro Γ n g args args' entry hample h
    obtain rfl : g = fun _ => n := funext hample
    cases n with
    | zero => exact fun m m' _ _ _ => .unknown m _
    | succ n => exact .pure ⟨rfl, .nil⟩

/-! ## 3. Answers -/

/-- The answer to a request by an evaluator of one's choice. -/
def Setting.answer (S : Setting Unit) (fuel : Nat) (source : String) : Except Failure String :=
  match parse source with
  | .error e => .error (.parse e)
  | .ok e => (renderValue S fuel .top e).result (.fresh ())

/-- Requests without a deadline are answered by the standard evaluator. -/
theorem evaluateText_eq (source : String) :
    evaluateText none source = Setting.standard.answer ampleFuel source := by
  unfold evaluateText Setting.answer
  cases parse source <;> rfl

/-- A text, or an error other than that evaluations were nested too deeply. -/
def Conclusive : Except Failure String → Prop
  | .ok _ | .error (.parse _) => True
  | .error (.fault e) => ∀ limit, e ≠ .recursionLimit limit
  | .error .unfinished => False

/-- The same text, the same error of the reader, or faults that are equal up to cells and have the
same message. -/
inductive SameAnswer : Except Failure String → Except Failure String → Prop where
  | text (text : String) : SameAnswer (.ok text) (.ok text)
  | parse (e : ParseError) : SameAnswer (.error (.parse e)) (.error (.parse e))
  | fault {e e' : Fault} (h : e.erase = e'.erase)
    (hmessage : ∀ fuel, e.message? fuel = e'.message? fuel) :
    SameAnswer (.error (.fault e)) (.error (.fault e'))

theorem SameAnswer.of_erase {e e' : Fault} (h : e.erase = e'.erase) :
    SameAnswer (.error (.fault e)) (.error (.fault e')) :=
  .fault h fun fuel => by rw [← e.message_erase, h, e'.message_erase]

/-- An answer that is no lack of fuel is found again with more. -/
theorem answer_more {S : Setting Unit} (hsteady : S.Steady) {n n' : Nat} (h : n ≤ n')
    {source : String} (hc : Conclusive (S.answer n source)) :
    S.answer n' source = S.answer n source := by
  unfold Setting.answer at hc ⊢
  cases hparse : parse source with
  | error e => rfl
  | ok e =>
    rw [hparse] at hc
    have hmore : renderValue S n' .top e (.fresh ()) = renderValue S n .top e (.fresh ()) :=
      renderValue_more S hsteady h (.fresh ()) fun m' hrun => by
        simp only [Eval.result, hrun, Failure.ofHalt, Conclusive] at hc
    simp only [Eval.result, hmore]

/-- What is found without a memory is found with one. -/
theorem answer_recalled (fuel : Nat) (source : String)
    (hc : Conclusive ((Setting.builtins Unit false (some maxDepth)).answer fuel source)) :
    SameAnswer ((Setting.builtins Unit false (some maxDepth)).answer fuel source)
      (Setting.standard.answer fuel source) := by
  unfold Setting.answer at hc ⊢
  cases hparse : parse source with
  | error e => exact .parse e
  | ok e =>
    rw [hparse] at hc
    have hcode : (Bond.recall Unit (some maxDepth)).like.code [] .top .top e e :=
      ⟨Tenure.env_top, Tenure.value_of_claims (claims_of_parseIn hparse)⟩
    have hrun := (Bond.recall Unit (some maxDepth)).follows_renderValue (n := fuel)
      (g := fun _ => fuel) (fun _ => rfl) hcode (.fresh ()) (.fresh ()) (Machine.fresh_plain ())
      (Ledger.fits_fresh ()) rfl
    change Recalls [] 0 _
      (renderValue (.builtins Unit false (some maxDepth)) fuel .top e (.fresh ()))
      (renderValue .standard fuel .top e (.fresh ())) at hrun
    simp only [Eval.result] at hc ⊢
    generalize renderValue (.builtins Unit false (some maxDepth)) fuel .top e (.fresh ()) = r
      at hrun hc ⊢
    generalize renderValue .standard fuel .top e (.fresh ()) = r' at hrun ⊢
    cases hrun with
    | ok _ _ _ _ _ h => exact h ▸ .text _
    | fault m m' h => exact .of_erase h
    | limited limit m => exact absurd rfl (hc limit)
    | unknown m => exact hc.elim

/-- What is found with a memory is found without one and without a limit, given enough fuel. -/
theorem answer_told (fuel : Nat) (source : String)
    (hc : Conclusive (Setting.standard.answer fuel source)) :
    ∃ k, ∀ fuel', k ≤ fuel' →
      SameAnswer (Setting.standard.answer fuel source) (Setting.cacheFree.answer fuel' source) := by
  unfold Setting.answer at hc ⊢
  cases hparse : parse source with
  | error e => exact ⟨0, fun _ _ => .parse e⟩
  | ok e =>
    rw [hparse] at hc
    have hcode : (Bond.memo Unit true (some maxDepth)).like.code [] .top .top e e :=
      ⟨Tenure.env_top, Tenure.value_of_claims (claims_of_parseIn hparse)⟩
    have hrun := (Bond.memo Unit true (some maxDepth)).follows_renderValue (n := fuel)
      (g := fun i => fuel + i) (fun _ => rfl) hcode (.fresh ()) (.fresh ()) (Ledger.fits_fresh ())
      (Machine.fresh_plain ())
    change Told [] _ (renderValue .standard fuel .top e (.fresh ()))
      (fun i => renderValue .cacheFree (fuel + i) .top e (.fresh ())) at hrun
    -- the runs without a memory are the same from some fuel on
    have hfrom : ∀ {r : Ended Unit String},
        Settles (fun i => renderValue .cacheFree (fuel + i) .top e (.fresh ())) r →
        ∃ k, ∀ fuel', k ≤ fuel' → renderValue .cacheFree fuel' .top e (.fresh ()) = r := by
      rintro r ⟨⟨k, hk⟩, -⟩
      refine ⟨fuel + k, fun fuel' h => ?_⟩
      obtain ⟨i, rfl⟩ := Nat.exists_eq_add_of_le (Nat.le_of_add_right_le h)
      exact hk i (by omega)
    simp only [Eval.result] at hc ⊢
    generalize renderValue .standard fuel .top e (.fresh ()) = r at hrun hc ⊢
    cases hrun with
    | ok _ _ _ h hy =>
      obtain ⟨k, hk⟩ := hfrom hy
      exact ⟨k, fun fuel' hle => by rw [hk fuel' hle, h]; exact .text _⟩
    | fault _ _ h hy =>
      obtain ⟨k, hk⟩ := hfrom hy
      exact ⟨k, fun fuel' hle => by rw [hk fuel' hle]; exact .of_erase h⟩
    | limited limit => exact absurd rfl (hc limit)
    | unknown => exact hc.elim

/-- **Remembering elements changes no answer.** What a request ends with when elements of lists are
evaluated each time they are reached, it ends with when they are remembered; and what it ends with
when they are remembered, it ends with without a memory and without a limit on nested evaluations.
Ending because evaluations are nested too deeply is left out in both directions. -/
theorem answer_memory (source : String) :
    (∀ fuel, Conclusive ((Setting.builtins Unit false (some maxDepth)).answer fuel source) →
      ∀ fuel', fuel ≤ fuel' →
        SameAnswer ((Setting.builtins Unit false (some maxDepth)).answer fuel source)
          (Setting.standard.answer fuel' source)) ∧
    ∀ fuel, Conclusive (Setting.standard.answer fuel source) →
      ∃ k, ∀ fuel', k ≤ fuel' →
        SameAnswer (Setting.standard.answer fuel source)
          (Setting.cacheFree.answer fuel' source) := by
  refine ⟨fun fuel hc fuel' hle => ?_, fun fuel => answer_told fuel source⟩
  have hmore := answer_more (Setting.builtins_steady Unit false (some maxDepth)) hle hc
  rw [← hmore] at hc ⊢
  exact answer_recalled fuel' source hc

/-- A list that is traversed twice: its element is remembered between the two traversals. -/
theorem answer_memory_doubled :
    let source := "(\\x -> x ++ x) [null]"
    (Setting.builtins Unit false (some maxDepth)).answer 9 source = .ok "[null, null]" ∧
      SameAnswer ((Setting.builtins Unit false (some maxDepth)).answer 9 source)
        (Setting.standard.answer 9 source) ∧
      ∃ k, ∀ fuel, k ≤ fuel →
        SameAnswer (Setting.standard.answer 9 source) (Setting.cacheFree.answer fuel source) := by
  intro source
  let slot : Expr := .argument ⟨1, 0, "x"⟩
  have hparse : parse source =
      .ok (.call (.lambda 1 ["x"] (.binary .concat slot slot)) (.literal [.null])) := by cbv
  have hfree : (Setting.builtins Unit false (some maxDepth)).answer 9 source =
    .ok "[null, null]" := by
    rw [Setting.answer, hparse]
    cbv
  have hmemory : Setting.standard.answer 9 source = .ok "[null, null]" := by
    rw [Setting.answer, hparse]
    cbv
  exact ⟨hfree, (answer_memory source).1 9 (by rw [hfree]; trivial) 9 (Nat.le_refl 9),
    (answer_memory source).2 9 (by rw [hmemory]; trivial)⟩

end LazyExpr
