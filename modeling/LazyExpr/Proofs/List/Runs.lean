import LazyExpr.Proofs.List.Outcomes

/-!
# What an application gets to see

An application evaluates expressions that hold its values, and traverses the lists that it is given,
one step after another.  Each evaluation has a bound of its own and may meet cells that are filled
already; and evaluations may turn out to be nested too deeply.  Where they are not, it sees the
answers of the evaluator without a memory, and the outcomes that lists have there.

* `Session.Comes`: what an evaluation comes to.  `Fits.comes`: it is the answer in the end.
* `Session.Traverses`: what the traversals of a list give.  `Fits.traverses`: **they give the
  outcomes of the list.**
* `Session.Lists`: an evaluation that gives a list with these outcomes.
-/

namespace LazyExpr

open Eval

/-! ## 1. Evaluations -/

/-- Evaluations were nested too deeply. -/
def Limited {α : Type} (r : Except Failure α) : Prop :=
  ∃ limit, r = .error (.fault (.recursionLimit limit))

/-- What the result of an evaluation says, without cells. -/
def resultAnswer : Except Failure Expr → Answer Expr
  | .ok v => .value v.erase
  | .error (.fault e) => .fault e.erase
  | .error _ => .unknown

namespace Session

/-- Evaluates an expression in an environment, with a bound on the evaluation. -/
def evalWithin (s : Session) (fuel : Nat) (env : Env) (e : Expr) : Except Failure Expr × Session :=
  s.run s.current (Eval.eval s.setting fuel env e)

/-- **What an evaluation comes to**: whatever it ends with is the answer, and with enough fuel it
does end, unless evaluations are nested too deeply.  An evaluation that comes to `unknown` never
ends otherwise. -/
structure Comes (s : Session) (env : Env) (e : Expr) (a : Answer Expr) : Prop where
  below : ∀ fuel, Limited (s.evalWithin fuel env e).1 ∨
    (resultAnswer (s.evalWithin fuel env e).1).Below a
  ends : ∃ n, ∀ fuel, n ≤ fuel →
    Limited (s.evalWithin fuel env e).1 ∨ resultAnswer (s.evalWithin fuel env e).1 = a

/-- How an evaluation ends that is to come to an answer. -/
inductive EvalsTo (fuel : Nat) (env : Env) (e : Expr) (a : Answer Expr) :
    Except Failure Expr × Session → Prop where
  | value {Γ : Ledger} {s : Session} {v : Expr} (hs : s.Fits Γ) (hv : ∀ c ∈ v.claims, Γ.Owns c)
    (ha : a = .value v.erase) : EvalsTo fuel env e a (.ok v, s)
  | fault {s : Session} {f : Fault} (ha : a = .fault f.erase) :
    EvalsTo fuel env e a (.error (.fault f), s)
  | limited (limit : Nat) (s : Session) :
    EvalsTo fuel env e a (.error (.fault (.recursionLimit limit)), s)
  | unfinished {s : Session} (h : evalAnswer fuel env e = .unknown) :
    EvalsTo fuel env e a (.error .unfinished, s)

section Evaluations

variable {s : Session} {Γ : Ledger} {env : Env} {e : Expr} {a : Answer Expr}

theorem Fits.evalsTo (hs : s.Fits Γ) (henv : ∀ c ∈ env.claims, Γ.Owns c)
    (he : ∀ c ∈ e.claims, Γ.Owns c) (h : Tends (fun n => evalAnswer n env e) a) (fuel : Nat) :
    EvalsTo fuel env e a (s.evalWithin fuel env e) := by
  let B := Bond.memo Nat true (some maxDepth)
  have henvironment : Tenure.ledger.EnvValue Γ env env := ⟨rfl, henv, fun _ _ => trivial⟩
  have hvalue : Tenure.ledger.Value Γ e e := ⟨rfl, he, fun _ _ => trivial⟩
  have htold := (B.sound fuel (fun i => fuel + i) fun _ => rfl).eval (w := Γ) ⟨henvironment, hvalue⟩
    s.machine (.fresh ()) hs.machine (Machine.fresh_plain ())
  change Told Γ _ (Eval.eval (.builtins Nat true (some maxDepth)) fuel env e s.machine)
    (fun i => Eval.eval .cacheFree (fuel + i) env e (.fresh ())) at htold
  -- an answer that is known with some fuel is the answer in the end
  have hanswer : ∀ {i b}, evalAnswer i env e = b → b ≠ .unknown → a = b := by
    rintro i b rfl hb
    exact (h.1 i).eq hb
  rw [evalWithin, hs.setting, hs.run]
  generalize Eval.eval (.builtins Nat true (some maxDepth)) fuel env e s.machine = r at htold ⊢
  cases htold with
  | ok hle hm _ hv hy =>
    obtain ⟨k, hk⟩ := hy.later
    have hknown : evalAnswer (fuel + k) env e = _ :=
      congrArg (Answer.ofRun Expr.erase) (hk k (Nat.le_refl k))
    refine .value (hs.keep _ hm) hv.2.1 ((hanswer hknown Answer.value_ne_unknown).trans ?_)
    exact congrArg Answer.value hv.1.symm
  | fault hle hm hf hy =>
    obtain ⟨k, hk⟩ := hy.later
    have hknown : evalAnswer (fuel + k) env e = _ :=
      congrArg (Answer.ofRun Expr.erase) (hk k (Nat.le_refl k))
    refine .fault ((hanswer hknown Answer.fault_ne_unknown).trans ?_)
    exact congrArg Answer.fault hf.symm
  | limited limit hle hm => exact .limited limit _
  | unknown hle hm hy => exact .unfinished (congrArg (Answer.ofRun Expr.erase) hy)

theorem EvalsTo.answer {fuel : Nat} {r : Except Failure Expr × Session}
    (h : EvalsTo fuel env e a r) :
    Limited r.1 ∨ resultAnswer r.1 = a ∨ r.1 = .error .unfinished ∧
    evalAnswer fuel env e = .unknown := by
  cases h with
  | value _ _ ha => exact .inr (.inl ha.symm)
  | fault ha => exact .inr (.inl ha.symm)
  | limited limit => exact .inl ⟨limit, rfl⟩
  | unfinished h => exact .inr (.inr ⟨rfl, h⟩)

/-- An evaluation comes to the answer in the end. -/
theorem Fits.comes (hs : s.Fits Γ) (henv : ∀ c ∈ env.claims, Γ.Owns c)
    (he : ∀ c ∈ e.claims, Γ.Owns c)
    (h : Tends (fun n => evalAnswer n env e) a) : s.Comes env e a := by
  obtain ⟨n, hn⟩ := h.2
  refine ⟨fun fuel => ?_, n, fun fuel hle => ?_⟩
  · rcases (hs.evalsTo henv he h fuel).answer with hlimited | hanswer | ⟨hunfinished, -⟩
    · exact .inl hlimited
    · exact .inr (.inr hanswer)
    · exact .inr (.inl (congrArg resultAnswer hunfinished))
  · rcases (hs.evalsTo henv he h fuel).answer with hlimited | hanswer | ⟨hunfinished, hunknown⟩
    · exact .inl hlimited
    · exact .inr hanswer
    · exact .inr ((congrArg resultAnswer hunfinished).trans (hunknown.symm.trans (hn fuel hle)))

/-- An evaluation that ends with a value ends with the one that it comes to. -/
theorem Comes.of_ok (h : s.Comes env e a) {fuel : Nat} {v : Expr}
    (hv : (s.evalWithin fuel env e).1 = .ok v) :
    a = .value v.erase := by
  rcases h.below fuel with ⟨limit, hlimited⟩ | hbelow
  · cases hv.symm.trans hlimited
  · rw [hv] at hbelow
    exact hbelow.eq Answer.value_ne_unknown

/-- An evaluation that ends with a fault ends with the one that it comes to, unless evaluations are
nested too deeply. -/
theorem Comes.of_fault (h : s.Comes env e a) {fuel : Nat} {f : Fault}
    (hf : (s.evalWithin fuel env e).1 = .error (.fault f)) :
    Limited (s.evalWithin fuel env e).1 ∨ a = .fault f.erase := by
  rcases h.below fuel with hlimited | hbelow
  · exact .inl hlimited
  · rw [hf] at hbelow
    exact .inr (hbelow.eq Answer.fault_ne_unknown)

end Evaluations

end Session

/-! ## 2. Traversals -/

namespace LazyList

/-- With this fuel, the pulls at the first positions give answers. -/
def Reaches (n : Nat) : (count : Nat) → LazyList → Prop
  | 0, _ => True
  | count + 1, l => pullAnswer n l ≠ .unknown ∧
      ∀ x rest, pullAnswer n l = .value (some (x, rest)) → Reaches n count rest

theorem Reaches.alike {n count : Nat} {l l' : LazyList} (halike : l.Alike l')
    (h : l.Reaches n count) :
    l'.Reaches n count := by
  cases count with
  | zero => exact trivial
  | succ count => rwa [Reaches, ← pullAnswer_alike n halike]

theorem Has.reaches {l : LazyList} {k : Nat} {a : Answer (Option Expr)} (h : l.Has k a) :
    ∃ n, ∀ n', n ≤ n' → l.Reaches n' (k + 1) := by
  induction k generalizing l with
  | zero =>
    obtain ⟨n, hn⟩ := Has.pull h
    refine ⟨n, fun n' hle => ⟨?_, fun _ _ _ => trivial⟩⟩
    rw [(pullAnswer_more hle l).eq hn]
    exact hn
  | succ k ih =>
    obtain ⟨b, hb⟩ := h.before (Nat.zero_le (k + 1))
    rcases tends_pull hb with ⟨-, -, n, hn⟩ | ⟨e, -, -, n, hn⟩ | ⟨x, rest, -, ⟨-, n, hn⟩, hrest⟩
    · exact ⟨n, fun n' hle => by simp [Reaches, hn n' hle]⟩
    · exact ⟨n, fun n' hle => by simp [Reaches, hn n' hle]⟩
    · obtain ⟨i, hi⟩ := ih ((hrest k a).mpr h)
      refine ⟨max n i, fun n' hle => ?_⟩
      have hpull : pullAnswer n' l = .value (some (x, rest)) :=
        hn n' (Nat.le_trans (Nat.le_max_left n i) hle)
      rw [Reaches, hpull]
      refine ⟨Answer.value_ne_unknown, ?_⟩
      rintro _ _ ⟨⟩
      exact hi n' (Nat.le_trans (Nat.le_max_right n i) hle)

end LazyList

namespace Session

/-- The outcomes of one step of a traversal after another, each with a bound of its own. -/
def outcomes (s : Session) : (fuels : List Nat) → Traversal → List (Except Failure (Option Expr))
  | [], _ => []
  | fuel :: fuels, t =>
    let next := s.nextWithin fuel t
    next.1 :: next.2.2.outcomes fuels next.2.1

/-- A traversal of a list that has not begun. -/
def begin (s : Session) (l : LazyList) : Traversal := ⟨l, some s.current, false⟩

/-- **What the traversals of a list give**: the outcomes at the positions are these, as long as
evaluations are not nested too deeply, and come to an end; and with enough fuel they do. -/
structure Traverses (s : Session) (l : LazyList)
    (P : Nat → Answer (Option Expr) → Prop) : Prop where
  sound : ∀ fuels k o, (s.outcomes fuels (s.begin l))[k]? = some o →
    (∃ o' ∈ (s.outcomes fuels (s.begin l)).take (k + 1), Limited o' ∨ o' = .error .unfinished) ∨
      P k (outcomeAnswer o)
  complete : ∀ k a, P k a → ∃ n, ∀ fuels, (∀ fuel ∈ fuels, n ≤ fuel) → k < fuels.length →
    (∃ o' ∈ (s.outcomes fuels (s.begin l)).take (k + 1), Limited o') ∨
      ∃ o, (s.outcomes fuels (s.begin l))[k]? = some o ∧ outcomeAnswer o = a

theorem outcomes_cons {s s' : Session} {fuel : Nat} {t t' : Traversal}
    {o : Except Failure (Option Expr)} (h : s.nextWithin fuel t = (o, t', s')) (fuels : List Nat) :
    s.outcomes (fuel :: fuels) t = o :: s'.outcomes fuels t' := by
  simp only [outcomes, h]

theorem length_outcomes (s : Session) (fuels : List Nat) (t : Traversal) :
    (s.outcomes fuels t).length = fuels.length := by
  induction fuels generalizing s t with
  | nil => rfl
  | cons fuel fuels ih => exact congrArg Nat.succ (ih _ _)

/-- Something among the first outcomes is the first of them, or among those behind it. -/
theorem exists_mem_take_cons {α : Type} {Q : α → Prop} {x : α} {xs : List α} {k : Nat} :
    (∃ y ∈ (x :: xs).take (k + 1), Q y) ↔ Q x ∨ ∃ y ∈ xs.take k, Q y := by
  simp only [List.take_succ_cons, List.mem_cons, or_and_right, exists_or, exists_eq_left]

section Traversals

variable {s : Session} {Γ : Ledger}

/-- The outcomes of a traversal under way are those that the list has next. -/
theorem Fits.outcomes_sound {v : Visit} (hs : s.Fits Γ) (hv : v.Sound Γ)
    (hfree : ¬ v.LimitedBy v.outcomes.length) (fuels : List Nat) {k : Nat}
    {o : Except Failure (Option Expr)} (ho : (s.outcomes fuels v.traversal)[k]? = some o) :
    (∃ o' ∈ (s.outcomes fuels v.traversal).take (k + 1), Limited o' ∨ o' = .error .unfinished) ∨
      v.list.Has (v.outcomes.length + k) (outcomeAnswer o) := by
  induction fuels generalizing s Γ v k with
  | nil => cases ho
  | cons fuel fuels ih =>
    obtain ⟨o₀, t, s', hnext⟩ : ∃ o₀ t s', s.nextWithin fuel v.traversal = (o₀, t, s') :=
      ⟨_, _, _, rfl⟩
    rw [outcomes_cons hnext] at ho ⊢
    rw [exists_mem_take_cons]
    by_cases hdisturbed : Limited o₀ ∨ o₀ = .error .unfinished
    · exact .inl (.inl hdisturbed)
    · rw [not_or] at hdisturbed
      obtain ⟨Γ', -, hs', -, hv'⟩ := nextWithin_sound hs hv hnext hdisturbed.2
      have hfree' : ¬ Visit.LimitedBy ⟨v.list, t, v.outcomes ++ [o₀]⟩ (v.outcomes.length + 1) := by
        rw [Visit.limitedBy_append, not_or]
        exact ⟨hfree, hdisturbed.1⟩
      cases k with
      | zero =>
        cases ho
        have hhas := hv'.outcomes (k := v.outcomes.length) List.getElem?_concat_length
        exact .inr (hhas.resolve_left hfree')
      | succ k =>
        have hlength : (v.outcomes ++ [o₀]).length = v.outcomes.length + 1 := List.length_append
        rcases ih hs' hv' (hlength ▸ hfree') ho with hlater | hhas
        · exact .inl (.inr hlater)
        · rw [hlength, Nat.add_right_comm] at hhas
          exact .inr hhas

/-- A traversal that is over gives nothing any more. -/
theorem outcomes_finished {t : Traversal} {token : Nat} (ht : t.token = some token)
    (hfinished : t.finished = true) (fuels : List Nat) :
    ∀ o ∈ s.outcomes fuels t, o = .ok none := by
  have hnext : ∀ fuel, s.nextWithin fuel t = (.ok none, t, s) := fun fuel => by
    rw [nextWithin, ht, hfinished]
    rfl
  induction fuels with
  | nil =>
    intro o ho
    cases ho
  | cons fuel fuels ih =>
    rw [outcomes_cons (hnext fuel)]
    exact List.forall_mem_cons.mpr ⟨rfl, ih⟩

/-- Where the fuel is enough for the pulls, all steps come to an end. -/
theorem Fits.outcomes_ended {t : Traversal} {token n count : Nat} (hs : s.Fits Γ)
    (ht : t.token = some token) (hrest : t.finished = false) (howns : ∀ c ∈ t.rest.claims, Γ.Owns c)
    (hreaches : t.rest.Reaches n count) {fuels : List Nat} (hfuels : ∀ fuel ∈ fuels, n ≤ fuel) :
    ∀ o ∈ (s.outcomes fuels t).take count, o ≠ .error .unfinished := by
  induction count generalizing s Γ t fuels with
  | zero =>
    intro o ho
    cases ho
  | succ count ih =>
    cases fuels with
    | nil =>
      intro o ho
      cases ho
    | cons fuel fuels =>
      obtain ⟨hfuel, hfuels⟩ := List.forall_mem_cons.mp hfuels
      obtain ⟨rest, hpull⟩ := hs.nextWithin ht hrest fuel
      have hends := pullsTo hs.machine howns fuel
      generalize pull (.builtins Nat true (some maxDepth)) fuel t.rest s.machine = r at hends hpull
      -- a traversal that is over after this step has no more steps that could fail to end
      have hover : ∀ {s' : Session} {o t'}, s.nextWithin fuel t = (o, t', s') →
        o ≠ .error .unfinished → t'.token = some token → t'.finished = true →
          ∀ o' ∈ (s.outcomes (fuel :: fuels) t).take (count + 1), o' ≠ .error .unfinished := by
        intro s' o t' hnext ho ht' hfinished o' ho'
        rw [outcomes_cons hnext, List.take_succ_cons] at ho'
        rcases List.mem_cons.mp ho' with rfl | ho'
        · exact ho
        · rw [outcomes_finished ht' hfinished fuels o' (List.mem_of_mem_take ho')]
          exact nofun
      cases hends with
      | ended => exact hover hpull nofun ht rfl
      | fault => exact hover hpull nofun ht rfl
      | limited => exact hover hpull nofun ht rfl
      | unknown _ _ hunknown =>
        exact absurd ((pullAnswer_more hfuel t.rest).eq hreaches.1 ▸ hunknown) hreaches.1
      | @cons Γ' m k x rest' hle hm hx hrest' h =>
        rw [outcomes_cons hpull, List.take_succ_cons]
        refine List.forall_mem_cons.mpr ⟨nofun, ?_⟩
        refine ih (t := { t with rest := rest' }) (hs.keep token hm) ht hrest hrest' ?_ hfuels
        refine LazyList.Reaches.alike rest'.alike_erase.symm (hreaches.2 x.erase rest'.erase ?_)
        rw [← h, ← (pullAnswer_more (Nat.le_max_left n k) t.rest).eq hreaches.1]
        exact (pullAnswer_more (Nat.le_max_right n k) t.rest).eq (h ▸ Answer.value_ne_unknown)

/-- **A traversal gives the outcomes of its list.** -/
theorem Fits.traverses (hs : s.Fits Γ) {l : LazyList} (hl : ∀ c ∈ l.claims, Γ.Owns c) :
    s.Traverses l l.Has := by
  have hsound : ∀ fuels k o, (s.outcomes fuels (s.begin l))[k]? = some o →
      (∃ o' ∈ (s.outcomes fuels (s.begin l)).take (k + 1), Limited o' ∨ o' = .error .unfinished) ∨
        l.Has k (outcomeAnswer o) := by
    intro fuels k o ho
    have h := hs.outcomes_sound (Visit.sound_start s.current hl)
      (fun ⟨_, h, _⟩ => nomatch h) fuels ho
    rw [List.length_nil, Nat.zero_add] at h
    exact h
  refine ⟨hsound, fun k a ha => ?_⟩
  obtain ⟨n, hn⟩ := ha.reaches
  refine ⟨n, fun fuels hfuels hk => ?_⟩
  have hended := hs.outcomes_ended (t := s.begin l) rfl rfl hl (hn n (Nat.le_refl n)) hfuels
  have ho : (s.outcomes fuels (s.begin l))[k]? = some _ :=
    List.getElem?_eq_getElem (by rw [length_outcomes]; exact hk)
  rcases hsound fuels k _ ho with ⟨o', ho', hlimited | hunfinished⟩ | hhas
  · exact .inl ⟨o', ho', hlimited⟩
  · exact absurd hunfinished (hended o' ho')
  · exact .inr ⟨_, ho, hhas.unique ha⟩

end Traversals

/-! ## 3. Evaluations that give lists -/

/-- **An evaluation that gives a list**, the traversals of which give these outcomes. -/
structure Lists (s : Session) (env : Env) (e : Expr)
    (P : Nat → Answer (Option Expr) → Prop) : Prop where
  below : ∀ fuel, Limited (s.evalWithin fuel env e).1 ∨
    (s.evalWithin fuel env e).1 = .error .unfinished ∨
    ∃ l, (s.evalWithin fuel env e).1 = .ok (.list l) ∧ (s.evalWithin fuel env e).2.Traverses l P
  ends : ∃ n, ∀ fuel, n ≤ fuel → (s.evalWithin fuel env e).1 ≠ .error .unfinished

theorem Fits.lists {s : Session} {Γ : Ledger} {env : Env} {e : Expr} {l : LazyList}
    {P : Nat → Answer (Option Expr) → Prop} (hs : s.Fits Γ) (henv : ∀ c ∈ env.claims, Γ.Owns c)
    (he : ∀ c ∈ e.claims, Γ.Owns c)
    (h : Tends (fun n => evalAnswer n env e) (.value (.list l.erase)))
    (hP : ∀ k a, l.Has k a ↔ P k a) : s.Lists env e P := by
  obtain rfl : l.Has = P := funext fun k => funext fun a => propext (hP k a)
  obtain ⟨n, hn⟩ := h.2
  refine ⟨fun fuel => ?_, n, fun fuel hle => ?_⟩
  · have hends := hs.evalsTo henv he h fuel
    generalize s.evalWithin fuel env e = r at hends ⊢
    cases hends with
    | @value Γ' s' v hs' hv ha =>
      refine .inr (.inr ?_)
      cases v with
      | list l' =>
        have halike : l'.Alike l := (Expr.list.inj (Answer.value.inj ha)).symm
        refine ⟨l', rfl, ?_⟩
        rw [show l.Has = l'.Has from funext fun k => funext fun a =>
          propext (LazyList.has_alike halike.symm k a)]
        exact hs'.traverses hv
      | _ => cases ha
    | fault ha => cases ha
    | limited limit => exact .inl ⟨limit, rfl⟩
    | unfinished => exact .inr (.inl rfl)
  · intro hunfinished
    rcases (hs.evalsTo henv he h fuel).answer with ⟨limit, hlimited⟩ | hanswer | ⟨-, hunknown⟩
    · cases hunfinished.symm.trans hlimited
    · rw [hunfinished] at hanswer
      cases hanswer
    · cases hunknown.symm.trans (hn fuel hle)

end Session

end LazyExpr
