import Mathlib
import LazyExpr.Proofs.Eval.Data
import LazyExpr.Proofs.List.Runs

/-!
# Progressions of integers

A progression looks one element ahead: it adds the step before anyone asks for the sum, and where
the sum is out of range it is over.  So nothing wraps around, and the least and the largest integer
are elements like all others.

* `Progression.ElementAt start step stop k n`: the integer `n` is `k` steps away from the start, and
  not beyond the end.
* `advance_integers` — taking one element off: the progression goes on with the next value, or it is
  over.
* `outcomes_integers` — **a traversal gives the element at each position, and nothing from the first
  position on that has none.**
* `eval_integerRange` — a range literal has the step from its first element to its second, if that
  is in range.
* `integer_ranges` — both, and **the text of a range literal's value is evaluated to that value.**
-/

namespace LazyExpr

open Eval

/-! ## 1. Elements -/

namespace Progression

/-- The value is not beyond the end, in the direction of the step. -/
def Within (step : Int64) (stop : Option Int64) (value : Int) : Prop :=
  ∀ last, stop = some last →
    (0 < step.toInt → value ≤ last.toInt) ∧ (step.toInt < 0 → last.toInt ≤ value)

/-- The integer is so many steps away from the start, and not beyond the end. -/
def ElementAt (start step : Int64) (stop : Option Int64) (k : Nat) (n : Int64) : Prop :=
  n.toInt = start.toInt + k * step.toInt ∧ Within step stop n.toInt

/-- What there is at a position: the element there, or nothing where neither this position nor any
later one has an element. -/
def OutcomeAt (start step : Int64) (stop : Option Int64) (k : Nat) : Option Expr → Prop
  | some x => ∃ n, x = .integer n ∧ ElementAt start step stop k n
  | none => ∀ j n, k ≤ j → ¬ElementAt start step stop j n

section Elements

variable {start step next n : Int64} {stop : Option Int64} {k : Nat}

/-- Positions are counted from the next element on. -/
theorem elementAt_succ (hnext : next.toInt = start.toInt + step.toInt) :
    ElementAt start step stop (k + 1) n ↔ ElementAt next step stop k n := by
  unfold ElementAt
  rw [hnext, Nat.cast_succ, add_mul, one_mul, add_assoc, add_comm step.toInt]

theorem OutcomeAt.succ (hnext : next.toInt = start.toInt + step.toInt) {o : Option Expr}
    (h : OutcomeAt next step stop k o) : OutcomeAt start step stop (k + 1) o := by
  cases o with
  | some x =>
    obtain ⟨n, hx, hn⟩ := h
    exact ⟨n, hx, (elementAt_succ hnext).mpr hn⟩
  | none =>
    intro j n hj hn
    obtain ⟨j, rfl⟩ : ∃ i, j = i + 1 := ⟨j - 1, by omega⟩
    exact h j n (Nat.le_of_succ_le_succ hj) ((elementAt_succ hnext).mp hn)

/-- A progression that does not move stays at its start, whatever its end is. -/
theorem OutcomeAt.constant {o : Option Expr} (h : OutcomeAt start 0 stop k o) :
    o = some (.integer start) := by
  cases o with
  | some x =>
    obtain ⟨n, rfl, hn, -⟩ := h
    rw [Int64.toInt_zero, mul_zero, add_zero, Int64.toInt_inj] at hn
    rw [hn]
  | none =>
    refine absurd ⟨?_, fun last _ => ⟨fun h => ?_, fun h => ?_⟩⟩ (h k start (Nat.le_refl k))
    · rw [Int64.toInt_zero, mul_zero, add_zero]
    · exact absurd h (by decide)
    · exact absurd h (by decide)

/-- Nothing comes behind the end. -/
theorem OutcomeAt.ended {o : Option Expr} {j : Nat}
    (h : OutcomeAt start step stop k none) (hj : k ≤ j)
    (ho : OutcomeAt start step stop j o) : o = none := by
  cases o with
  | none => rfl
  | some x =>
    obtain ⟨n, -, hn⟩ := ho
    exact absurd hn (h j n hj)

/-- Where the start is beyond the end, so is everything behind it. -/
theorem not_elementAt_of_over (h : ¬Within step stop start.toInt) (k : Nat) (n : Int64) :
    ¬ElementAt start step stop k n := by
  rintro ⟨hn, hwithin⟩
  refine h fun last hlast => ?_
  obtain ⟨hup, hdown⟩ := hwithin last hlast
  refine ⟨fun hpos => ?_, fun hneg => ?_⟩
  · have := hup hpos
    have : 0 ≤ k * step.toInt := by positivity
    omega
  · have := hdown hneg
    have : k * step.toInt ≤ 0 := mul_nonpos_of_nonneg_of_nonpos (Int.natCast_nonneg k) hneg.le
    omega

/-- Where the next value is out of range, so is everything behind it. -/
theorem not_elementAt_of_overflow (h : int64OfInt? (start.toInt + step.toInt) = none)
    (k : Nat) (n : Int64) :
    ¬ElementAt start step stop (k + 1) n := by
  rintro ⟨hn, -⟩
  have hrange : ¬(Int64.minValue.toInt ≤ start.toInt + step.toInt ∧
      start.toInt + step.toInt ≤ Int64.maxValue.toInt) := by
    intro hrange
    rw [int64OfInt?, if_pos hrange] at h
    cases h
  have hmin : Int64.minValue.toInt = -2 ^ 63 := by decide
  have hmax : Int64.maxValue.toInt = 2 ^ 63 - 1 := by decide
  have hstart := start.le_toInt
  have hstart' := start.toInt_lt
  have hlow := n.le_toInt
  have hhigh := n.toInt_lt
  rw [Nat.cast_succ, add_mul, one_mul] at hn
  -- the next value lies between the start and the element, and both are in range
  rcases le_or_gt 0 step.toInt with hstep | hstep
  · have : 0 ≤ k * step.toInt := by positivity
    omega
  · have : k * step.toInt ≤ 0 := mul_nonpos_of_nonneg_of_nonpos (Int.natCast_nonneg k) hstep.le
    omega

end Elements

/-! ## 2. One element -/

section Advance

variable {start step : Int64} {stop : Option Int64}

/-- A progression is over where its start is beyond its end. -/
theorem isOver_integers :
    isOver ⟨.integer start, .integer step, stop.map .integer⟩ = false ↔
    Within step stop start.toInt := by
  cases stop with
  | none => simp [isOver, Within]
  | some last =>
    have hzero : step = 0 ↔ step.toInt = 0 := by rw [← Int64.toInt_inj, Int64.toInt_zero]
    have hneg : step < 0 ↔ step.toInt < 0 := by rw [Int64.lt_iff_toInt_lt, Int64.toInt_zero]
    simp only [isOver, Within, Option.map_some, Number.isZero, Number.isNegative, Number.compare,
      Option.some.injEq, forall_eq', Bool.and_eq_false_iff, Bool.not_eq_false', beq_iff_eq, hzero,
      beq_eq_false_iff_ne, decide_eq_true_eq, hneg]
    rcases lt_trichotomy step.toInt 0 with h | h | h
    · simp [h, h.ne, h.not_gt, Int.compare_eq_lt]
    · simp [h]
    · simp [h, h.ne', h.not_gt, Int.compare_eq_gt]

/-- The first element of a progression that goes on. -/
theorem advance_next {next : Int64} (h : Within step stop start.toInt)
    (hnext : int64OfInt? (start.toInt + step.toInt) = some next) :
    advanceProgression ⟨.integer start, .integer step, stop.map .integer⟩ =
      ⟨.ok (some (.integer start)), .progression
        ⟨.integer next, .integer step, stop.map .integer⟩⟩ := by
  rw [advanceProgression, head?, isOver_integers.mpr h]
  simp only [tail?, Number.add?, hnext]
  rfl

/-- The last element in range. -/
theorem advance_last (h : Within step stop start.toInt)
    (hnext : int64OfInt? (start.toInt + step.toInt) = none) :
    advanceProgression ⟨.integer start, .integer step, stop.map .integer⟩ =
      ⟨.ok (some (.integer start)), .empty⟩ := by
  rw [advanceProgression, head?, isOver_integers.mpr h]
  simp only [tail?, Number.add?, hnext]
  rfl

/-- The end. -/
theorem advance_over (h : ¬Within step stop start.toInt) :
    advanceProgression ⟨.integer start, .integer step, stop.map .integer⟩ = ⟨.ok none, .empty⟩ := by
  have hover : isOver ⟨.integer start, .integer step, stop.map .integer⟩ = true := by
    rwa [← Bool.not_eq_false, isOver_integers]
  rw [advanceProgression, head?, hover]
  rfl

/-- **Taking one element off**: either there is a next value and the progression goes on with it, or
what comes now, an element or nothing, is the last that ever comes. -/
theorem advance_integers (start step : Int64) (stop : Option Int64) :
    (∃ next : Int64, next.toInt = start.toInt + step.toInt ∧
      OutcomeAt start step stop 0 (some (.integer start)) ∧
      advanceProgression ⟨.integer start, .integer step, stop.map .integer⟩ =
        ⟨.ok (some (.integer start)), .progression
          ⟨.integer next, .integer step, stop.map .integer⟩⟩) ∨
    (∃ o, OutcomeAt start step stop 0 o ∧ (∀ k, OutcomeAt start step stop (k + 1) none) ∧
      advanceProgression ⟨.integer start, .integer step, stop.map .integer⟩ = ⟨.ok o, .empty⟩) := by
  by_cases hwithin : Within step stop start.toInt
  · have hfirst : OutcomeAt start step stop 0 (some (.integer start)) :=
      ⟨start, rfl, by simp, hwithin⟩
    cases hnext : int64OfInt? (start.toInt + step.toInt) with
    | some next =>
      exact .inl ⟨next, int64OfInt?_eq_some_iff.mp hnext, hfirst, advance_next hwithin hnext⟩
    | none =>
      refine .inr ⟨_, hfirst, fun k j n hj => ?_, advance_last hwithin hnext⟩
      obtain ⟨j, rfl⟩ : ∃ i, j = i + 1 := ⟨j - 1, by omega⟩
      exact not_elementAt_of_overflow hnext j n
  · have hnothing : ∀ k, OutcomeAt start step stop k none :=
      fun _ j n _ => not_elementAt_of_over hwithin j n
    exact .inr ⟨none, hnothing 0, fun k => hnothing (k + 1), advance_over hwithin⟩

end Advance

end Progression

/-! ## 3. Traversals -/

namespace Session

variable {s : Session} {t : Traversal}

/-- The traversal's token, if it has one, was not asked to stop, and there is no deadline. -/
def Undisturbed (s : Session) (t : Traversal) : Prop :=
  ∀ token, t.token = some token → s.isCancelled token = false ∧ s.machine.checksLeft = none

/-- A step that needs nothing of the machine: its outcome comes first, and the traversal goes on
with what is left of the list. -/
theorem outcomes_pure {fuel : Nat} {o : Option Expr} {rest : LazyList} (hs : s.Undisturbed t)
    (hopen : t.finished = false) (h : advance s.setting fuel t.rest = pure ⟨.ok o, rest⟩)
    (fuels : List Nat) :
    ∃ s' t', s.outcomes (fuel :: fuels) t = .ok o :: outcomes s' fuels t' ∧ s'.Undisturbed t' ∧
      t'.rest = rest ∧ (t'.finished = true → t'.token.isSome = true ∧ o = none) := by
  obtain ⟨list, token, finished⟩ := t
  obtain rfl : finished = false := hopen
  cases token with
  | none =>
    have hnext : ∃ s', s.nextWithin fuel ⟨list, none, false⟩ =
      (.ok o, ⟨rest, none, false⟩, s') := by
      simp only [nextWithin, run, h]
      exact ⟨_, rfl⟩
    obtain ⟨s', hnext⟩ := hnext
    refine ⟨s', _, outcomes_cons hnext fuels, ?_, rfl, ?_⟩
    · rintro _ ⟨⟩
    · rintro ⟨⟩
  | some token =>
    obtain ⟨hawake, hdeadline⟩ := hs token rfl
    have hbody : ∀ m : Machine Nat, m.Plain →
      (Eval.check >>= fun _ => advance s.setting fuel list) m = .ok ⟨.ok o, rest⟩ m := by
      intro m hm
      rw [bind_run, check_plain hm, h]
      rfl
    have hplain : ({ s.machine with cancelled := false } : Machine Nat).Plain := ⟨rfl, hdeadline⟩
    have hnext : s.nextWithin fuel ⟨list, some token, false⟩ =
        (.ok o, ⟨rest, some token, o.isNone⟩,
          s.keep token { s.machine with cancelled := false }) := by
      simp only [nextWithin, run, hawake, hbody _ hplain]
      cases o <;> rfl
    refine ⟨_, _, outcomes_cons hnext fuels, ?_, rfl, fun h =>
      ⟨rfl, Option.isNone_iff_eq_none.mp h⟩⟩
    rintro _ ⟨⟩
    refine ⟨?_, hdeadline⟩
    simp only [isCancelled, keep, Array.getElem?_setIfInBounds]
    split
    · split <;> rfl
    · exact hawake

/-- Behind the end there is nothing any more. -/
theorem outcomes_empty {fuels : List Nat} (hs : s.Undisturbed t) (hempty : t.rest = .empty)
    (hfinished : t.finished = true → t.token.isSome = true) (hfuels : ∀ fuel ∈ fuels, 0 < fuel) :
    ∀ o ∈ s.outcomes fuels t, o = .ok none := by
  induction fuels generalizing s t with
  | nil => exact nofun
  | cons fuel fuels ih =>
    obtain ⟨hfuel, hmore⟩ := List.forall_mem_cons.mp hfuels
    obtain ⟨fuel, rfl⟩ : ∃ n, fuel = n + 1 := ⟨fuel - 1, by omega⟩
    cases hopen : t.finished with
    | true =>
      obtain ⟨token, htoken⟩ := Option.isSome_iff_exists.mp (hfinished hopen)
      exact outcomes_finished htoken hopen _
    | false =>
      have hadvance : advance s.setting (fuel + 1) t.rest = pure ⟨.ok none, .empty⟩ := by
        rw [hempty]
        rfl
      obtain ⟨s', t', houtcomes, hs', hrest, hover⟩ := outcomes_pure hs hopen hadvance fuels
      rw [houtcomes]
      exact List.forall_mem_cons.mpr ⟨rfl, ih hs' hrest (fun h => (hover h).1) hmore⟩

/-- **A traversal of a progression of integers gives its elements in order**, and nothing from the
first position on that has none. -/
theorem outcomes_integers {start step : Int64} {stop : Option Int64} {fuels : List Nat}
    (hs : s.Undisturbed t) (hopen : t.finished = false)
    (hrest : t.rest = .progression ⟨.integer start, .integer step, stop.map .integer⟩)
    (hfuels : ∀ fuel ∈ fuels, 0 < fuel) {k : Nat} (hk : k < fuels.length) :
    ∃ o, (s.outcomes fuels t)[k]? = some (.ok o) ∧ Progression.OutcomeAt start step stop k o := by
  induction fuels generalizing s t start k with
  | nil => exact absurd hk (Nat.not_lt_zero k)
  | cons fuel fuels ih =>
    obtain ⟨hfuel, hmore⟩ := List.forall_mem_cons.mp hfuels
    obtain ⟨fuel, rfl⟩ : ∃ n, fuel = n + 1 := ⟨fuel - 1, by omega⟩
    have hadvance : advance s.setting (fuel + 1) t.rest =
        pure (advanceProgression ⟨.integer start, .integer step, stop.map .integer⟩) := by
      rw [hrest]
      rfl
    rcases Progression.advance_integers start step stop with
      ⟨next, hnext, hfirst, hstep⟩ | ⟨o, hfirst, hbehind, hstep⟩
    · rw [hstep] at hadvance
      obtain ⟨s', t', houtcomes, hs', hrest', hover⟩ := outcomes_pure hs hopen hadvance fuels
      rw [houtcomes]
      cases k with
      | zero => exact ⟨_, rfl, hfirst⟩
      | succ k =>
        have hopen' : t'.finished = false := Bool.eq_false_iff.mpr fun h => nomatch (hover h).2
        obtain ⟨o, ho, houtcome⟩ := ih hs' hopen' hrest' hmore (Nat.lt_of_succ_lt_succ hk)
        exact ⟨o, ho, houtcome.succ hnext⟩
    · rw [hstep] at hadvance
      obtain ⟨s', t', houtcomes, hs', hrest', hover⟩ := outcomes_pure hs hopen hadvance fuels
      rw [houtcomes]
      cases k with
      | zero => exact ⟨o, rfl, hfirst⟩
      | succ k =>
        -- what is left is the empty list, which has no elements at any position
        have hlength : k < (s'.outcomes fuels t').length := by
          rw [length_outcomes]
          exact Nat.lt_of_succ_lt_succ hk
        have hnothing := outcomes_empty hs' hrest' (fun h => (hover h).1) hmore _
          (List.getElem_mem hlength)
        refine ⟨none, ?_, hbehind k⟩
        rw [List.getElem?_cons_succ, List.getElem?_eq_getElem hlength, hnothing]

end Session

/-! ## 4. Range literals -/

section Literals

variable {σ : Type} {S : Setting σ} {n : Nat} {env : Env}

/-- `EvaluatesTo S n env bound a m m'`: on the machine `m` the bound, if there is one, is evaluated
to the integer `a`, and leaves the machine `m'`. -/
inductive EvaluatesTo (S : Setting σ) (n : Nat) (env : Env) :
    Option Expr → Option Int64 → Machine σ → Machine σ → Prop where
  | none (m : Machine σ) : EvaluatesTo S n env none none m m
  | some {e : Expr} {a : Int64} {m m' : Machine σ} (h : eval S n env e m = .ok (.integer a) m') :
    EvaluatesTo S n env (some e) (some a) m m'

/-- The step of a range literal: from the first element to the second, or one. -/
def literalStep (first : Int64) : Option Int64 → Int
  | none => 1
  | some second => second.toInt - first.toInt

theorem rangeUpTo_integers {start step : Int64} {stop : Option Expr} {last : Option Int64}
    {m m' : Machine σ} (h : EvaluatesTo S n env stop last m m') :
    rangeUpTo S n env (.integer start) (.integer step) stop m =
      .ok (.list (.progression (.ofBounds (.integer start) (.integer step) (last.map .integer))))
        m' := by
  cases h with
  | none => rfl
  | some h =>
    rw [rangeUpTo, bind_run, h]
    rfl

/-- Behind the second element, the step is what it is away from the first. -/
theorem rangeStep_integers {second : Int64} {e : Expr} {m m' : Machine σ}
    (h : eval S n env e m = .ok (.integer second) m') (first : Int64) (stop : Option Expr) :
    (eval S n env e >>= fun v => lift v.asNumber >>= fun k =>
      match k.sub? (.integer first) with
      | some step => rangeUpTo S n env (.integer first) step stop
      | none => fail (.overflow "..")) m =
      match int64OfInt? (second.toInt - first.toInt) with
      | some step => rangeUpTo S n env (.integer first) (.integer step) stop m'
      | none => .error (.fault (.overflow "..")) m' := by
  rw [bind_run, h]
  show (match (int64OfInt? (second.toInt - first.toInt)).map Number.integer with
    | some step => rangeUpTo S n env (.integer first) step stop
    | none => fail (.overflow "..")) m' = _
  cases int64OfInt? (second.toInt - first.toInt) <;> rfl

/-- An expression is evaluated inside of one more level, where there is one. -/
theorem checked_run {α : Type} {x : Eval σ α} {limit : Option Nat} {m m₀ : Machine σ}
    (hcheck : check m = .ok () m₀) (hroom : ∀ l, limit = some l → m₀.depth < l) :
    (check >>= fun _ => nested limit x) m =
      Ended.atDepth m₀.depth (x { m₀ with depth := m₀.depth + 1 }) := by
  rw [bind_run, hcheck]
  show nested limit x m₀ = _
  cases limit with
  | none => rw [nested_none, above_run]
  | some l => rw [nested_some, if_neg (Nat.not_le.mpr (hroom l rfl)), above_run]

/-- **A range literal of integers has the step from its first element to its second**, and it
overflows where that step is out of range. -/
theorem eval_integerRange {start : Expr} {second stop : Option Expr} {m m₀ m₁ m₂ : Machine σ}
    {first : Int64} {next : Option Int64} (hcheck : check m = .ok () m₀)
    (hroom : ∀ l, S.depthLimit = some l → m₀.depth < l)
    (hstart : eval S n env start { m₀ with depth := m₀.depth + 1 } = .ok (.integer first) m₁)
    (hsecond : EvaluatesTo S n env second next m₁ m₂) :
    (∀ (step : Int64) (last : Option Int64) (m₃ : Machine σ), step.toInt = literalStep first next →
      EvaluatesTo S n env stop last m₂ m₃ → eval S (n + 1) env (.range start second stop) m =
        .ok (.list (.progression (.ofBounds (.integer first) (.integer step) (last.map .integer))))
          { m₃ with depth := m₀.depth }) ∧
    ((∀ step : Int64, step.toInt ≠ literalStep first next) →
      eval S (n + 1) env (.range start second stop) m =
        .error (.fault (.overflow "..")) { m₂ with depth := m₀.depth }) := by
  rw [eval_range, checked_run hcheck hroom, bind_run, hstart]
  cases hsecond with
  | none =>
    refine ⟨fun step last m₃ hstep hstop => ?_, fun hstep => absurd rfl (hstep 1)⟩
    obtain rfl : step = 1 := Int64.toInt_inj.mp hstep
    exact congrArg (Ended.atDepth m₀.depth) (rangeUpTo_integers hstop)
  | @some e second _ _ hsecond =>
    have hrun := congrArg (Ended.atDepth m₀.depth) (rangeStep_integers hsecond first stop)
    refine ⟨fun step last m₃ hstep hstop => hrun.trans ?_, fun hstep => hrun.trans ?_⟩
    · have hsome : int64OfInt? (second.toInt - first.toInt) = some step :=
        int64OfInt?_eq_some_iff.mpr hstep
      rw [hsome]
      exact congrArg (Ended.atDepth m₀.depth) (rangeUpTo_integers hstop)
    · have hnone : int64OfInt? (second.toInt - first.toInt) = none :=
        Option.eq_none_iff_forall_ne_some.mpr fun step h =>
          hstep step (int64OfInt?_eq_some_iff.mp h)
      rw [hnone]
      rfl

end Literals

/-! ## 5. Reading a range back -/

/-- The value of a range literal is written as a range literal, and the text is evaluated to that
value again, in every scope, environment and setting that leaves four levels. -/
def Progression.ReadsBack (p : Progression) : Prop :=
  ∃ text, (∀ fuel, 2 ≤ fuel → (Expr.list (.progression p)).display? fuel = some text) ∧
    ∀ scope, ∃ e, parseIn scope text = .ok e ∧ ∀ (σ : Type) (S : Setting σ) (n : Nat) (env : Env),
      Gives S.depthLimit 4 (eval S (n + 4) env e) (· = .list (.progression p))

theorem Progression.OfLiteral.readsBack {p : Progression} (h : p.OfLiteral) : p.ReadsBack := by
  refine ⟨p.source, fun fuel hfuel => ?_, fun scope => ⟨p.spelling, ?_, fun σ S n env => ?_⟩⟩
  · obtain ⟨fuel, rfl⟩ : ∃ f, fuel = f + 2 := ⟨fuel - 2, by omega⟩
    rfl
  · obtain ⟨ts, hwritten, hwithin⟩ := written_progression scope p
    have hlexes := hwritten.spells [] [] (.inl rfl) .nil
    have hreads := hwithin [] (by simp [Token.Closes])
    simp only [List.append_nil] at hlexes hreads
    exact parseIn_eq_ok hlexes hreads (by decide) (by decide)
  · exact gives_progression h env

theorem ofLiteral_of_literalStep {first step : Int64} {next : Option Int64}
    (h : step.toInt = literalStep first next) (last : Option Int64) :
    Progression.OfLiteral (.ofBounds (.integer first) (.integer step) (last.map .integer)) := by
  rw [Progression.ofBounds_integers]
  cases next with
  | none =>
    obtain rfl : step = 1 := Int64.toInt_inj.mp h
    exact .unit first last
  | some second =>
    exact .stepped last (congrArg (·.map Number.integer) (int64OfInt?_eq_some_iff.mpr h))

/-! ## 6. All of it -/

/-- **Ranges of integers**: a traversal gives the elements in their order and nothing behind the
last one; a literal has the step from its first element to its second, and overflows exactly where
that step is out of range; and the text of its value is evaluated to that value. -/
theorem integer_ranges :
    (∀ (start step : Int64) (stop : Option Int64) (s : Session) (t : Traversal)
      (fuels : List Nat) (k : Nat),
      t.rest = .progression (.ofBounds (.integer start) (.integer step) (stop.map .integer)) →
      t.finished = false → s.Undisturbed t → (∀ fuel ∈ fuels, 0 < fuel) → k < fuels.length →
      ∃ o, (s.outcomes fuels t)[k]? = some (.ok o) ∧ Progression.OutcomeAt start step stop k o ∧
        (step = 0 → o = some (.integer start)) ∧
        (o = none → ∀ j, k ≤ j → j < fuels.length → (s.outcomes fuels t)[j]? = some (.ok none))) ∧
    (∀ (σ : Type) (S : Setting σ) (n : Nat) (env : Env) (start : Expr) (second stop : Option Expr)
      (first : Int64) (next : Option Int64) (m m₀ m₁ m₂ : Machine σ), check m = .ok () m₀ →
      (∀ l, S.depthLimit = some l → m₀.depth < l) →
      eval S n env start { m₀ with depth := m₀.depth + 1 } = .ok (.integer first) m₁ →
      EvaluatesTo S n env second next m₁ m₂ →
      (∀ (step : Int64) (last : Option Int64) (m₃ : Machine σ), step.toInt =
        literalStep first next →
        EvaluatesTo S n env stop last m₂ m₃ → eval S (n + 1) env (.range start second stop) m =
          .ok (.list
            (.progression (.ofBounds (.integer first) (.integer step) (last.map .integer))))
            { m₃ with depth := m₀.depth }) ∧
      ((∀ step : Int64, step.toInt ≠ literalStep first next) →
        eval S (n + 1) env (.range start second stop) m =
          .error (.fault (.overflow "..")) { m₂ with depth := m₀.depth })) ∧
    (∀ (first step : Int64) (next last : Option Int64), step.toInt = literalStep first next →
      Progression.ReadsBack (.ofBounds (.integer first) (.integer step) (last.map .integer))) := by
  refine ⟨?_, fun σ S n env start second stop first next m m₀ m₁ m₂ => eval_integerRange,
    fun first step next last h => (ofLiteral_of_literalStep h last).readsBack⟩
  intro start step stop s t fuels k hrest hopen hs hfuels hk
  rw [Progression.ofBounds_integers] at hrest
  have houtcomes : ∀ j, j < fuels.length →
      ∃ o, (s.outcomes fuels t)[j]? = some (.ok o) ∧ Progression.OutcomeAt start step stop j o :=
    fun j hj => Session.outcomes_integers hs hopen hrest hfuels hj
  obtain ⟨o, ho, hat⟩ := houtcomes k hk
  refine ⟨o, ho, hat, ?_, ?_⟩
  · rintro rfl
    exact hat.constant
  · rintro rfl j hj hlt
    obtain ⟨o', ho', hat'⟩ := houtcomes j hlt
    rw [ho', hat.ended hj hat']

/-- A traversal up to the largest integer, a literal whose step is out of range, and a range down to
the least integer. -/
theorem integer_ranges_extremes :
    let t : Traversal :=
      ⟨.progression (.ofBounds (.integer (Int64.maxValue - 1)) (.integer 1) none), some 0, false⟩
    (Session.fresh.Undisturbed t ∧
      ∃ o, (Session.fresh.outcomes [1, 1, 1] t)[2]? = some (.ok o) ∧
        Progression.OutcomeAt (Int64.maxValue - 1) 1 none 2 o) ∧
    eval .standard 2 .top
      (.range (.integer Int64.minValue) (some (.integer Int64.maxValue)) none) (.fresh ()) =
      .error (.fault (.overflow "..")) (.fresh ()) ∧
    Progression.ReadsBack
      (.ofBounds (.integer 0) (.integer (-1)) (some (.integer Int64.minValue))) := by
  intro t
  have hawake : Session.fresh.Undisturbed t := by
    rintro _ ⟨⟩
    exact ⟨rfl, rfl⟩
  have hfuels : ∀ fuel ∈ [1, 1, 1], 0 < fuel := by decide
  have hlast := integer_ranges.1 (Int64.maxValue - 1) 1 none Session.fresh t
    [1, 1, 1] 2 rfl rfl hawake hfuels
    (by decide)
  have hbelow : ∀ step : Int64, step.toInt ≠ literalStep Int64.minValue (some Int64.maxValue) := by
    intro step hstep
    have hwide : literalStep Int64.minValue (some Int64.maxValue) = 2 ^ 64 - 1 := by decide
    have := step.toInt_lt
    omega
  have hroom : ∀ l, Setting.standard.depthLimit = some l → (Machine.fresh ()).depth < l := by
    rintro _ ⟨⟩
    decide
  have hliteral := integer_ranges.2.1 Unit .standard 1 .top (.integer Int64.minValue)
    (some (.integer Int64.maxValue)) none Int64.minValue (some Int64.maxValue) (.fresh ())
      (.fresh ()) _ _ rfl
    hroom rfl (.some rfl)
  have htext := integer_ranges.2.2 0 (-1) (some (-1)) (some Int64.minValue) (by decide)
  exact ⟨⟨hawake, hlast.imp fun o h => ⟨h.1, h.2.1⟩⟩, hliteral.2 hbelow, htext⟩

end LazyExpr
