import Mathlib
import LazyExpr.Proofs.Decimal.Monotone
import LazyExpr.Proofs.List.Outcomes
import LazyExpr.Request

/-!
# Lists that say they are finite

Whether a list is infinite is decided by its shape: a range is infinite without an end or without a
step. Functions that go through a whole list trust that.  A range with an end and a step does end,
as long as adding the step moves it; but sums of decimals are rounded, and when the step is too
small for the elements, the sum of the two is the element itself.  Then the range comes to a
standstill before its end (`Progression.Stalls`) and goes on forever.

The measure is the distance to the end, as a whole number.  It grows smaller with each element that
differs from the one before, since rounded sums move in one direction only.

A traversal asks for one position after another, and ends with the first fault.  What it asks of the
lists that its list is made of depends on what is made of their elements: so the positions that are
asked for are carried through the form of the list.

* `Progression.complete_or_stalls` — a range with an end and a step ends, or comes to a standstill.
* `not_stalls_of_integers` — a range of integers with a step never does.
* `Trace.Over.visit` — what is made of the elements of a list comes to an end with the list.
* `LazyList.finite_or_stalls` — **a list that says it is finite is finite**, unless one of its
  ranges comes to a standstill, as far as its elements, functions and predicates give answers:
  values, or faults whose messages can be written.
-/

namespace LazyExpr

open Eval

/-! ## 1. Numbers on one line -/

namespace Number

/-- The value in units of the last digit that a decimal can have. -/
def units (n : Number) : Int := n.toDecimal.units

theorem units_integer (n : Int64) : (integer n).units = n.toInt * 10 ^ maxScale := by
  show (Decimal.ofInt64 n).signed * 10 ^ (maxScale - 0) = _
  congr 1
  by_cases hn : n.toInt < 0
  · simp only [Decimal.signed, Decimal.ofInt64, hn, decide_true, if_true]
    omega
  · simp only [Decimal.signed, Decimal.ofInt64, hn, decide_false, Bool.false_eq_true, if_false]
    omega

theorem compare_eq_units (a b : Number) : a.compare b = Ord.compare a.units b.units := by
  match a, b with
  | integer m, integer n =>
    have hpos : (0 : Int) < 10 ^ maxScale := by positivity
    rw [units_integer, units_integer]
    show Ord.compare m.toInt n.toInt = _
    rcases Int.lt_trichotomy m.toInt n.toInt with h | h | h
    · rw [compare_lt_iff_lt.mpr h, compare_lt_iff_lt.mpr (Int.mul_lt_mul_of_pos_right h hpos)]
    · rw [h, compare_eq_iff_eq.mpr rfl, compare_eq_iff_eq.mpr rfl]
    · rw [compare_gt_iff_gt.mpr h, compare_gt_iff_gt.mpr (Int.mul_lt_mul_of_pos_right h hpos)]
  | integer _, decimal _ => exact Decimal.compare_eq_units _ _
  | decimal _, integer _ => exact Decimal.compare_eq_units _ _
  | decimal _, decimal _ => exact Decimal.compare_eq_units _ _

theorem units_neg_iff {n : Number} : n.units < 0 ↔ n.isNegative = true := by
  cases n with
  | integer n =>
    have hpos : (0 : Int) < 10 ^ maxScale := by positivity
    rw [units_integer, ← not_le, mul_nonneg_iff_of_pos_right hpos, not_le, isNegative,
      decide_eq_true_eq, Int64.lt_iff_toInt_lt]
    rfl
  | decimal d => exact Decimal.units_neg_iff

theorem units_pos_iff {n : Number} : 0 < n.units ↔ n.isZero = false ∧ n.isNegative = false := by
  cases n with
  | integer n =>
    have hpos : (0 : Int) < 10 ^ maxScale := by positivity
    have hzero : n = 0 ↔ n.toInt = 0 := by
      rw [← Int64.toInt_inj]
      rfl
    rw [units_integer, mul_pos_iff_of_pos_right hpos, isNegative, isZero, decide_eq_false_iff_not,
      Int64.lt_iff_toInt_lt, beq_eq_false_iff_ne, ne_eq, hzero]
    show _ ↔ _ ∧ ¬ n.toInt < 0
    omega
  | decimal d => exact Decimal.units_pos_iff

/-- A sum of integers is exact. -/
theorem units_of_integers {a b c : Number} (ha : a.isDecimal = false) (hb : b.isDecimal = false)
    (h : a.add? b = some c) : c.isDecimal = false ∧ c.units = a.units + b.units := by
  match a, b with
  | integer m, integer n =>
    obtain ⟨k, hk, rfl⟩ := Option.map_eq_some_iff.mp h
    rw [int64OfInt?_eq_some_iff] at hk
    refine ⟨rfl, ?_⟩
    rw [units_integer, units_integer, units_integer, hk, Int.add_mul]

/-- A sum lies on the side of the first operand to which the second one points. -/
theorem add?_units {a b c : Number} (h : a.add? b = some c) :
    (0 ≤ b.units → a.units ≤ c.units) ∧ (b.units ≤ 0 → c.units ≤ a.units) := by
  have hdecimal : ∀ {d e : Decimal}, (d.add? e).map decimal = some c →
      (0 ≤ e.units → d.units ≤ c.units) ∧ (e.units ≤ 0 → c.units ≤ d.units) := by
    intro d e h
    obtain ⟨f, hf, rfl⟩ := Option.map_eq_some_iff.mp h
    exact Decimal.add?_units hf
  match a, b with
  | integer m, integer n =>
    have hsum := (units_of_integers rfl rfl h).2
    omega
  | integer _, decimal _ => exact hdecimal h
  | decimal _, integer _ => exact hdecimal h
  | decimal _, decimal _ => exact hdecimal h

end Number

/-! ## 2. Sequences that come to an end -/

/-- The evaluation comes back with a value, or with a fault and its message. -/
def Answer.Returns {α : Type} : Answer α → Prop
  | value _ => True
  | fault e => e.HasText
  | unknown => False

theorem Answer.Returns.ne_unknown {α : Type} {a : Answer α} (h : a.Returns) : a ≠ .unknown := by
  rintro rfl
  exact h

theorem Answer.Returns.map {α β : Type} {a : Answer α} (h : a.Returns) (f : α → β) :
    (a.map f).Returns := by
  cases a with
  | value => trivial
  | fault => exact h
  | unknown => exact h

namespace Trace

/-- All of the sequence is known, to its end. -/
def Complete : Trace → Prop
  | unknown | failed _ => False
  | ended => True
  | cons _ t => t.Complete

/-- The outcome at a position, in a sequence of which more is known with more fuel. -/
def Gives (t : Nat → Trace) (k : Nat) (a : Answer (Option Expr)) : Prop :=
  a ≠ .unknown ∧ ∃ n, (t n).get k = a

/-- Elements come one after another, until there is an end or a fault with its message, or a
position that is not asked for. -/
def Over (P : Nat → Prop) (t : Nat → Trace) : Prop :=
  ∃ k, (∀ j < k, ∃ x, Gives t j (.value (some x))) ∧
    (P k → Gives t k (.value none) ∨ ∃ e, e.HasText ∧ Gives t k (.fault e))

theorem Complete.over {t : Nat → Trace} {n : Nat} (h : (t n).Complete)
    (P : Nat → Prop) : Over P t := by
  have hend : ∀ {s : Trace}, s.Complete →
      ∃ k, (∀ j < k, ∃ x, s.get j = .value (some x)) ∧ s.get k = .value none := by
    intro s hs
    induction s with
    | unknown => exact hs.elim
    | failed => exact hs.elim
    | ended => exact ⟨0, nofun, rfl⟩
    | cons x s ih =>
      obtain ⟨k, hbefore, hk⟩ := ih hs
      refine ⟨k + 1, fun j hj => ?_, hk⟩
      cases j with
      | zero => exact ⟨x, rfl⟩
      | succ j => exact hbefore j (Nat.lt_of_succ_lt_succ hj)
  obtain ⟨k, hbefore, hk⟩ := hend h
  refine ⟨k, fun j hj => ?_, fun _ => .inl ⟨Answer.value_ne_unknown, n, hk⟩⟩
  obtain ⟨x, hx⟩ := hbefore j hj
  exact ⟨x, Answer.value_ne_unknown, n, hx⟩

theorem over_ofList (xs : List Expr) (P : Nat → Prop) : Over P fun _ => ofList xs := by
  have hcomplete : (ofList xs).Complete := by
    induction xs with
    | nil => trivial
    | cons _ _ ih => exact ih
  exact Complete.over (t := fun _ => ofList xs) (n := 0) hcomplete P

/-! ### What is made of the elements -/

/-- Behind `k` elements of the first sequence comes the second one, and the function leaves out all
but `c` of these elements. -/
inductive Keeps (f : Expr → Answer (Option Expr)) : Trace → Nat → Nat → Trace → Prop where
  | zero (t : Trace) : Keeps f t 0 0 t
  | out {x : Expr} {s t : Trace} {k c : Nat} (hx : f x = .value none) (h : Keeps f t k c s) :
    Keeps f (cons x t) (k + 1) c s
  | kept {x v : Expr} {s t : Trace} {k c : Nat} (hx : f x = .value (some v)) (h : Keeps f t k c s) :
    Keeps f (cons x t) (k + 1) (c + 1) s

section Keeps

variable {f f' : Expr → Answer (Option Expr)} {s t t' : Trace} {k c : Nat}

theorem Keeps.mono (h : Keeps f t k c s) (hf : ∀ x, (f x).Below (f' x)) (ht : Below t t') :
    ∃ s', Keeps f' t' k c s' := by
  have hvalue : ∀ {x v}, f x = .value v → f' x = .value v := fun {x v} hx =>
    ((hf x).eq (hx ▸ Answer.value_ne_unknown)).trans hx
  induction h generalizing t' with
  | zero => exact ⟨t', .zero t'⟩
  | out hx _ ih =>
    cases ht with
    | cons _ ht =>
      obtain ⟨s', hs'⟩ := ih ht
      exact ⟨s', .out (hvalue hx) hs'⟩
  | kept hx _ ih =>
    cases ht with
    | cons _ ht =>
      obtain ⟨s', hs'⟩ := ih ht
      exact ⟨s', .kept (hvalue hx) hs'⟩

theorem Keeps.get (h : Keeps f t k c s) : t.get k = s.get 0 ∧
    (t.visit f).get c = (s.visit f).get 0 := by
  induction h with
  | zero => exact ⟨rfl, rfl⟩
  | out hx _ ih =>
    rw [visit, hx]
    exact ih
  | kept hx _ ih =>
    rw [visit, hx]
    exact ih

/-- One more element is left out. -/
theorem Keeps.snoc_out {x : Expr} (h : Keeps f t k c (cons x s)) (hx : f x = .value none) :
    Keeps f t (k + 1) c s := by
  generalize hu : cons x s = u at h
  induction h with
  | zero =>
    subst hu
    exact .out hx (.zero s)
  | out hy _ ih => exact .out hy (ih hu)
  | kept hy _ ih => exact .kept hy (ih hu)

/-- One more element is kept. -/
theorem Keeps.snoc_kept {x v : Expr} (h : Keeps f t k c (cons x s)) (hx : f x = .value (some v)) :
    Keeps f t (k + 1) (c + 1) s := by
  generalize hu : cons x s = u at h
  induction h with
  | zero =>
    subst hu
    exact .kept hx (.zero s)
  | out hy _ ih => exact .out hy (ih hu)
  | kept hy _ ih => exact .kept hy (ih hu)

/-- What the elements are made into ends with the sequence. -/
theorem Keeps.visit_end (h : Keeps f t k c s) {a : Answer (Option Expr)}
    (ha : a = .value none ∨ ∃ e, a = .fault e) (hget : t.get k = a) : (t.visit f).get c = a := by
  obtain ⟨hat, hvisit⟩ := h.get
  rw [hvisit, ← hget, hat]
  rw [hat] at hget
  cases s with
  | ended => rfl
  | failed => rfl
  | cons x s =>
    rcases ha with rfl | ⟨e, rfl⟩
    · cases hget
    · cases hget
  | unknown =>
    rcases ha with rfl | ⟨e, rfl⟩
    · cases hget
    · cases hget

theorem Keeps.eq_cons {x : Expr} (h : Keeps f t k c s) (hx : t.get k = .value (some x)) :
    ∃ s', s = cons x s' := by
  rw [h.get.1] at hx
  cases s with
  | cons y s' =>
    cases hx
    exact ⟨s', rfl⟩
  | _ => cases hx

end Keeps

/-- The position is asked for, where the positions `P` of what the function makes of the elements
are. -/
def Asked (f : Nat → Expr → Answer (Option Expr)) (t : Nat → Trace) (P : Nat → Prop)
    (k : Nat) : Prop :=
  ∃ n c s, Keeps (f n) (t n) k c s ∧ P c

/-- The function returns for each element that it is applied to. -/
def ReturnsOn (f : Nat → Expr → Answer (Option Expr)) (t : Nat → Trace) (P : Nat → Prop) : Prop :=
  ∀ k x, Asked f t P k → Gives t k (.value (some x)) → ∃ n, (f n x).Returns

/-- **What is made of the elements one by one comes to an end** with the sequence. -/
theorem Over.visit {f : Nat → Expr → Answer (Option Expr)} {t : Nat → Trace} {P : Nat → Prop}
    (ht : ∀ {n n'}, n ≤ n' → (t n).Below (t n'))
    (hf : ∀ {n n'}, n ≤ n' → ∀ x, (f n x).Below (f n' x))
    (hover : Over (Asked f t P) t) (hreturns : ReturnsOn f t P) : Over P fun n =>
    (t n).visit (f n) := by
  obtain ⟨k, hbefore, hend⟩ := hover
  have hget : ∀ {n n' j a}, n ≤ n' → (t n).get j = a → a ≠ .unknown → (t n').get j = a := by
    rintro n n' j a hle rfl ha
    exact ((ht hle).get j).eq ha
  -- the induction is on the elements that are left
  suffices hfrom : ∀ i j c n s, j + i = k → Keeps (f n) (t n) j c s →
      (∀ m < c, ∃ v, Gives (fun n => (t n).visit (f n)) m (.value (some v))) →
      Over P fun n => (t n).visit (f n) from
    hfrom k 0 0 0 (t 0) (Nat.zero_add k) (.zero _) nofun
  intro i
  induction i with
  | zero =>
    rintro j c n s rfl hj hvisited
    have hends : ∀ {a}, a = .value none ∨ (∃ e, a = .fault e) → Gives t j a →
        Gives (fun n => (t n).visit (f n)) c a := by
      rintro a ha ⟨hne, n', hn'⟩
      obtain ⟨s', hs'⟩ := hj.mono (hf (Nat.le_max_left n n')) (ht (Nat.le_max_left n n'))
      exact ⟨hne, max n n', hs'.visit_end ha (hget (Nat.le_max_right n n') hn' hne)⟩
    refine ⟨c, hvisited, fun hP => (hend ⟨n, c, s, hj, hP⟩).imp (hends (.inl rfl)) ?_⟩
    exact fun ⟨e, htext, he⟩ => ⟨e, htext, hends (.inr ⟨e, rfl⟩) he⟩
  | succ i ih =>
    intro j c n s hji hj hvisited
    by_cases hP : P c
    · obtain ⟨x, hne, n', hx⟩ := hbefore j (by omega)
      obtain ⟨n'', hknown⟩ := hreturns j x ⟨n, c, s, hj, hP⟩ ⟨hne, n', hx⟩
      let m := max n (max n' n'')
      have hm : n ≤ m ∧ n' ≤ m ∧ n'' ≤ m := by omega
      obtain ⟨s', hj⟩ := hj.mono (hf hm.1) (ht hm.1)
      obtain ⟨s', rfl⟩ := hj.eq_cons (hget hm.2.1 hx hne)
      have hanswer : (f m x).Returns := by rwa [(hf hm.2.2 x).eq hknown.ne_unknown]
      have hvisit := hj.get.2
      rw [Trace.visit] at hvisit
      cases hv : f m x with
      | unknown => exact absurd hv hanswer.ne_unknown
      | fault e =>
        rw [hv] at hvisit hanswer
        exact ⟨c, hvisited, fun _ => .inr ⟨e, hanswer, Answer.fault_ne_unknown, m, hvisit⟩⟩
      | value v =>
        cases v with
        | none => exact ih (j + 1) c m s' (by omega) (hj.snoc_out hv) hvisited
        | some v =>
          rw [hv] at hvisit
          refine ih (j + 1) (c + 1) m s' (by omega) (hj.snoc_kept hv) fun i hi => ?_
          rcases Nat.lt_succ_iff_lt_or_eq.mp hi with hi | rfl
          · exact hvisited i hi
          · exact ⟨v, Answer.value_ne_unknown, m, hvisit⟩
    · exact ⟨c, hvisited, fun h => absurd h hP⟩

end Trace

/-! ## 3. Ranges -/

namespace Progression

variable {p : Progression}

/-- Before its end, the range comes to an element that the step does not move. -/
def Stalls (p : Progression) : Prop :=
  ∃ k x y, p.term? k = some x ∧ p.passes x = false ∧ x.add? p.step = some y ∧ y.compare x = .eq

/-- How far an element is from the end, in the direction of the step; below zero it has passed
it. -/
def distance (p : Progression) (stop x : Number) : Int :=
  if p.step.isNegative then x.units - stop.units else stop.units - x.units

theorem passes_iff {stop : Number} (hstop : p.stop = some stop) (hstep : p.step.isZero = false)
    (x : Number) : p.passes x = true ↔ p.distance stop x < 0 := by
  rw [passes, hstop, distance, hstep]
  cases p.step.isNegative
  · simp only [Bool.not_false, Bool.true_and, beq_iff_eq, Bool.false_eq_true, if_false,
      Number.compare_eq_units, compare_gt_iff_gt]
    omega
  · simp only [Bool.not_false, Bool.true_and, beq_iff_eq, if_true, Number.compare_eq_units,
      compare_lt_iff_lt]
    omega

/-- An element that the step moves is nearer to the end than the one before. -/
theorem distance_lt (stop : Number) {x y : Number} (hstep : p.step.isZero = false)
    (hy : x.add? p.step = some y)
    (hmoves : y.compare x ≠ .eq) : p.distance stop y < p.distance stop x := by
  have hside := Number.add?_units hy
  rw [Number.compare_eq_units, ne_eq, compare_eq_iff_eq] at hmoves
  rw [distance, distance]
  cases hneg : p.step.isNegative with
  | false =>
    have hpos := Number.units_pos_iff.mpr ⟨hstep, hneg⟩
    simp only [Bool.false_eq_true, if_false]
    omega
  | true =>
    have hneg := Number.units_neg_iff.mpr hneg
    simp only [if_true]
    omega

/-- A range that has nothing at some position is known to its end. -/
theorem complete_of_get {n k j : Nat} (h : (p.trace n k).get j = .value none) :
    (p.trace n k).Complete := by
  induction n generalizing k j with
  | zero => cases h
  | succ n ih =>
    rw [trace] at h ⊢
    cases hterm : p.term? k with
    | none => trivial
    | some x =>
      simp only [hterm] at h ⊢
      split at h
      · next hpasses => exact if_pos hpasses ▸ trivial
      · next hahead =>
        rw [if_neg hahead]
        cases j with
        | zero => cases h
        | succ j => exact ih h

/-- A range that does not stall is known from an element on, given the fuel for the distance to its
end. -/
theorem complete_of_distance {stop : Number} (hstop : p.stop = some stop)
    (hstep : p.step.isZero = false) (hmoves : ¬ p.Stalls) : ∀ (n k : Nat) (x : Number),
    p.term? k = some x → p.distance stop x < n → (p.trace (n + 1) k).Complete
  | n, k, x, hx, hn => by
    simp only [trace, hx]
    by_cases hpasses : p.passes x = true
    · rw [if_pos hpasses]
      trivial
    · rw [if_neg hpasses]
      have hahead : ¬ p.distance stop x < 0 := mt (passes_iff hstop hstep x).mpr hpasses
      obtain ⟨n, rfl⟩ : ∃ n', n = n' + 1 := ⟨n - 1, by omega⟩
      show (p.trace (n + 1) (k + 1)).Complete
      have hterm : p.term? (k + 1) = x.add? p.step := by rw [term?, hx]; rfl
      cases hy : x.add? p.step with
      | none =>
        simp only [trace, hterm, hy]
        trivial
      | some y =>
        refine complete_of_distance hstop hstep hmoves n (k + 1) y (hterm.trans hy) ?_
        have hdistance := distance_lt stop hstep hy fun heq =>
          hmoves ⟨k, x, y, hx, Bool.eq_false_iff.mpr hpasses, hy, heq⟩
        omega

/-- **A range with an end and a step ends, or comes to a standstill.** -/
theorem complete_or_stalls (h : p.isInfinite = false) : p.Stalls ∨ ∃ n, (p.trace n 0).Complete := by
  obtain ⟨hstop, hstep⟩ := Bool.or_eq_false_iff.mp h
  obtain ⟨stop, hstop⟩ : ∃ stop, p.stop = some stop := by
    cases hs : p.stop with
    | none => rw [hs] at hstop; cases hstop
    | some stop => exact ⟨stop, rfl⟩
  by_cases hstalls : p.Stalls
  · exact .inl hstalls
  · refine .inr ⟨(p.distance stop p.start).toNat + 2, ?_⟩
    exact complete_of_distance hstop hstep hstalls _ 0 p.start rfl (by omega)

/-- **A range of integers with a step never comes to a standstill.** -/
theorem not_stalls_of_integers (hstart : p.start.isDecimal = false)
    (hstep : p.step.isDecimal = false) (hmoves : p.step.isZero = false) : ¬ p.Stalls := by
  have hterms : ∀ k x, p.term? k = some x → x.isDecimal = false := by
    intro k
    induction k with
    | zero =>
      rintro x ⟨⟩
      exact hstart
    | succ k ih =>
      intro y hy
      obtain ⟨x, hx, hy⟩ := Option.bind_eq_some_iff.mp hy
      exact (Number.units_of_integers (ih x hx) hstep hy).1
  rintro ⟨k, x, y, hx, -, hy, heq⟩
  have hsum := (Number.units_of_integers (hterms k x hx) hstep hy).2
  rw [Number.compare_eq_units, compare_eq_iff_eq] at heq
  cases hneg : p.step.isNegative with
  | false =>
    have := Number.units_pos_iff.mpr ⟨hmoves, hneg⟩
    omega
  | true =>
    have := Number.units_neg_iff.mpr hneg
    omega

/-- From an element on that the step does not change, and that lies before the end, the range goes
on forever. -/
theorem not_complete_of_fixed {x : Number} (hahead : p.passes x = false)
    (hfixed : x.add? p.step = some x) : ∀ n k, p.term? k = some x → ¬ (p.trace n k).Complete
  | 0, _, _ => id
  | n + 1, k, hx => by
    have hnext : p.term? (k + 1) = some x := by
      rw [term?, hx]
      exact hfixed
    simp only [trace, hx, hahead, Bool.false_eq_true, if_false]
    exact not_complete_of_fixed hahead hfixed n (k + 1) hnext

/-- The elements before the end come one after another. -/
theorem Complete.next {n k : Nat} {x : Number} (h : (p.trace n k).Complete)
    (hx : p.term? k = some x)
    (hahead : p.passes x = false) : ∃ n', (p.trace n' (k + 1)).Complete := by
  cases n with
  | zero => exact h.elim
  | succ n =>
    simp only [trace, hx, hahead, Bool.false_eq_true, if_false] at h
    exact ⟨n, h⟩

end Progression

/-! ## 4. Lists -/

namespace LazyList

open Trace

/-- One of the ranges that the list is made of comes to a standstill. -/
def Stalls : LazyList → Prop
  | items .. => False
  | progression p => p.Stalls
  | prepend _ tail => tail.Stalls
  | concat first second => first.Stalls ∨ second.Stalls
  | mapped _ source | filtered _ source | dropped _ source => source.Stalls

/-- Everything returns that is evaluated when the positions `P` of the list are asked for, one after
another: elements of literals, and functions and predicates at the elements that they are applied
to. -/
def ReturnsAt : LazyList → (P : Nat → Prop) → Prop
  | items elements env _, P =>
    ReturnsOn (fun n x => (evalAnswer n env x).map some) (fun _ => .ofList elements) P
  | progression _, _ => True
  | prepend _ tail, P => tail.ReturnsAt fun k => P (k + 1)
  | concat first second, P =>
    first.ReturnsAt P ∧ second.ReturnsAt fun k => ∃ length, first.HasLength length ∧ P (length + k)
  | mapped f source, P =>
    source.ReturnsAt (Asked (fun n x => (applyAnswer n f x).map some) source.trace P) ∧
      ReturnsOn (fun n x => (applyAnswer n f x).map some) source.trace P
  | filtered p source, P =>
    source.ReturnsAt (Asked
      (fun n x => (testAnswer n p x).map fun kept => if kept then some x else none)
        source.trace P) ∧
      ReturnsOn (fun n x => (testAnswer n p x).map fun kept => if kept then some x
        else none) source.trace P
  | dropped count source, P => source.ReturnsAt fun k => P (k - count)

/-- Everything that a traversal of the list evaluates returns.  It asks for a position if there are
elements at all those before. -/
def Returns (l : LazyList) : Prop := l.ReturnsAt fun k => ∀ j < k, ∃ x, l.Has j (.value (some x))

/-- It is enough that the evaluation of every element of a literal returns. -/
theorem returnsAt_items {elements : List Expr} {env : Env} (cell : Option Nat) (P : Nat → Prop)
    (h : ∀ x ∈ elements, ∃ n, (evalAnswer n env x).Returns) :
    (items elements env cell).ReturnsAt P := by
  rintro k x - ⟨-, n, hx⟩
  rw [get_ofList] at hx
  obtain ⟨n, hn⟩ := h x (List.mem_of_getElem? (Answer.value.inj hx))
  exact ⟨n, hn.map some⟩

/-- From some position on, the list has nothing. -/
def Finite (l : LazyList) : Prop := ∃ k, l.Has k (.value none)

/-- What is not the end of the first list is where it was. -/
theorem has_concat_first {first second : LazyList} {k : Nat} {a : Answer (Option Expr)}
    (h : first.Has k a) (ha : a ≠ .value none) : (concat first second).Has k a := by
  have happend : ∀ {s t : Trace} {k}, s.get k ≠ .value none → (s.append t).get k = s.get k := by
    intro s t k hk
    induction s generalizing k with
    | unknown | failed => rfl
    | ended => exact absurd rfl hk
    | cons x s ih =>
      cases k with
      | zero => rfl
      | succ k => exact ih hk
  obtain ⟨hne, n, rfl⟩ := h
  exact ⟨hne, n, happend ha⟩

/-- **Asked for position after position, a list comes to an end** that says it is finite, unless one
of its ranges comes to a standstill. -/
theorem over_or_stalls : ∀ (l : LazyList) {P : Nat → Prop}, l.isInfinite = false → l.ReturnsAt P →
    l.Stalls ∨ Over P l.trace
  | .items elements env cell, P, _, hreturns =>
    .inr ((over_ofList elements _).visit (fun _ => .refl _)
      (fun h x => (evalAnswer_more h env x).map some) hreturns)
  | .progression p, P, h, _ => (Progression.complete_or_stalls h).imp_right fun ⟨n, hn⟩ =>
    Complete.over (t := fun n => p.trace n 0) (n := n) hn P
  | .prepend head tail, P, h, hreturns => by
    refine (over_or_stalls tail h hreturns).imp_right ?_
    rintro ⟨k, hbefore, hend⟩
    refine ⟨k + 1, fun j hj => ?_, hend⟩
    cases j with
    | zero => exact ⟨head.erase, Answer.value_ne_unknown, 0, rfl⟩
    | succ j => exact hbefore j (Nat.lt_of_succ_lt_succ hj)
  | .concat first second, P, h, hreturns => by
    obtain ⟨hfirst, hsecond⟩ := Bool.or_eq_false_iff.mp h
    rcases over_or_stalls first hfirst hreturns.1 with hstalls | ⟨k, hbefore, hend⟩
    · exact .inl (.inl hstalls)
    rcases over_or_stalls second hsecond hreturns.2 with hstalls | ⟨k', hbefore', hend'⟩
    · exact .inl (.inr hstalls)
    refine .inr ?_
    have hbefore₁ : ∀ j < k, ∃ x, (concat first second).Has j (.value (some x)) := fun j hj => by
      obtain ⟨x, hx⟩ := hbefore j hj
      exact ⟨x, has_concat_first hx nofun⟩
    by_cases hP : P k
    · rcases hend hP with hnone | ⟨e, htext, he⟩
      · have hlength : first.HasLength k := ⟨hbefore, hnone⟩
        have hbehind : ∀ {j a}, second.Has j a → (concat first second).Has (k + j) a :=
          fun {j a} ha => by
          rw [has_concat hlength, Nat.add_sub_cancel_left]
          exact .inr ⟨Nat.le_add_right k j, ha⟩
        refine ⟨k + k', fun j hj => ?_, fun hP' => (hend' ⟨k, hlength, hP'⟩).imp hbehind ?_⟩
        · rcases Nat.lt_or_ge j k with hlt | hge
          · exact hbefore₁ j hlt
          · obtain ⟨j, rfl⟩ := Nat.exists_eq_add_of_le hge
            obtain ⟨x, hx⟩ := hbefore' j (by omega)
            exact ⟨x, hbehind hx⟩
        · exact fun ⟨e, htext, he⟩ => ⟨e, htext, hbehind he⟩
      · exact ⟨k, hbefore₁, fun _ => .inr ⟨e, htext, has_concat_first he nofun⟩⟩
    · exact ⟨k, hbefore₁, fun h => absurd h hP⟩
  | .mapped f source, P, h, hreturns =>
    (over_or_stalls source h hreturns.1).imp_right fun hsource =>
      hsource.visit (fun h => source.trace_more h)
        (fun h x => (applyAnswer_more h f x).map some) hreturns.2
  | .filtered p source, P, h, hreturns =>
    (over_or_stalls source h hreturns.1).imp_right fun hsource =>
      hsource.visit (fun h => source.trace_more h)
        (fun h x => (testAnswer_more h p x).map _) hreturns.2
  | .dropped count source, P, h, hreturns => by
    refine (over_or_stalls source h hreturns).imp_right ?_
    rintro ⟨k, hbefore, hend⟩
    rcases Nat.lt_or_ge k count with hk | hk
    · -- the source is over while elements are dropped
      refine ⟨0, nofun, fun hP => ?_⟩
      have hasked : P (k - count) := by rwa [Nat.sub_eq_zero_of_le (Nat.le_of_lt hk)]
      refine (hend hasked).imp (fun hnone => ?_) fun ⟨e, htext, he⟩ => ⟨e, htext, ?_⟩
      · refine (has_dropped source count 0 _).mpr
          (.inl ⟨fun j _ => ?_, Has.over hnone (Nat.le_of_lt hk)⟩)
        rcases Nat.lt_or_ge j k with hj | hj
        · obtain ⟨x, hx⟩ := hbefore j hj
          exact ⟨_, hx⟩
        · exact ⟨_, Has.over hnone hj⟩
      · exact (has_dropped source count 0 _).mpr (.inr ⟨k, hk, e, he, rfl⟩)
    · obtain ⟨k, rfl⟩ := Nat.exists_eq_add_of_le hk
      have hasked : P k → P (count + k - count) := fun hP => by rwa [Nat.add_sub_cancel_left]
      have hbehind : ∀ {j a}, source.Has (count + j) a → (dropped count source).Has j a :=
        fun {j a} ha => by
        refine (has_dropped source count j a).mpr (.inl ⟨fun i hi => ?_, ha⟩)
        obtain ⟨x, hx⟩ := hbefore i (by omega)
        exact ⟨_, hx⟩
      refine ⟨k, fun j hj => ?_, fun hP =>
        (hend (hasked hP)).imp hbehind fun ⟨e, htext, he⟩ => ⟨e, htext, hbehind he⟩⟩
      obtain ⟨x, hx⟩ := hbefore (count + j) (by omega)
      exact ⟨x, hbehind hx⟩

/-- A fault that the list has, it has with its message. -/
def Tells (l : LazyList) : Prop := ∀ k e, l.Has k (.fault e) → e.HasText

/-- **A list that says it is finite is finite**, unless one of its ranges comes to a standstill, as
far as everything returns that its traversal evaluates; and a fault in it has a message. -/
theorem finite_or_stalls {l : LazyList} (h : l.isInfinite = false) (hreturns : l.Returns) :
    l.Stalls ∨ (l.Finite ∧ l.Tells) := by
  refine (l.over_or_stalls h hreturns).imp_right ?_
  rintro ⟨k, hbefore, hend⟩
  -- a fault stands neither before an element nor behind the end
  have hnone : ∀ {j i e}, l.Has j (.value none) → j ≤ i → ¬l.Has i (.fault e) := fun hj hji hi =>
    nomatch hi.unique (hj.over hji)
  have hlast : ∀ {i e}, l.Has i (.fault e) → k ≤ i := fun {i e} hi => by
    by_contra hlt
    obtain ⟨x, hx⟩ := hbefore i (Nat.lt_of_not_le hlt)
    exact nomatch hi.unique hx
  rcases hend hbefore with hk | ⟨e, htext, he⟩
  · exact ⟨⟨k, hk⟩, fun i e hi => absurd hi (hnone hk (hlast hi))⟩
  · have hover := Has.failed he (Nat.lt_succ_self k)
    refine ⟨⟨k + 1, hover⟩, fun i e' hi => ?_⟩
    rcases Nat.lt_or_eq_of_le (hlast hi) with hlt | rfl
    · exact absurd hi (hnone hover hlt)
    · cases hi.unique he
      exact htext

end LazyList

theorem one_le_maxScale : 1 ≤ maxScale := by decide

/-- A range of decimals so large that a unit, but not a tenth, can be added to them; the first two
elements are a tenth apart. -/
def narrowRange : Progression where
  start := .decimal ⟨false, 79228162514264337593543950334, 1, by decide, one_le_maxScale⟩
  step := .decimal ⟨false, 1, 1, by decide, one_le_maxScale⟩
  stop := some (.decimal ⟨false, 7922816251426433759354395034, 0, by decide, Nat.zero_le _⟩)

/-- **A range that says it is finite and never ends**: its third element lies at its end, and the
step does not move it from there. -/
theorem narrowRange_never_ends :
    (∃ e, parse ("[7922816251426433759354395033.4, 7922816251426433759354395033.5.." ++
          "7922816251426433759354395034.0]") = .ok e ∧
        (eval .standard 9 .top e).result (.fresh ()) = .ok (.list (.progression narrowRange))) ∧
      (LazyList.progression narrowRange).isInfinite = false ∧
      (LazyList.progression narrowRange).Returns ∧ ¬ (LazyList.progression narrowRange).Finite := by
  let second : Decimal := ⟨false, 79228162514264337593543950335, 1, by decide, by decide⟩
  let third : Decimal := ⟨false, 7922816251426433759354395034, 0, by decide, by decide⟩
  refine ⟨⟨.range (.number narrowRange.start) (some (.decimal second)) (some (.decimal third)),
    by cbv, by cbv⟩, by decide, trivial, ?_⟩
  rintro ⟨k, -, n, hk⟩
  have hn : (narrowRange.trace n 0).Complete := Progression.complete_of_get hk
  obtain ⟨n, hn⟩ := Progression.Complete.next hn rfl (by decide)
  obtain ⟨n, hn⟩ := Progression.Complete.next (x := .decimal second) hn (by decide) (by decide)
  exact Progression.not_complete_of_fixed (x := .decimal third) (by decide)
    (by decide) n 2 (by decide) hn

end LazyExpr
