import LazyExpr.Proofs.Eval.CacheFree

/-!
# What a list means

A list stands for a finite or infinite sequence of outcomes: its elements, then possibly a fault,
and nothing behind that.  The sequence is given by its beginnings (`Trace`), which grow with the
fuel, and is defined by recursion on the form of the list, over the evaluator without a memory
(`LazyList.trace`). No list is ever taken apart there: a view of a list has the sequence of the list
it is a view of, with something done to it as a whole.

* `LazyList.Has` — the outcome at a position.
* `LazyList.trace_more` and `LazyList.Has.unique` — with more fuel more is known, and a list has at
  most one outcome at a position.
-/

namespace LazyExpr

open Eval

/-! ## 1. Beginnings of sequences -/

/-- What is known of a sequence of outcomes. -/
inductive Trace where
  /-- Nothing is known from here on. -/
  | unknown
  | ended
  | failed (fault : Fault)
  | cons (value : Expr) (rest : Trace)

namespace Trace

/-- The outcome at a position. Behind its end and behind a fault a sequence has nothing. -/
def get : Trace → Nat → Answer (Option Expr)
  | unknown, _ => .unknown
  | ended, _ => .value none
  | failed e, 0 => .fault e
  | failed _, _ + 1 => .value none
  | cons x _, 0 => .value (some x)
  | cons _ t, k + 1 => t.get k

/-- The sequence of given elements. -/
def ofList : List Expr → Trace
  | [] => ended
  | x :: xs => cons x (ofList xs)

/-- One sequence, and a second one when the first is over. -/
def append : Trace → Trace → Trace
  | ended, t => t
  | cons x s, t => cons x (s.append t)
  | unknown, _ => unknown
  | failed e, _ => failed e

/-- What a function makes of each element in turn: another element, nothing, or a fault that ends
the sequence. -/
def visit (f : Expr → Answer (Option Expr)) : Trace → Trace
  | cons x t =>
    match f x with
    | .value (some v) => cons v (t.visit f)
    | .value none => t.visit f
    | .fault e => failed e
    | .unknown => unknown
  | ended => ended
  | failed e => failed e
  | unknown => unknown

/-- The sequence without its first elements; a fault among them stays. -/
def drop : Nat → Trace → Trace
  | count + 1, cons _ t => drop count t
  | _, t => t

/-- What is known in the first is so in the second. -/
inductive Below : Trace → Trace → Prop where
  | unknown (t : Trace) : Below unknown t
  | ended : Below ended ended
  | failed (e : Fault) : Below (failed e) (failed e)
  | cons (x : Expr) {s t : Trace} (h : Below s t) : Below (cons x s) (cons x t)

theorem Below.refl : ∀ t : Trace, Below t t
  | .unknown => .unknown _
  | .ended => .ended
  | .failed e => .failed e
  | .cons x t => .cons x (refl t)

theorem Below.trans {s t u : Trace} (h : Below s t) (h' : Below t u) : Below s u := by
  induction h generalizing u with
  | unknown t => exact .unknown u
  | ended => exact h'
  | failed e => exact h'
  | cons x _ ih =>
    cases h' with
    | cons _ h' => exact .cons x (ih h')

theorem Below.get {s t : Trace} (h : Below s t) (k : Nat) : (s.get k).Below (t.get k) := by
  induction h generalizing k with
  | unknown t => exact .unknown
  | ended => exact .rfl
  | failed e => exact .rfl
  | cons x _ ih =>
    cases k with
    | zero => exact .rfl
    | succ k => exact ih k

theorem Below.append {s s' t t' : Trace} (hs : Below s s') (ht : Below t t') :
    Below (s.append t) (s'.append t') := by
  induction hs with
  | unknown => exact .unknown _
  | ended => exact ht
  | failed e => exact .failed e
  | cons x _ ih => exact .cons x ih

theorem Below.visit {f f' : Expr → Answer (Option Expr)} (hf : ∀ x, (f x).Below (f' x))
    {s t : Trace} (h : Below s t) : Below (s.visit f) (t.visit f') := by
  induction h with
  | unknown => exact .unknown _
  | ended => exact .ended
  | failed e => exact .failed e
  | @cons x s t _ ih =>
    simp only [Trace.visit]
    rcases hf x with hx | hx
    · rw [hx]
      exact .unknown _
    · rw [← hx]
      split
      · exact .cons _ ih
      · exact ih
      · exact .failed _
      · exact .unknown _

@[simp] theorem drop_zero (t : Trace) : t.drop 0 = t := by
  cases t <;> rfl

theorem Below.drop (count : Nat) {s t : Trace} (h : Below s t) :
    Below (s.drop count) (t.drop count) := by
  induction count generalizing s t with
  | zero => simpa only [drop_zero] using h
  | succ count ih =>
    cases h with
    | unknown => exact .unknown _
    | ended => exact .ended
    | failed e => exact .failed e
    | cons x h => exact ih h

end Trace

/-! ## 2. Meanings -/

namespace Progression

/-- The number at a position: the step is added again and again, as long as that stays in range. -/
def term? (p : Progression) : Nat → Option Number
  | 0 => some p.start
  | k + 1 => (p.term? k).bind (·.add? p.step)

/-- Whether a number lies beyond the end, in the direction of the step. -/
def passes (p : Progression) (x : Number) : Bool :=
  match p.stop with
  | none => false
  | some stop =>
    !p.step.isZero && x.compare stop == (if p.step.isNegative then Ordering.lt else Ordering.gt)

/-- The numbers from a position on, as many as the fuel allows. -/
def trace (p : Progression) : (fuel : Nat) → (position : Nat) → Trace
  | 0, _ => .unknown
  | fuel + 1, k =>
    match p.term? k with
    | none => .ended
    | some x => if p.passes x then .ended else .cons (.number x) (p.trace fuel (k + 1))

end Progression

/-- The elements of a list, as far as they are known with some fuel. -/
def LazyList.trace (fuel : Nat) : LazyList → Trace
  | .items elements env _ =>
    (Trace.ofList elements).visit fun x => (evalAnswer fuel env x).map some
  | .progression range => range.trace fuel 0
  | .prepend head tail => .cons head.erase (tail.trace fuel)
  | .concat first second => (first.trace fuel).append (second.trace fuel)
  | .mapped function source =>
    (source.trace fuel).visit fun x => (applyAnswer fuel function x).map some
  | .filtered predicate source =>
    (source.trace fuel).visit fun x =>
      (testAnswer fuel predicate x).map fun kept => if kept then some x else none
  | .dropped count source => (source.trace fuel).drop count

/-- **The meaning of a list**: the outcome at a position, if there is one. -/
def LazyList.Has (l : LazyList) (k : Nat) (a : Answer (Option Expr)) : Prop :=
  a ≠ .unknown ∧ ∃ fuel, (l.trace fuel).get k = a

theorem Progression.trace_more (p : Progression) {n n' : Nat} (h : n ≤ n') (k : Nat) :
    (p.trace n k).Below (p.trace n' k) := by
  induction n generalizing n' k with
  | zero => exact .unknown _
  | succ n ih =>
    obtain ⟨n', rfl⟩ := Nat.exists_eq_add_of_le' (Nat.le_trans (Nat.succ_pos n) h)
    simp only [Progression.trace]
    split
    · exact .ended
    · split
      · exact .ended
      · exact .cons _ (ih (Nat.le_of_succ_le_succ h) (k + 1))

/-- More fuel only ever adds to what is known. -/
theorem LazyList.trace_more {n n' : Nat} (h : n ≤ n') (l : LazyList) :
    (l.trace n).Below (l.trace n') := by
  cases l with
  | items _ env => exact .visit (fun x => (evalAnswer_more h env x).map some) (.refl _)
  | progression range => exact range.trace_more h 0
  | prepend _ tail => exact .cons _ (tail.trace_more h)
  | concat first second => exact (first.trace_more h).append (second.trace_more h)
  | mapped f source =>
    exact .visit (fun x => (applyAnswer_more h f x).map some) (source.trace_more h)
  | filtered p source => exact .visit (fun x => (testAnswer_more h p x).map _) (source.trace_more h)
  | dropped count source => exact (source.trace_more h).drop count

/-- A list has at most one outcome at a position. -/
theorem LazyList.Has.unique {l : LazyList} {k : Nat} {a b : Answer (Option Expr)} (ha : l.Has k a)
    (hb : l.Has k b) : a = b := by
  obtain ⟨ha, n, rfl⟩ := ha
  obtain ⟨hb, n', rfl⟩ := hb
  have h := ((l.trace_more (Nat.le_max_left n n')).get k).eq ha
  have h' := ((l.trace_more (Nat.le_max_right n n')).get k).eq hb
  rw [← h, h']

end LazyExpr
