import Mathlib.Data.List.Range
import Mathlib.Tactic.Linarith
import Mathlib.Tactic.Ring
import LazyExpr.Decimal.Arithmetic

/-!
# Rounded sums move in one direction

A sum that has too many digits is rounded, so that adding a small number to a large one may change
nothing.  But it never moves the wrong way: adding a number above zero gives no smaller number.

The reason is that a rounded sum lies on the same side of every decimal as the exact one.  A decimal
with few digits behind the point is among the numbers that the sum is rounded to.  A decimal with
more of them is so small that the sum, which lost digits because it was large, is rounded to
something beyond it; this uses that the bound on coefficients ends in a 6.

* `Decimal.units` is the value as a whole number, and `compare_eq_units` says that decimals are
  ordered by it.
* `le_magnitudeAt_of_fit` and `magnitudeAt_le_of_fit` — rounding keeps the order to other decimals.
* `add?_units` — **a sum lies on the side of the first operand to which the second one points.**
-/

namespace LazyExpr.Decimal

/-! ## 1. Values as whole numbers -/

/-- The value in units of the last digit that a decimal can have. -/
def units (d : Decimal) : Int := d.signedAt maxScale

theorem signedAt_def (d : Decimal) (scale : Nat) :
    d.signedAt scale = d.signed * 10 ^ (scale - d.scale) := rfl

theorem signedAt_eq {d : Decimal} {scale scale' : Nat} (h : d.scale ≤ scale) (h' : scale ≤ scale') :
    d.signedAt scale' = d.signedAt scale * 10 ^ (scale' - scale) := by
  rw [signedAt_def, signedAt_def, Int.mul_assoc, ← Int.pow_add]
  congr 2
  omega

theorem signedAt_le_iff {a b : Decimal} {scale : Nat} (ha : a.scale ≤ scale) (hb : b.scale ≤ scale)
    (h : scale ≤ maxScale) : a.signedAt scale ≤ b.signedAt scale ↔ a.units ≤ b.units := by
  rw [units, units, signedAt_eq ha h, signedAt_eq hb h]
  have hpos : (0 : Int) < 10 ^ (maxScale - scale) := by positivity
  exact (Int.mul_le_mul_iff_of_pos_right hpos).symm

theorem compare_eq_units (a b : Decimal) : a.compare b = Ord.compare a.units b.units := by
  have hmax : max a.scale b.scale ≤ maxScale := Nat.max_le.mpr ⟨a.scale_le, b.scale_le⟩
  have hle := signedAt_le_iff (Nat.le_max_left a.scale b.scale) (Nat.le_max_right _ _) hmax
  have hge := signedAt_le_iff (Nat.le_max_right a.scale b.scale) (Nat.le_max_left _ _) hmax
  show Ord.compare (a.signedAt _) (b.signedAt _) = _
  rcases Int.lt_trichotomy a.units b.units with h | h | h
  · rw [compare_lt_iff_lt.mpr h, compare_lt_iff_lt]
    omega
  · rw [compare_eq_iff_eq.mpr h, compare_eq_iff_eq]
    omega
  · rw [compare_gt_iff_gt.mpr h, compare_gt_iff_gt]
    omega

/-- The coefficient that the decimal has when it is written with more digits behind the point. -/
def magnitudeAt (d : Decimal) (scale : Nat) : Nat := d.coefficient * 10 ^ (scale - d.scale)

theorem signedAt_eq_magnitudeAt (d : Decimal) (scale : Nat) :
    d.signedAt scale = if d.negative then -(d.magnitudeAt scale : Int)
      else d.magnitudeAt scale := by
  rw [signedAt_def, signed, magnitudeAt]
  split <;> push_cast <;> ring

theorem units_pos_iff {d : Decimal} : 0 < d.units ↔ d.isZero = false ∧ d.isNegative = false := by
  have hpos : (0 : Int) < 10 ^ (maxScale - d.scale) := by positivity
  rw [units, signedAt_def, mul_pos_iff_of_pos_right hpos, signed, isNegative, isZero]
  cases d.negative
  · simp
    omega
  · simp

theorem units_neg_iff {d : Decimal} : d.units < 0 ↔ d.isNegative = true := by
  have hpos : (0 : Int) < 10 ^ (maxScale - d.scale) := by positivity
  rw [units, signedAt_def, ← not_le, mul_nonneg_iff_of_pos_right hpos, signed, isNegative, isZero]
  cases d.negative <;> simp

/-! ## 2. Rounding -/

/-- What is rounded moves by half a unit at most. -/
theorem nearestEven_near (m : Nat) {d : Nat} (hd : 0 < d) :
    2 * m ≤ 2 * (nearestEven m d * d) + d ∧ 2 * (nearestEven m d * d) ≤ 2 * m + d := by
  have hm := Nat.div_add_mod m d
  have hr := Nat.mod_lt m hd
  simp only [nearestEven]
  split
  · rw [Nat.add_mul, Nat.one_mul, Nat.mul_comm (m / d) d]
    omega
  · rw [Nat.mul_comm (m / d) d]
    omega

theorem roundOff_near (m k : Nat) :
    2 * m ≤ 2 * (roundOff m k * 10 ^ k) + 10 ^ k ∧ 2 * (roundOff m k * 10 ^ k) ≤ 2 * m + 10 ^ k :=
  nearestEven_near m (Nat.pow_pos (by decide))

theorem le_roundOff {m k c : Nat} (h : 2 * (c * 10 ^ k) < 2 * m + 10 ^ k) : c ≤ roundOff m k := by
  by_contra hlt
  have hmul := Nat.mul_le_mul_right (10 ^ k) (Nat.succ_le_of_lt (Nat.lt_of_not_le hlt))
  have hnear := (roundOff_near m k).1
  rw [Nat.succ_mul] at hmul
  omega

theorem roundOff_le {m k c : Nat} (h : 2 * m < 2 * (c * 10 ^ k) + 10 ^ k) : roundOff m k ≤ c := by
  by_contra hlt
  have hmul := Nat.mul_le_mul_right (10 ^ k) (Nat.succ_le_of_lt (Nat.lt_of_not_le hlt))
  have hnear := (roundOff_near m k).2
  rw [Nat.succ_mul] at hmul
  omega

/-- What one digit less makes of the bound on coefficients. -/
def shortenedBound : Nat := 7922816251426433759354395034

theorem roundOff_coefficientBound : roundOff coefficientBound 1 = shortenedBound := by decide

theorem coefficientBound_eq : coefficientBound + 4 = shortenedBound * 10 := by decide

/-! ## 3. Fitting -/

/-- The digits that go are the fewest that have to. -/
theorem excessDigits?_eq_some {m scale k : Nat} (hscale : scale ≤ maxScale)
    (h : excessDigits? m scale = some k) :
    k ≤ scale ∧ m < coefficientBound * 10 ^ k ∧ ∀ j < k, coefficientBound * 10 ^ j ≤ m := by
  have hleast : scale - maxScale = 0 := Nat.sub_eq_zero_of_le hscale
  simp only [excessDigits?, hleast, List.find?_range'_eq_some, List.mem_range'_1,
    decide_eq_true_eq, Bool.not_eq_true', decide_eq_false_iff_not, Nat.not_lt] at h
  obtain ⟨hk, ⟨-, hle⟩, hmin⟩ := h
  refine ⟨by omega, ?_, fun j hj => ?_⟩
  · exact (Nat.div_lt_iff_lt_mul (Nat.pow_pos (by decide))).mp hk
  · exact (Nat.le_div_iff_mul_le (Nat.pow_pos (by decide))).mp (hmin j (Nat.zero_le j) hj)

/-- How a magnitude is fitted: digits go, and if the rest is rounded up to the bound, one more. -/
theorem fit_eq_some {negative : Bool} {m scale : Nat} {r : Decimal} (hscale : scale ≤ maxScale)
    (h : fit negative m scale = some r) :
    r.negative = negative ∧ r.scale ≤ scale ∧ ∃ k ≤ scale, m < coefficientBound * 10 ^ k ∧
      (∀ j < k, coefficientBound * 10 ^ j ≤ m) ∧
      (r.magnitudeAt scale = roundOff m k * 10 ^ k ∨
        roundOff m k = coefficientBound ∧ r.magnitudeAt scale = shortenedBound * 10 ^ (k + 1)) := by
  obtain ⟨k, hk, h⟩ := Option.bind_eq_some_iff.mp h
  obtain ⟨hle, hlt, hmin⟩ := excessDigits?_eq_some hscale hk
  dsimp only at h
  split at h
  · obtain ⟨hnegative, hcoefficient, hkept⟩ := ofParts?_eq_some_iff.mp h
    refine ⟨hnegative, by omega, k, hle, hlt, hmin, .inl ?_⟩
    rw [magnitudeAt, hcoefficient, hkept, Nat.sub_sub_self hle]
  · next hrounded =>
    split at h
    · cases h
    · next hkept =>
      obtain ⟨hnegative, hcoefficient, hscale'⟩ := ofParts?_eq_some_iff.mp h
      have hpos : 0 < 10 ^ k := Nat.pow_pos (by decide)
      have hbound : roundOff m k = coefficientBound := by
        refine Nat.le_antisymm (roundOff_le ?_) (Nat.le_of_not_lt hrounded)
        omega
      refine ⟨hnegative, by omega, k, hle, hlt, hmin, .inr ⟨hbound, ?_⟩⟩
      rw [magnitudeAt, hcoefficient, hbound, roundOff_coefficientBound, hscale']
      congr 2
      omega

/-- A decimal beside a magnitude that lost digits: it is written without those digits, and if its
coefficient does not fit then, it has a zero at its end; or it is small. -/
theorem magnitudeAt_cases {a : Decimal} {scale k : Nat} (hk : k ≤ scale) (ha : a.scale ≤ scale) :
    (∃ c, a.magnitudeAt scale = c * 10 ^ k ∧ (c < coefficientBound ∨ 10 ∣ c)) ∨
      ∃ j, k = j + 1 ∧ a.magnitudeAt scale < coefficientBound * 10 ^ j := by
  rcases Nat.lt_or_ge (scale - k) a.scale with hlt | hge
  · obtain ⟨j, rfl⟩ : ∃ j, k = j + 1 := ⟨k - 1, by omega⟩
    refine .inr ⟨j, rfl, ?_⟩
    calc a.magnitudeAt scale ≤ a.coefficient * 10 ^ j :=
          Nat.mul_le_mul_left _ (Nat.pow_le_pow_right (by decide) (by omega))
      _ < coefficientBound * 10 ^ j :=
          Nat.mul_lt_mul_of_pos_right a.coefficient_lt (Nat.pow_pos (by decide))
  · refine .inl ⟨a.coefficient * 10 ^ (scale - k - a.scale), ?_, ?_⟩
    · rw [magnitudeAt, Nat.mul_assoc, ← Nat.pow_add]
      congr 2
      omega
    · cases hextra : scale - k - a.scale with
      | zero => exact .inl (by simpa using a.coefficient_lt)
      | succ j => exact .inr ⟨a.coefficient * 10 ^ j, by rw [Nat.pow_succ]; ring⟩

section Fit

variable {negative : Bool} {m scale : Nat} {r a : Decimal} (hscale : scale ≤ maxScale)
  (ha : a.scale ≤ scale) (h : fit negative m scale = some r)

include hscale ha h

/-- What lies above a decimal is not rounded below it. -/
theorem le_magnitudeAt_of_fit (hle : a.magnitudeAt scale ≤ m) :
    a.magnitudeAt scale ≤ r.magnitudeAt scale := by
  obtain ⟨-, -, k, hk, hlt, hmin, hr⟩ := fit_eq_some hscale h
  have hpos : 0 < 10 ^ k := Nat.pow_pos (by decide)
  -- what is rounded to at least `c` is fitted to at least `c`
  have hfitted : ∀ c, c ≤ roundOff m k → c * 10 ^ k ≤ r.magnitudeAt scale := by
    intro c hc
    have hmul := Nat.mul_le_mul_right (10 ^ k) hc
    rcases hr with hr | ⟨hbound, hr⟩
    · rwa [hr]
    · rw [hbound] at hmul
      have heq := congrArg (· * 10 ^ k) coefficientBound_eq
      rw [Nat.add_mul] at heq
      rw [hr, Nat.pow_succ, Nat.mul_comm (10 ^ k) 10, ← Nat.mul_assoc]
      omega
  rcases magnitudeAt_cases hk ha with ⟨c, hc, -⟩ | ⟨j, rfl, hsmall⟩
  · rw [hc] at hle ⊢
    refine hfitted c (le_roundOff ?_)
    omega
  · have hlarge := hmin j (Nat.lt_succ_self j)
    have heq := congrArg (· * 10 ^ j) coefficientBound_eq
    rw [Nat.add_mul, Nat.mul_assoc, Nat.mul_comm 10, ← pow_succ] at heq
    have hround : shortenedBound ≤ roundOff m (j + 1) := by
      refine le_roundOff ?_
      rw [← heq, Nat.pow_succ]
      have hj : 0 < 10 ^ j := Nat.pow_pos (by decide)
      omega
    have := hfitted _ hround
    omega

/-- What lies below a decimal is not rounded above it. -/
theorem magnitudeAt_le_of_fit (hle : m ≤ a.magnitudeAt scale) :
    r.magnitudeAt scale ≤ a.magnitudeAt scale := by
  obtain ⟨-, -, k, hk, hlt, hmin, hr⟩ := fit_eq_some hscale h
  have hpos : 0 < 10 ^ k := Nat.pow_pos (by decide)
  rcases magnitudeAt_cases hk ha with ⟨c, hc, hcases⟩ | ⟨j, rfl, hsmall⟩
  · rw [hc] at hle ⊢
    have hround : roundOff m k ≤ c := by
      refine roundOff_le ?_
      omega
    rcases hr with hr | ⟨hbound, hr⟩
    · rw [hr]
      exact Nat.mul_le_mul_right _ hround
    · -- the coefficient does not fit, so it ends in a zero and is beyond the shortened bound
      rw [hbound] at hround
      obtain ⟨c, rfl⟩ := hcases.resolve_left (Nat.not_lt.mpr hround)
      have heq := coefficientBound_eq
      have hc : shortenedBound ≤ c := by omega
      rw [hr, Nat.pow_succ, Nat.mul_comm (10 ^ k) 10, ← Nat.mul_assoc, Nat.mul_comm 10 c]
      exact Nat.mul_le_mul_right _ (Nat.mul_le_mul_right _ hc)
  · have hlarge := hmin j (Nat.lt_succ_self j)
    omega

end Fit

/-! ## 4. Sums -/

section Sums

variable {x y : Int} {scale : Nat} {r a : Decimal} (hscale : scale ≤ maxScale)
    (ha : a.scale ≤ scale) (h : sumAt x y scale = some r)

include hscale ha h

theorem le_signedAt_of_sumAt (hle : a.signedAt scale ≤ x + y) :
    a.signedAt scale ≤ r.signedAt scale := by
  have hlower := le_magnitudeAt_of_fit hscale ha h
  have hupper := magnitudeAt_le_of_fit hscale ha h
  rw [signedAt_eq_magnitudeAt] at hle ⊢
  rw [signedAt_eq_magnitudeAt, (fit_eq_some hscale h).1]
  have hsign := Int.natAbs_eq (x + y)
  generalize (x + y).natAbs = n at hsign hlower hupper
  cases hnegative : a.negative <;> by_cases hsum : x + y < 0 <;>
    simp only [hnegative, hsum, decide_true, decide_false, if_true, Bool.false_eq_true, if_false]
      at hle ⊢ <;> omega

theorem signedAt_le_of_sumAt (hle : x + y ≤ a.signedAt scale) :
    r.signedAt scale ≤ a.signedAt scale := by
  have hlower := le_magnitudeAt_of_fit hscale ha h
  have hupper := magnitudeAt_le_of_fit hscale ha h
  rw [signedAt_eq_magnitudeAt] at hle ⊢
  rw [signedAt_eq_magnitudeAt, (fit_eq_some hscale h).1]
  have hsign := Int.natAbs_eq (x + y)
  generalize (x + y).natAbs = n at hsign hlower hupper
  cases hnegative : a.negative <;> by_cases hsum : x + y < 0 <;>
    simp only [hnegative, hsum, decide_true, decide_false, if_true, Bool.false_eq_true, if_false]
      at hle ⊢ <;> omega

end Sums

/-- **A sum lies on the side of the first operand to which the second one points**, or is equal to
it. -/
theorem add?_units {a b c : Decimal} (h : a.add? b = some c) :
    (0 ≤ b.units → a.units ≤ c.units) ∧ (b.units ≤ 0 → c.units ≤ a.units) := by
  have hzero : ∀ {d : Decimal}, d.isZero = true → d.units = 0 := fun {d} hd => by
    simp [units, signedAt, signed, eq_of_beq hd]
  rw [add?] at h
  split at h
  · next ha =>
    cases h
    rw [hzero ha]
    exact ⟨id, id⟩
  · split at h
    · cases h
      exact ⟨fun _ => le_refl _, fun _ => le_refl _⟩
    · have hmax : max a.scale b.scale ≤ maxScale := Nat.max_le.mpr ⟨a.scale_le, b.scale_le⟩
      have ha := Nat.le_max_left a.scale b.scale
      have hb := Nat.le_max_right a.scale b.scale
      have hc := (fit_eq_some hmax h).2.1
      have hpos : (0 : Int) < 10 ^ (maxScale - max a.scale b.scale) := by positivity
      rw [← signedAt_le_iff ha hc hmax, ← signedAt_le_iff hc ha hmax, units, signedAt_eq hb hmax,
        mul_nonneg_iff_of_pos_right hpos]
      refine ⟨fun hnonneg => le_signedAt_of_sumAt hmax ha h (by omega), fun hneg => ?_⟩
      refine signedAt_le_of_sumAt hmax ha h ?_
      have := nonpos_of_mul_nonpos_left hneg hpos
      omega

end LazyExpr.Decimal
