import LazyExpr.Proofs.List.Finite

/-!
# Comparison is comparison of exact values

A number stands for a rational number: an integer for itself, a decimal for its signed coefficient
over a power of ten.  Numbers are compared without computing that: two integers as they are, any
other two as coefficients at the larger scale, where an integer is first written as a decimal.
Nothing is lost on the way, since at most 19 digits become a coefficient of at most 29, and
alignment multiplies only.

* `Number.promote_value` — an operand that is promoted stands for what it stood for.
* `Number.compare_eq_value` — **the order of two numbers is the order of the rational numbers they
  stand for**, whatever their kinds, signs and scales.
* `BinaryOp.onValues_numbers` — so a comparison operator on numbers decides a relation between
  rational numbers.
* `comparison_laws` — **the comparison operators are coherent**: what holds of equality and order in
  general holds of their answers.
-/

namespace LazyExpr

/-! ## 1. What a number stands for -/

/-- The rational number that the decimal stands for. -/
def Decimal.value (d : Decimal) : ℚ := d.signed / 10 ^ d.scale

theorem Decimal.units_eq_value (d : Decimal) : (d.units : ℚ) = d.value * 10 ^ maxScale := by
  have hpow : (10 : ℚ) ^ maxScale = 10 ^ (maxScale - d.scale) * 10 ^ d.scale := by
    rw [← pow_add, Nat.sub_add_cancel d.scale_le]
  have hne : (10 : ℚ) ^ d.scale ≠ 0 := by positivity
  rw [units, signedAt_def, value, hpow]
  push_cast
  field_simp

namespace Number

/-- The rational number that the number stands for. -/
def value : Number → ℚ
  | integer n => n.toInt
  | decimal d => d.value

theorem units_eq_value (n : Number) : (n.units : ℚ) = n.value * 10 ^ maxScale := by
  cases n with
  | integer n =>
    rw [units_integer]
    push_cast
    rfl
  | decimal d => exact d.units_eq_value

/-- A number taken as a decimal stands for the same. -/
theorem value_toDecimal (n : Number) : n.toDecimal.value = n.value := by
  have hne : (10 : ℚ) ^ maxScale ≠ 0 := by positivity
  refine mul_right_cancel₀ hne ?_
  rw [← units_eq_value, ← Decimal.units_eq_value]
  rfl

/-- Promotion is exact: neither operand changes what it stands for. -/
theorem promote_value (a b : Number) :
    (a.promote b).1.value = a.value ∧ (a.promote b).2.value = b.value := by
  unfold promote
  split
  · exact ⟨a.value_toDecimal, b.value_toDecimal⟩
  · exact ⟨rfl, rfl⟩

/-- Units and values have the same order. -/
theorem units_lt_iff (a b : Number) : a.units < b.units ↔ a.value < b.value := by
  have hpos : (0 : ℚ) < 10 ^ maxScale := by positivity
  rw [← Int.cast_lt (R := ℚ), units_eq_value, units_eq_value, mul_lt_mul_iff_left₀ hpos]

/-- **The order of two numbers is the order of what they stand for.** -/
theorem compare_eq_value (a b : Number) : a.compare b = Ord.compare a.value b.value := by
  rw [compare_eq_units]
  rcases lt_trichotomy a.value b.value with h | h | h
  · rw [compare_lt_iff_lt.mpr h, compare_lt_iff_lt, units_lt_iff]
    exact h
  · have hle := mt (units_lt_iff b a).mp h.le.not_gt
    have hge := mt (units_lt_iff a b).mp h.ge.not_gt
    rw [compare_eq_iff_eq.mpr h, compare_eq_iff_eq]
    omega
  · rw [compare_gt_iff_gt.mpr h, compare_gt_iff_gt]
    exact (units_lt_iff b a).mpr h

end Number

/-! ## 2. Operators on numbers -/

namespace BinaryOp

/-- The relation between rational numbers that a comparison operator decides. -/
def relation? : BinaryOp → Option (ℚ → ℚ → Bool)
  | equal => some fun x y => x = y
  | notEqual => some fun x y => x ≠ y
  | less => some fun x y => x < y
  | lessEqual => some fun x y => x ≤ y
  | greater => some fun x y => y < x
  | greaterEqual => some fun x y => y ≤ x
  | _ => none

/-- The operator answers `b` for the two values. -/
def Answers (op : BinaryOp) (left right : Expr) (b : Bool) : Prop :=
  op.onValues left right = .ok (.bool b)

/-- The operator has an answer for the two values. -/
def Defined (op : BinaryOp) (left right : Expr) : Prop := ∃ b, op.Answers left right b

/-- **A comparison operator on two numbers decides its relation between what they stand for.** -/
theorem onValues_numbers {op : BinaryOp} {r : ℚ → ℚ → Bool} (h : op.relation? = some r)
    (a b : Number) :
    op.Answers (.number a) (.number b) (r a.value b.value) := by
  have hcompare := a.compare_eq_value b
  rcases lt_trichotomy a.value b.value with hlt | heq | hgt
  · rw [compare_lt_iff_lt.mpr hlt] at hcompare
    cases op <;> cases h <;>
      simp [Answers, onValues, comparison, compares?, Expr.equal?, Expr.number?,
        ofOrdering?, hcompare, hlt, hlt.ne, hlt.le, hlt.not_gt, hlt.not_ge]
  · rw [compare_eq_iff_eq.mpr heq] at hcompare
    cases op <;> cases h <;>
      simp [Answers, onValues, comparison, compares?, Expr.equal?, Expr.number?,
        ofOrdering?, hcompare, heq]
  · rw [compare_gt_iff_gt.mpr hgt] at hcompare
    cases op <;> cases h <;>
      simp [Answers, onValues, comparison, compares?, Expr.equal?, Expr.number?,
        ofOrdering?, hcompare, hgt, hgt.ne', hgt.le, hgt.not_gt, hgt.not_ge]

end BinaryOp

/-! ## 3. Equality -/

namespace Expr

/-- The values that equality compares with their like: null, booleans, strings and numbers. -/
def isPlain : Expr → Bool
  | null | bool _ | str _ | number _ => true
  | _ => false

/-- Null equals null, numbers are equal that stand for the same, booleans and strings that are the
same; null differs from everything else. -/
inductive SameValue : Expr → Expr → Prop
  | null : SameValue null null
  | bool (b : Bool) : SameValue (bool b) (bool b)
  | str (s : String) : SameValue (str s) (str s)
  | number {a b : Number} (h : a.value = b.value) : SameValue (number a) (number b)

theorem SameValue.symm {v w : Expr} (h : SameValue v w) : SameValue w v := by
  cases h with
  | null => exact .null
  | bool b => exact .bool b
  | str s => exact .str s
  | number h => exact .number h.symm

theorem SameValue.trans {v w u : Expr} (h : SameValue v w) (h' : SameValue w u) :
    SameValue v u := by
  cases h with
  | null => exact h'
  | bool b => exact h'
  | str s => exact h'
  | number h =>
    cases h' with
    | number h' => exact .number (h.trans h')

theorem SameValue.refl {v : Expr} (h : v.isPlain = true) : SameValue v v := by
  cases v with
  | null => exact .null
  | bool b => exact .bool b
  | str s => exact .str s
  | number n => exact .number rfl
  | _ => cases h

theorem equal?_number (a b : Number) :
    (number a).equal? (number b) = some (decide (a.value = b.value)) := by
  rw [equal?, Number.compare_eq_value]
  congr 1
  rw [Bool.eq_iff_iff, beq_iff_eq, compare_eq_iff_eq, decide_eq_true_iff]

/-- Whether equality is defined, and what it says, does not depend on the order of the operands. -/
theorem equal?_comm (v w : Expr) : v.equal? w = w.equal? v := by
  cases v <;> cases w <;> first | rfl | skip
  · rw [equal?_number, equal?_number]
    simp only [eq_comm]
  · simp only [equal?, BEq.comm]
  · simp only [equal?, BEq.comm]

theorem equal?_eq_true_iff {v w : Expr} : v.equal? w = some true ↔ SameValue v w := by
  constructor
  · intro h
    cases v <;> cases w <;> first | cases h | skip
    · rw [equal?_number] at h
      exact .number (by simpa using h)
    · obtain rfl : _ = _ := by simpa [equal?] using h
      exact .bool _
    · obtain rfl : _ = _ := by simpa [equal?] using h
      exact .str _
    · exact .null
  · intro h
    cases h with
    | null => rfl
    | bool b => simp [equal?]
    | str s => simp [equal?]
    | number h => rw [equal?_number, decide_eq_true h]

end Expr

namespace BinaryOp

theorem answers_equal_iff {v w : Expr} {b : Bool} :
    equal.Answers v w b ↔ v.equal? w = some b := by
  cases h : v.equal? w <;> simp [Answers, onValues, comparison, compares?, h]

theorem answers_notEqual_iff {v w : Expr} {b : Bool} :
    notEqual.Answers v w b ↔ v.equal? w = some !b := by
  cases h : v.equal? w with
  | none => simp [Answers, onValues, comparison, compares?, h]
  | some a => cases a <;> cases b <;> simp [Answers, onValues, comparison, compares?, h]

/-- A value is related to another by `==` exactly if the two are the same value. -/
theorem answers_equal_true_iff {v w : Expr} : equal.Answers v w true ↔ v.SameValue w :=
  answers_equal_iff.trans Expr.equal?_eq_true_iff

end BinaryOp

/-! ## 4. The laws of comparison -/

/-- What holds of comparisons. -/
structure ComparisonLaws : Prop where
  /-- The order of numbers of any kind is the order of what they stand for. -/
  compare_value (a b : Number) : a.compare b = Ord.compare a.value b.value
  /-- Equality is defined between two values in both orders or in neither. -/
  equal_defined (v w : Expr) : BinaryOp.equal.Defined v w ↔ BinaryOp.equal.Defined w v
  equal_symm {v w : Expr} {b : Bool} : BinaryOp.equal.Answers v w b → BinaryOp.equal.Answers w v b
  equal_trans {v w u : Expr} : BinaryOp.equal.Answers v w true → BinaryOp.equal.Answers w u true →
    BinaryOp.equal.Answers v u true
  equal_refl {v : Expr} : v.isPlain = true → BinaryOp.equal.Answers v v true
  notEqual_iff {v w : Expr} {b : Bool} :
    BinaryOp.notEqual.Answers v w b ↔ BinaryOp.equal.Answers v w !b
  /-- Every comparison of numbers has an answer. -/
  defined_numbers {op : BinaryOp} (h : op.relation?.isSome = true) (a b : Number) :
    op.Defined (.number a) (.number b)
  /-- Of two numbers, one is below the other, or they are equal: never two of this at once. -/
  trichotomy (a b : Number) :
    ∃! op, op ∈ [BinaryOp.less, .equal, .greater] ∧ op.Answers (.number a) (.number b) true
  lessEqual_iff {a b : Number} {c : Bool} :
    BinaryOp.lessEqual.Answers (.number a) (.number b) c ↔
      BinaryOp.greater.Answers (.number a) (.number b) !c
  greaterEqual_iff {a b : Number} {c : Bool} :
    BinaryOp.greaterEqual.Answers (.number a) (.number b) c ↔
      BinaryOp.less.Answers (.number a) (.number b) !c
  less_trans {a b c : Number} : BinaryOp.less.Answers (.number a) (.number b) true →
    BinaryOp.less.Answers (.number b) (.number c) true →
    BinaryOp.less.Answers (.number a) (.number c) true

namespace BinaryOp

/-- On numbers the answer is the relation's, and no other. -/
theorem answers_numbers_iff {op : BinaryOp} {r : ℚ → ℚ → Bool} (h : op.relation? = some r)
    {a b : Number} {c : Bool} :
    op.Answers (.number a) (.number b) c ↔ r a.value b.value = c := by
  rw [Answers, onValues_numbers h a b]
  simp

/-- The comparison that holds of two numbers in the given order. -/
def ofOrdering : Ordering → BinaryOp
  | .lt => less
  | .eq => equal
  | .gt => greater

theorem answers_true_iff_eq_ofOrdering {op : BinaryOp} (h : op ∈ [less, equal, greater])
    (a b : Number) :
    op.Answers (.number a) (.number b) true ↔ op = ofOrdering (a.compare b) := by
  simp only [List.mem_cons, List.not_mem_nil, or_false] at h
  rcases h with rfl | rfl | rfl <;> cases hcompare : a.compare b <;>
    simp [Answers, onValues, comparison, compares?, Expr.equal?, Expr.number?,
      ofOrdering?, ofOrdering, hcompare]

/-- Of `<`, `==` and `>` exactly one holds. -/
theorem answers_trichotomy (a b : Number) :
    ∃! op, op ∈ [less, equal, greater] ∧ op.Answers (.number a) (.number b) true := by
  have hmem : ofOrdering (a.compare b) ∈ [less, equal, greater] := by
    cases a.compare b <;> simp [ofOrdering]
  refine ⟨ofOrdering (a.compare b), ⟨hmem, (answers_true_iff_eq_ofOrdering hmem a b).mpr rfl⟩, ?_⟩
  rintro op ⟨hop, hanswer⟩
  exact (answers_true_iff_eq_ofOrdering hop a b).mp hanswer

end BinaryOp

/-- **The comparison operators are coherent.** -/
theorem comparison_laws : ComparisonLaws where
  compare_value := Number.compare_eq_value
  equal_defined v w := by
    simp only [BinaryOp.Defined, BinaryOp.answers_equal_iff, Expr.equal?_comm v w]
  equal_symm h := by
    rw [BinaryOp.answers_equal_iff] at h ⊢
    rwa [Expr.equal?_comm]
  equal_trans h h' := by
    rw [BinaryOp.answers_equal_true_iff] at h h' ⊢
    exact h.trans h'
  equal_refl h := BinaryOp.answers_equal_true_iff.mpr (.refl h)
  notEqual_iff := BinaryOp.answers_notEqual_iff.trans BinaryOp.answers_equal_iff.symm
  defined_numbers h a b := by
    obtain ⟨r, hr⟩ := Option.isSome_iff_exists.mp h
    exact ⟨_, BinaryOp.onValues_numbers hr a b⟩
  trichotomy := BinaryOp.answers_trichotomy
  lessEqual_iff {a b c} := by
    rw [BinaryOp.answers_numbers_iff rfl, BinaryOp.answers_numbers_iff rfl]
    cases c <;> simp
  greaterEqual_iff {a b c} := by
    rw [BinaryOp.answers_numbers_iff rfl, BinaryOp.answers_numbers_iff rfl]
    cases c <;> simp
  less_trans h h' := by
    rw [BinaryOp.answers_numbers_iff rfl] at h h' ⊢
    exact decide_eq_true (lt_trans (of_decide_eq_true h) (of_decide_eq_true h'))

/-- The largest integer, a decimal less than a millionth above it, and the decimal after that
integer: an order between decimals of different scales gives one between an integer and a decimal.
A negative zero with 28 digits equals the integer zero. -/
theorem comparison_laws_at_mixed_scales :
    BinaryOp.less.Answers (.number (.integer Int64.maxValue))
        (.number (.decimal ⟨false, 92233720368547758080, 1, by decide, by decide⟩)) true ∧
      BinaryOp.equal.Answers (.number (.integer 0))
        (.number (.decimal ⟨true, 0, 28, by decide, by decide⟩)) true := by
  refine ⟨comparison_laws.less_trans
    (b := .decimal ⟨false, 9223372036854775807000000001, 9, by decide, by decide⟩) ?_ ?_, ?_⟩
  · rfl
  · rfl
  · exact comparison_laws.equal_symm rfl

end LazyExpr
