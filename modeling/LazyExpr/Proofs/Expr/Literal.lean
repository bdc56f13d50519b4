import LazyExpr.Proofs.Expr.RoundTrip

/-!
# The literals that values are written as

A value is not always written as one literal.  A negative number is a minus sign and a magnitude,
the least integer is a difference, a range names its second element instead of its step, and a
decimal without digits behind the point gets one.  `Expr.spelling` is the expression that the text
of a value is read as.

* `Decimal.pointed`: what becomes of a decimal that is written and read again.
* `written_number`: **every number is read from its text as its spelling.**
-/

namespace LazyExpr

/-! ## 1. Decimals -/

namespace Decimal

/-- The decimal with a digit behind the point, if there is room for one. -/
def pointed (d : Decimal) : Decimal :=
  if h : d.scale = 0 ∧ d.coefficient * 10 < coefficientBound then
    ⟨d.negative, d.coefficient * 10, 1, h.2, by decide⟩
  else d

theorem pointed_of_scale {d : Decimal} (h : d.scale ≠ 0) : d.pointed = d :=
  dif_neg fun hzero => h hzero.1

@[simp] theorem pointed_negative (d : Decimal) : d.pointed.negative = d.negative := by
  unfold pointed
  split <;> rfl

theorem neg_pointed (d : Decimal) : d.neg.pointed = d.pointed.neg := by
  unfold pointed neg
  split <;> rfl

theorem compare_pointed (d : Decimal) : d.pointed.compare d = .eq := by
  unfold pointed
  split
  · next h =>
    have hvalue : (⟨d.negative, d.coefficient * 10, 1, h.2, by decide⟩ : Decimal).signedAt 1 =
        d.signedAt 1 := by
      simp only [signedAt, signed, h.1]
      split
      · simp
      · simp
    simp [compare, aligned, h.1, hvalue]
  · simp [compare, aligned]

/-- One more zero behind the digits. -/
theorem paddedDigits_mul_ten (coefficient : Nat) :
    paddedDigits (coefficient * 10) 1 = Nat.toDigits 10 coefficient ++ ['0'] := by
  have hzero : Nat.toDigits 10 0 = ['0'] := Nat.toDigits_of_lt_base (by decide)
  rcases Nat.eq_zero_or_pos coefficient with rfl | hpos
  · simp [paddedDigits, hzero]
  · have hdigits : Nat.toDigits 10 (coefficient * 10) = Nat.toDigits 10 coefficient ++ ['0'] := by
      rw [← hzero, Nat.toDigits_append_toDigits (by decide) hpos (by decide),
        Nat.add_zero, Nat.mul_comm]
    have hlength : 0 < (Nat.toDigits 10 coefficient).length :=
      List.length_pos_iff.mpr Nat.toDigits_ne_nil
    have hpadding : 1 + 1 - (Nat.toDigits 10 coefficient ++ ['0']).length = 0 := by
      simp only [List.length_append, List.length_singleton]
      omega
    rw [paddedDigits, hdigits, hpadding, List.replicate_zero, List.nil_append]

/-- **A decimal is written with the digit that it is read with.** -/
@[simp] theorem source_pointed (d : Decimal) : d.pointed.source = d.source := by
  unfold pointed
  split
  · next h =>
    have hlength : 0 < (Nat.toDigits 10 d.coefficient).length :=
      List.length_pos_iff.mpr Nat.toDigits_ne_nil
    have hplain : paddedDigits d.coefficient 0 = Nat.toDigits 10 d.coefficient := by
      rw [paddedDigits, show 0 + 1 - (Nat.toDigits 10 d.coefficient).length = 0 by omega]
      rfl
    have hmore : magnitudeText (d.coefficient * 10) 1 =
      magnitudeText d.coefficient 0 ++ ['.', '0'] := by
      simp [magnitudeText, paddedDigits_mul_ten, hplain]
    refine String.toList_injective ?_
    simp [source, text, h.1, hmore]
  · rfl

theorem isLiteral_pointed {d : Decimal} (h : d.negative = false) : d.pointed.IsLiteral := by
  refine ⟨by rw [pointed_negative, h], ?_⟩
  unfold pointed
  split
  · exact .inl Nat.one_pos
  · next hroom =>
    by_cases hscale : d.scale = 0
    · exact .inr (Nat.not_lt.mp fun hlt => hroom ⟨hscale, hlt⟩)
    · exact .inl (Nat.pos_of_ne_zero hscale)

/-- A minus sign stands in front of the magnitude. -/
theorem source_of_negative {d : Decimal} (h : d.negative = true) :
    d.source = "-" ++ d.neg.source := by
  have htext : d.text = "-" ++ d.neg.text := by
    refine String.toList_injective ?_
    simp [text, neg, h]
  by_cases hscale : d.scale = 0
  · simp [source, neg, hscale, htext, String.append_assoc]
  · simp [source, neg, hscale, htext]

end Decimal

/-! ## 2. Numbers -/

/-- The expression that the text of a number is read as. -/
def Number.spelling : Number → Expr
  | .integer n =>
    if n = Int64.minValue then
      .binary .sub (.unary .negate (.integer Int64.maxValue)) (.integer 1)
    else if n < 0 then .unary .negate (.integer (-n))
    else .integer n
  | .decimal d =>
    if d.negative then .unary .negate (.decimal d.neg.pointed) else .decimal d.pointed

namespace Number

theorem spelling_negative {n : Int64} (hmin : n ≠ Int64.minValue) (hneg : n < 0) :
    (integer n).spelling = .unary .negate (.integer (-n)) := by
  rw [spelling, if_neg hmin, if_pos hneg]

theorem spelling_nonnegative {n : Int64} (hmin : n ≠ Int64.minValue) (hneg : ¬ n < 0) :
    (integer n).spelling = .integer n := by
  rw [spelling, if_neg hmin, if_neg hneg]

theorem spelling_decimal_negative {d : Decimal} (h : d.negative = true) :
    (decimal d).spelling = .unary .negate (.decimal d.neg.pointed) := by
  rw [spelling, if_pos h]

theorem spelling_decimal {d : Decimal} (h : d.negative = false) :
    (decimal d).spelling = .decimal d.pointed := by
  simp [spelling, h]

end Number

/-- How tightly the text of a number binds: a zero with a minus sign binds like a prefix
operator. -/
def Number.strength (n : Number) : Nat :=
  match n with
  | .decimal d => if d.negative then Precedence.unary else Precedence.atom
  | .integer _ => n.precedence

theorem Int64.toInt_neg_of_ne {n : Int64} (h : n ≠ Int64.minValue) : (-n).toInt = -n.toInt := by
  have hmin : n.toInt ≠ Int64.minValue.toInt := fun heq => h (Int64.toInt_inj.mp heq)
  have hbound : Int64.minValue.toInt = -2 ^ 63 := by decide
  have hle := n.le_toInt
  have hlt := n.toInt_lt
  rw [Int64.toInt_neg, Int.bmod_eq_of_le] <;> omega

/-- A negative integer is a minus sign in front of its opposite. -/
theorem source_of_negative {n : Int64} (hmin : n ≠ Int64.minValue) (h : n < 0) :
    (Number.integer n).source = "-" ++ (Number.integer (-n)).source ∧ 0 ≤ (-n).toInt := by
  have hneg := Int64.toInt_neg_of_ne hmin
  have hnonneg : 0 ≤ (-n).toInt := by
    rw [Int64.lt_iff_toInt_lt, Int64.toInt_zero] at h
    omega
  refine ⟨?_, hnonneg⟩
  rw [source_integer hnonneg, hneg, Int.natAbs_neg]
  refine String.toList_injective ?_
  simp [Number.source, hmin, Number.integerDigits, h]

/-! ## 3. Numbers are read within two levels -/

section Written

variable {scope : Scope}

/-- Within `level` levels the tokens are read as the expression, in front of any token that
closes. -/
def Within (scope : Scope) (level : Nat) (e : Expr) (ts : List Token) : Prop :=
  ∀ rest, Token.Closes rest.head? →
    Reads 0 level scope (.expression Precedence.lowest) (ts ++ rest) [e] rest

theorem Within.of_value {level : Nat} {e : Expr} {ts : List Token}
    (h : ∀ rest, Reads 0 level scope .value (ts ++ rest) [e] rest) :
    Within scope (level + 1) e ts :=
  fun rest hrest => .expression (h rest) (.stop (hrest.follows _).stopsAt_lowest)

theorem Within.mono {level level' : Nat} {e : Expr} {ts : List Token} (h : Within scope level e ts)
    (hle : level ≤ level') : Within scope level' e ts :=
  fun rest hrest => (h rest hrest).mono (Nat.le_refl 0) hle

/-- **Every number is read from its text as its spelling**, within two levels. -/
theorem written_number (scope : Scope) (n : Number) :
    ∃ ts, Written scope n.source n.spelling n.strength ts ∧ Within scope 2 n.spelling ts := by
  have hliteral : ∀ {t : Token} {e : Expr}, t.literal? = some e → Within scope 2 e [t] :=
    fun ht => .mono (.of_value fun rest => .literal (n := 0) ht) (by decide)
  have hnegated : ∀ {t : Token} {e : Expr}, t.literal? = some e →
      Within scope 2 (.unary .negate e) [UnaryOp.negate.token, t] :=
    fun ht => .of_value fun rest => .unary (n := 0) (.literal ht)
  cases n with
  | integer n =>
    by_cases hmin : n = Int64.minValue
    · subst hmin
      have hmax : (0 : Int) ≤ Int64.maxValue.toInt := by decide
      have hone : (0 : Int) ≤ (1 : Int64).toInt := by decide
      have hopposite : Written scope _ (.unary .negate (.integer Int64.maxValue)) _ _ :=
        written_unary (written_integer hmax) (Nat.le_refl _)
      have hdifference : Written scope _ (.binary .sub _ (.integer 1)) _ _ :=
        written_binary hopposite (by decide) (written_integer hone) (by decide)
      refine ⟨_, hdifference.inParens, .of_value fun rest => .parens (n := 1) ?_⟩
      refine .negation (n := 0) (.literal rfl) ?_
      refine .binary (by decide) (by simp)
        (.expression (n := 0) (.literal rfl) (.stop ?_)) (.stop ?_)
      · exact (rfl : Token.startsValue .rightParen = false)
      · exact (rfl : Token.startsValue .rightParen = false)
    · by_cases hneg : n < 0
      · obtain ⟨hsource, hnonneg⟩ := source_of_negative hmin hneg
        have hstrength : (Number.integer n).strength = Precedence.unary := by
          simp [Number.strength, Number.precedence, Number.isNegative, hmin, hneg]
        have hwritten : Written scope _ (.unary .negate (.integer (-n))) _ _ :=
          written_unary (written_integer hnonneg) (Nat.le_refl _)
        rw [hsource, Number.spelling_negative hmin hneg, hstrength]
        exact ⟨_, hwritten, hnegated rfl⟩
      · have hnonneg : 0 ≤ n.toInt := by simpa [Int64.lt_iff_toInt_lt] using hneg
        have hstrength : (Number.integer n).strength = Precedence.atom := by
          simp [Number.strength, Number.precedence, Number.isNegative, hneg]
        rw [Number.spelling_nonnegative hmin hneg, hstrength]
        exact ⟨_, written_integer hnonneg, hliteral rfl⟩
  | decimal d =>
    cases hneg : d.negative with
    | true =>
      have hliteral : d.neg.pointed.IsLiteral :=
        d.neg.isLiteral_pointed (by simp [Decimal.neg, hneg])
      have hwritten : Written scope _ (.unary .negate (.decimal d.neg.pointed)) _ _ :=
        written_unary (written_decimal hliteral) (Nat.le_refl _)
      have hsource : (Number.decimal d).source = UnaryOp.negate.symbol ++ d.neg.pointed.source := by
        rw [Decimal.source_pointed]
        exact Decimal.source_of_negative hneg
      simp only [Number.spelling, Number.strength, hneg, if_true, hsource]
      exact ⟨_, hwritten, hnegated rfl⟩
    | false =>
      have hwritten : Written scope _ _ _ _ := written_decimal (d.isLiteral_pointed hneg)
      simp only [Number.spelling, Number.strength, hneg, Number.source,
        Bool.false_eq_true, if_false]
      rw [Decimal.source_pointed] at hwritten
      exact ⟨_, hwritten, hliteral rfl⟩

/-! ## 4. Brackets -/

/-- The text is read as the expression, and within so many levels. -/
structure Legible (scope : Scope) (level : Nat) (text : String) (e : Expr)
    (ts : List Token) : Prop where
  written : ∃ p, Written scope text e p ts
  within : Within scope level e ts

theorem Legible.mono {level level' : Nat} {text : String} {e : Expr} {ts : List Token}
    (h : Legible scope level text e ts) (hle : level ≤ level') : Legible scope level' text e ts :=
  ⟨h.written, h.within.mono hle⟩

/-- The text ends brackets, whose elements are read within so many levels. -/
structure EndsWithin (scope : Scope) (level : Nat) (text : String)
    (whole : List Expr → Expr → Option Expr) (ts : List Token) : Prop where
  ends : Ends scope text whole ts
  within : ∀ {item us before e}, Within scope level item us → whole before item = some e →
    ∀ rest, Reads 0 level scope (.elements before) (us ++ (ts ++ rest)) [e] rest

theorem endsWithin_close {level : Nat} : EndsWithin scope level "]"
    (fun before item => some (.literal (item :: before).reverse)) [.rightBracket] where
  ends := ends_close
  within := by
    rintro item us before _ hitem ⟨⟩ rest
    exact .elementsEnd (hitem _ (by simp [Token.Closes]))

theorem endsWithin_comma {level : Nat} {text a : String} {whole : List Expr → Expr → Option Expr}
    {next : Expr} {ts us : List Token} (hnext : Legible scope level a next us)
    (h : EndsWithin scope level text whole ts) :
    EndsWithin scope level (", " ++ a ++ text) (fun before item => whole (item :: before) next)
      (.comma :: (us ++ ts)) where
  ends := by
    obtain ⟨p, hwritten⟩ := hnext.written
    exact ends_comma hwritten h.ends
  within := by
    intro item ws before e hitem hwhole rest
    have hmore := h.within hnext.within hwhole rest
    have hfirst := hitem (.comma :: (us ++ (ts ++ rest))) (by simp [Token.Closes])
    simpa using Reads.elementsMore hfirst hmore

theorem endsWithin_open {level : Nat} : EndsWithin scope level "..]"
    (fun before item => Expr.rangeOf? none (item :: before).reverse) [.dots, .rightBracket] where
  ends := ends_open
  within := by
    intro item us before e hitem hwhole rest
    exact .rangeOpen (hitem _ (by simp [Token.Closes])) hwhole

theorem endsWithin_closed {level : Nat} {a : String} {stop : Expr} {ts : List Token}
    (hstop : Legible scope level a stop ts) : EndsWithin scope level (".." ++ a ++ "]")
      (fun before item => Expr.rangeOf? (some stop) (item :: before).reverse)
      (.dots :: (ts ++ [.rightBracket])) where
  ends := by
    obtain ⟨p, hwritten⟩ := hstop.written
    exact ends_closed hwritten
  within := by
    intro item us before e hitem hwhole rest
    have hfirst := hitem (.dots :: (ts ++ .rightBracket :: rest)) (by simp [Token.Closes])
    have hlast := hstop.within (.rightBracket :: rest) (by simp [Token.Closes])
    simpa using Reads.rangeClosed hfirst hlast hwhole

/-- Brackets take one level more than what is in them. -/
theorem legible_brackets {level : Nat} {a text : String} {first e : Expr}
    {whole : List Expr → Expr → Option Expr} {ts us : List Token}
    (hfirst : Legible scope level a first us) (h : EndsWithin scope level text whole ts)
    (hwhole : whole [] first = some e) :
    Written scope ("[" ++ a ++ text) e Precedence.atom (.leftBracket :: (us ++ ts)) ∧
      Within scope (level + 1) e (.leftBracket :: (us ++ ts)) := by
  obtain ⟨p, hwritten⟩ := hfirst.written
  refine ⟨written_brackets hwritten h.ends hwhole, .of_value fun rest => ?_⟩
  have hopen : (us ++ (ts ++ rest)).head? ≠ some .rightBracket := hwritten.head_ne rfl _
  simpa using Reads.list hopen (h.within hfirst.within hwhole rest)

/-! ## 5. Ranges -/

theorem legible_number (scope : Scope) (n : Number) :
    ∃ ts, Legible scope 2 n.source n.spelling ts := by
  obtain ⟨ts, hwritten, hwithin⟩ := written_number scope n
  exact ⟨ts, ⟨_, hwritten⟩, hwithin⟩

/-- The second element of a progression, where it is written. -/
def Progression.second? (p : Progression) : Option Number :=
  if p.step.compare (.integer 1) = .eq then none else p.start.add? p.step

/-- The step from a first element to the second, which is one where no second is written. -/
def rangeStep? (start : Number) : Option Number → Option Number
  | none => some (.integer 1)
  | some second => second.sub? start

/-- The range literal that a progression is written as. -/
def Progression.spelling (p : Progression) : Expr :=
  .range p.start.spelling (p.second?.map Number.spelling) (p.stop.map Number.spelling)

theorem source_progression (p : Progression) : p.source = "[" ++ p.start.source ++
    (p.second?.map fun n => ", " ++ n.source).getD "" ++ ".." ++
    (p.stop.map Number.source).getD "" ++ "]" := by
  simp only [Progression.source, Progression.second?]
  split <;> rfl

/-- **Every progression is read from its text as its range literal**, within three levels. -/
theorem written_progression (scope : Scope) (p : Progression) :
    ∃ ts, Written scope p.source p.spelling Precedence.atom ts ∧ Within scope 3 p.spelling ts := by
  obtain ⟨us, hstart⟩ := legible_number scope p.start
  obtain ⟨text, ts, hends, htext⟩ : ∃ text ts, EndsWithin scope 2 text (fun before item =>
      Expr.rangeOf? (p.stop.map Number.spelling) (item :: before).reverse) ts ∧
      text = ".." ++ (p.stop.map Number.source).getD "" ++ "]" := by
    cases p.stop with
    | none => exact ⟨_, _, endsWithin_open, rfl⟩
    | some stop =>
      obtain ⟨_, hstop⟩ := legible_number scope stop
      exact ⟨_, _, endsWithin_closed hstop, rfl⟩
  have hsource : p.source = "[" ++ p.start.source ++
      ((p.second?.map fun n => ", " ++ n.source).getD "" ++ text) := by
    simp only [source_progression, htext, String.append_assoc]
  rw [hsource, Progression.spelling]
  cases p.second? with
  | none => exact ⟨_, legible_brackets hstart (by simpa using hends) rfl⟩
  | some second =>
    obtain ⟨_, hsecond⟩ := legible_number scope second
    have hcomma := endsWithin_comma hsecond hends
    exact ⟨_, legible_brackets hstart (by simpa [String.append_assoc] using hcomma) rfl⟩

/-! ## 6. Values -/

mutual

/-- The expression that the text of a value is read as; captured arguments are left out. -/
def Expr.spelling : Expr → Expr
  | .number n => n.spelling
  | .list l => l.spelling
  | .closure depth parameters body _ => .lambda depth parameters body
  | .applied target arguments => target.spelling.callAll (spellings arguments)
  | .leftSection op left => .leftSection op left.spelling
  | .rightSection op right => .rightSection op right.spelling
  | e => e

/-- The expression that the text of a list is read as. -/
def LazyList.spelling : LazyList → Expr
  | .items elements _ _ => .literal (spellings elements)
  | .progression range => range.spelling
  | .prepend head tail => .binary .prepend head.spelling tail.spelling
  | .concat first second => .binary .concat first.spelling second.spelling
  | .mapped function source =>
    .call (.call (.function Builtin.map.toFunction) function.spelling) source.spelling
  | .filtered predicate source =>
    .call (.call (.function Builtin.filter.toFunction) predicate.spelling) source.spelling
  | .dropped count source =>
    .call (.call (.function Builtin.drop.toFunction) (.integer (.ofNat count))) source.spelling

/-- The expressions that the texts of some values are read as. -/
def spellings : List Expr → List Expr
  | [] => []
  | x :: xs => x.spelling :: spellings xs

end

theorem spellings_eq_map (xs : List Expr) : spellings xs = xs.map Expr.spelling := by
  induction xs with
  | nil => rfl
  | cons x xs ih => rw [spellings, ih, List.map_cons]

end Written

end LazyExpr
