import LazyExpr.Proofs.Token.Scan

/-!
# The tokens that a text can have

Not every token can come out of a text: an integer is never negative, a decimal has digits behind
its point unless it is too long to have any, and a name is a word that is no keyword.

* `Lexeme.IsName`, `Decimal.IsLiteral`: the names and the decimals that a text can spell.
* `Token.Lexical`: what holds of a token from a text, `lexical_of_lexes`.
-/

namespace LazyExpr

/-! ## 1. Names -/

/-- A word that is read as a name. -/
def Lexeme.IsName (word : String) : Prop :=
  (∃ c cs, word.toList = c :: cs ∧ isWordStart c = true ∧ cs.all isWordPart = true) ∧
    tokenOfWord word = .identifier word

/-! ## 2. Literal decimals -/

namespace Decimal

/-- A decimal that a text can spell: not negative, and without digits behind the point only when one
more digit would not fit. -/
def IsLiteral (d : Decimal) : Prop :=
  d.negative = false ∧ (0 < d.scale ∨ coefficientBound ≤ d.coefficient * 10)

theorem digitValue_le {c : Char} (h : c.isDigit = true) : digitValue c ≤ 9 := by
  simp only [Char.isDigit, Bool.and_eq_true, decide_eq_true_eq, UInt32.le_iff_toNat_le] at h
  have hnine : '9'.val.toNat = 57 := rfl
  have hzero : '0'.toNat = 48 := rfl
  have hc : c.toNat = c.val.toNat := rfl
  simp only [digitValue]
  omega

theorem readWhole_lt {m m' : Nat} {cs : List Char} (hm : m < coefficientBound)
    (h : readWhole m cs = some m') : m' < coefficientBound := by
  induction cs generalizing m with
  | nil =>
    cases h
    exact hm
  | cons c cs ih =>
    simp only [readWhole] at h
    split at h
    · next hnext => exact ih hnext h
    · cases h

/-- Where the digits behind the point run out of room at once, one more would not have fit. -/
theorem readFraction_scale {m scale m' scale' : Nat} {cs : List Char} (hm : m < coefficientBound)
    (hcs : cs ≠ [] ∨ 0 < scale) (hall : cs.all Char.isDigit = true)
    (h : readFraction m scale cs = some (m', scale')) :
    0 < scale' ∨ coefficientBound ≤ m' * 10 := by
  induction cs generalizing m scale with
  | nil =>
    cases h
    exact .inl (hcs.resolve_left (by simp))
  | cons c cs ih =>
    simp only [List.all_cons, Bool.and_eq_true] at hall
    have hdigit := digitValue_le hall.1
    simp only [readFraction] at h
    split at h
    · next hfits => exact ih hfits.2 (.inr (by omega)) hall.2 h
    · next hfull =>
      have hbound : coefficientBound = 2 ^ 96 := rfl
      have hscale : maxScale = 28 := rfl
      generalize hround : (if 5 ≤ digitValue c then m + 1 else m) = rounded at h
      have hrounded : rounded = m + 1 ∧ 5 ≤ digitValue c ∨ rounded = m ∧ digitValue c < 5 := by
        split at hround <;> omega
      split at h
      · next hlt =>
        cases h
        omega
      · split at h
        · cases h
        · cases h
          omega

/-- Digits with some behind the point give a literal decimal. -/
theorem isLiteral_of_ofDigits? {whole fraction : List Char} {d : Decimal}
    (hfraction : fraction ≠ [])
    (hall : fraction.all Char.isDigit = true) (h : ofDigits? false whole fraction = some d) :
    d.IsLiteral := by
  simp only [ofDigits?, Bool.false_and] at h
  obtain ⟨m, hwhole, h⟩ := Option.bind_eq_some_iff.mp h
  obtain ⟨⟨m', scale⟩, hread, h⟩ := Option.bind_eq_some_iff.mp h
  obtain ⟨hnegative, hcoefficient, hscale⟩ := ofParts?_eq_some_iff.mp h
  have hm := readWhole_lt (by decide) hwhole
  refine ⟨hnegative, ?_⟩
  rw [hcoefficient, hscale]
  exact readFraction_scale hm (.inl hfraction) hall hread

end Decimal

/-! ## 3. All tokens -/

/-- Digits have no sign in front. -/
theorem splitSign_digits {digits : List Char} (hall : digits.all Char.isDigit = true) :
    Decimal.splitSign digits = (false, digits) := by
  unfold Decimal.splitSign
  split
  · next cs => simp [show Char.isDigit '-' = false from by decide] at hall
  · rfl

/-- A row of digits is an integer that is not negative. -/
theorem toInt_nonneg_of_digits {digits : List Char} {n : Int64}
    (hall : digits.all Char.isDigit = true)
    (h : int64OfText? (String.ofList digits) = some n) : 0 ≤ n.toInt := by
  simp only [int64OfText?, String.toList_ofList, splitSign_digits hall] at h
  split at h
  · cases h
  · have := int64OfInt?_eq_some_iff.mp h
    rw [this]
    simp

/-- What holds of the tokens of a text. -/
def Token.Lexical : Token → Prop
  | integer n => 0 ≤ n.toInt
  | decimal d => d.IsLiteral
  | identifier name => Lexeme.IsName name
  | _ => True

theorem Lexeme.Scans.lexical {c : Char} {cs : List Char} {t : Token} {taken : Nat}
    (h : Scans c cs t taken) : t.Lexical := by
  have hsigns : ∀ t ∈ signs, t.Lexical := by
    simp [signs, pairs, singles, Token.Lexical]
  have hreserved : ∀ t ∈ reserved, t.Lexical := by
    simp [reserved, Token.Lexical]
  cases h with
  | str => trivial
  | template => trivial
  | integer hdigits hall => exact toInt_nonneg_of_digits hall hdigits
  | decimal hdigits hfraction hall => exact Decimal.isLiteral_of_ofDigits? hfraction hall hdigits
  | word hstart =>
    obtain hname | hword := tokenOfWord_cases (String.ofList (c :: cs.takeWhile isWordPart))
    · rw [hname]
      exact ⟨⟨c, _, String.toList_ofList, hstart, List.all_takeWhile⟩, hname⟩
    · exact hreserved _ hword
  | sign ht => exact hsigns _ ht

/-- **Every token of a text is one that a text can have.** -/
theorem lexical_of_lexes {cs : List Char} {ts : List Token} (h : Lexes cs ts) :
    ∀ t ∈ ts, t.Lexical :=
  h.forall Lexeme.Scans.lexical

end LazyExpr
