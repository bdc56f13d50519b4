import LazyExpr.Proofs.Token.Ahead

/-!
# What a scan gives

`Lexeme.scan` goes through a list of cases.  They are gone through once, here, and everything that
is said about the tokens of a text is said about the rules of `Scans`.

* `Lexeme.Scans c cs t taken` has one rule for each kind of token, and `scans_of_scan` is the
  inversion.
* `Lexes.forall`: what holds of every scanned token holds of every token of a text.
-/

namespace LazyExpr

namespace Lexeme

/-- The tokens of signs. -/
def signs : List Token := pairs.map Prod.snd ++ singles.map Prod.snd

/-- `Scans c cs t taken`: the token `t` starts with `c` and takes so many characters of `cs`. -/
inductive Scans (c : Char) (cs : List Char) : Token → Nat → Prop where
  | str {contents : List Char} {taken : Nat} (hbody : scanBody cs = (.ok contents, taken)) :
      Scans c cs (.str (String.ofList contents)) (0 + taken)
  | template {contents : List Char} {taken : Nat} (hquote : cs.head? = some '"')
      (hbody : scanBody cs.tail = (.ok contents, taken)) :
      Scans c cs (.template (String.ofList contents)) (1 + taken)
  | integer {digits : List Char} {n : Int64} {taken : Nat}
      (hdigits : int64OfText? (String.ofList digits) = some n)
      (hall : digits.all Char.isDigit = true) : Scans c cs (.integer n) taken
  | decimal {whole fraction : List Char} {d : Decimal} {taken : Nat}
      (hdigits : Decimal.ofDigits? false whole fraction = some d)
      (hfraction : fraction ≠ []) (hall : fraction.all Char.isDigit = true) :
      Scans c cs (.decimal d) taken
  | word {taken : Nat} (hstart : isWordStart c = true) :
      Scans c cs (tokenOfWord (String.ofList (c :: cs.takeWhile isWordPart))) taken
  | sign {t : Token} {taken : Nat} (ht : t ∈ signs) : Scans c cs t taken

theorem scans_integerOfDigits {c : Char} {cs digits : List Char} {t : Token} {taken : Nat}
    (hall : digits.all Char.isDigit = true) (h : integerOfDigits digits = .token t) :
    Scans c cs t taken := by
  unfold integerOfDigits at h
  split at h
  · next n hdigits =>
    cases h
    exact .integer hdigits hall
  · cases h

theorem scans_of_scanNumber {c : Char} {cs : List Char} {t : Token} {taken : Nat}
    (hc : c.isDigit = true) (h : scanNumber c cs = (.token t, taken)) : Scans c cs t taken := by
  have hall : (c :: cs.takeWhile Char.isDigit).all Char.isDigit = true := by
    simp only [List.all_cons, hc, Bool.true_and, List.all_takeWhile]
  unfold scanNumber at h
  split at h
  · next rest _ =>
    simp only at h
    split at h
    · obtain ⟨hinteger, -⟩ := Prod.mk.inj h
      exact scans_integerOfDigits hall hinteger
    · next hfraction =>
      obtain ⟨hdecimal, -⟩ := Prod.mk.inj h
      unfold decimalOfDigits at hdecimal
      split at hdecimal
      · next d hdigits =>
        cases hdecimal
        exact .decimal hdigits (by simpa using hfraction) List.all_takeWhile
      · cases hdecimal
  · obtain ⟨hinteger, -⟩ := Prod.mk.inj h
    exact scans_integerOfDigits hall hinteger

theorem mem_snd_of_lookup {α : Type} [BEq α] {a : α} {t : Token} {table : List (α × Token)}
    (h : table.lookup a = some t) : t ∈ table.map Prod.snd := by
  induction table with
  | nil => cases h
  | cons entry table ih =>
    rw [List.lookup_cons] at h
    split at h
    · cases h
      exact List.mem_cons_self
    · exact List.mem_cons_of_mem _ (ih h)

/-- The tokens of words that are no names. -/
def reserved : List Token := [.null, .ifWord, .thenWord, .elseWord, .bool true, .bool false]

/-- A word is a name or reserved. -/
theorem tokenOfWord_cases (word : String) :
    tokenOfWord word = .identifier word ∨ tokenOfWord word ∈ reserved := by
  have hkeywords : ∀ t ∈ Token.keywords.map Prod.snd, t ∈ reserved := by decide
  unfold tokenOfWord
  split
  · next keyword hlookup => exact .inr (hkeywords _ (mem_snd_of_lookup hlookup))
  · simp only
    split
    · exact .inr (by decide)
    · split
      · exact .inr (by decide)
      · exact .inl rfl

theorem scans_of_scanSign {c : Char} {cs : List Char} {t : Token} {taken : Nat}
    (h : scanSign c cs = (.token t, taken)) : Scans c cs t taken := by
  unfold scanSign at h
  split at h
  · next sign hpair =>
    cases h
    obtain ⟨next, -, hlookup⟩ := Option.bind_eq_some_iff.mp hpair
    exact .sign (List.mem_append_left _ (mem_snd_of_lookup hlookup))
  · split at h
    · next sign hsingle =>
      cases h
      exact .sign (List.mem_append_right _ (mem_snd_of_lookup hsingle))
    · cases h

/-- A scanned string has a body that was read to its closing quote. -/
theorem scanString_eq_token {make : String → Token} {opened taken : Nat}
    {cs : List Char} {t : Token} (h : scanString make opened cs = (.token t, taken)) :
    ∃ contents n, scanBody cs = (.ok contents, n) ∧ t = make (String.ofList contents) ∧
      taken = opened + n := by
  unfold scanString at h
  split at h
  · next contents n hbody =>
    cases h
    exact ⟨contents, n, hbody, rfl, rfl⟩
  · cases h

/-- **All that a scan can give as a token.** -/
theorem scans_of_scan {c : Char} {cs : List Char} {t : Token} {taken : Nat}
    (h : scan c cs = (.token t, taken)) : Scans c cs t taken := by
  unfold scan at h
  split at h
  · cases h
  split at h
  · cases h
  split at h
  · cases h
  split at h
  · obtain ⟨contents, n, hbody, rfl, rfl⟩ := scanString_eq_token h
    exact .str hbody
  split at h
  · next hp =>
    obtain ⟨contents, n, hbody, rfl, rfl⟩ := scanString_eq_token h
    exact .template hp.2 hbody
  split at h
  · next hdigit => exact scans_of_scanNumber hdigit h
  split at h
  · next hstart =>
    cases h
    exact .word hstart
  · exact scans_of_scanSign h

end Lexeme

/-- What holds of every scanned token holds of every token of a text. -/
theorem Lexes.forall {P : Token → Prop} (hP : ∀ {c cs t taken}, Lexeme.Scans c cs t taken → P t)
    {cs : List Char} {ts : List Token} (h : Lexes cs ts) : ∀ t ∈ ts, P t := by
  induction h with
  | nil => simp
  | pass _ _ _ ih => exact ih
  | token hscan _ ih =>
    rintro t (_ | ⟨_, ht⟩)
    · exact hP (Lexeme.scans_of_scan hscan)
    · exact ih t ht

end LazyExpr
