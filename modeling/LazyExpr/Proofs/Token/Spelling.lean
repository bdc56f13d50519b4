import LazyExpr.Proofs.Token.Lexical

/-!
# Written tokens

A written token reads back as itself when something behind it ends it.  What may follow is said
once, by `Separates`: white space, a closing sign, a comma, the dots of a range, or the end.

* `Spells text ts`: the text is read as the tokens `ts`, whatever separating characters follow.
* `spells_word`, `spells_integer`, `spells_decimal`, `spells_str`, `spells_template` and
  `spells_operator`: every kind of token is spelled by its written form.
* `lexes_space`, `lexes_bracket`, `lexes_dots`, `lexes_prefix`: signs that need nothing behind them.
-/

namespace LazyExpr

open Lexeme

/-! ## 1. What may follow -/

/-- The characters of white space. -/
def blanks : List Char := [' ', '\t', '\x0c', '\r', '\n']

/-- Characters that end the token in front of them. -/
def Separates (rest : List Char) : Prop :=
  rest = [] ∨ (∃ c cs, rest = c :: cs ∧ c ∈ blanks ++ [')', ']', ',']) ∨
    ∃ cs, rest = '.' :: '.' :: cs

theorem Separates.head_mem {rest : List Char} (h : Separates rest) :
    ∀ c ∈ rest.head?, c ∈ blanks ++ [')', ']', ',', '.'] := by
  obtain rfl | ⟨c, cs, rfl, hc⟩ | ⟨cs, rfl⟩ := h
  · simp
  · intro d hd
    cases hd
    exact List.mem_append_left ['.'] hc
  · simp

/-- A class of characters that has no separating ones ends in front of them. -/
theorem Separates.takeWhile {rest : List Char} (h : Separates rest) {p : Char → Bool}
    (hp : (blanks ++ [')', ']', ',', '.']).any p = false) {cs : List Char} (hcs : cs.all p = true) :
    (cs ++ rest).takeWhile p = cs ∧ (cs ++ rest).dropWhile p = rest := by
  have hall : ∀ c ∈ cs, p c = true := List.all_eq_true.mp hcs
  have hrest : rest.takeWhile p = [] ∧ rest.dropWhile p = rest := by
    cases rest with
    | nil => exact ⟨rfl, rfl⟩
    | cons c rest =>
      have hc : ¬ p c = true := List.any_eq_false.mp hp c (h.head_mem c rfl)
      simp [hc]
  rw [List.takeWhile_append_of_pos hall, List.dropWhile_append_of_pos hall, hrest.1, hrest.2]
  exact ⟨List.append_nil cs, rfl⟩

/-- `Spells text ts`: the text is read as these tokens, with anything behind it that ends the
last. -/
def Spells (text : String) (ts : List Token) : Prop :=
  ∀ rest us, Separates rest → Lexes rest us → Lexes (text.toList ++ rest) (ts ++ us)

theorem spells_of_scan {text : String} {t : Token} (c : Char) (cs : List Char)
    (htext : text.toList = c :: cs)
    (h : ∀ rest, Separates rest → scan c (cs ++ rest) = (.token t, cs.length)) :
    Spells text [t] := by
  intro rest us hrest hlexes
  rw [htext, List.cons_append, List.singleton_append]
  refine .token (h rest hrest) ?_
  rwa [List.drop_left]

/-! ## 2. Words -/

theorem not_isDigit_of_isWordStart {c : Char} (h : isWordStart c = true) : c.isDigit = false := by
  simp only [isWordStart, Char.isAlpha, Char.isUpper, Char.isLower, Bool.or_eq_true,
    Bool.and_eq_true, decide_eq_true_eq, ge_iff_le, UInt32.le_iff_toNat_le] at h
  simp only [Char.isDigit, Bool.and_eq_false_iff, decide_eq_false_iff_not, ge_iff_le,
    UInt32.le_iff_toNat_le]
  have h₀ : '9'.val.toNat = 57 := rfl
  have h₁ : 'A'.val.toNat = 65 := rfl
  have h₂ : 'a'.val.toNat = 97 := rfl
  obtain (h | h) | rfl := h
  · omega
  · omega
  · decide

theorem scan_word {c : Char} {cs rest : List Char} (hstart : isWordStart c = true)
    (hcs : cs.all isWordPart = true) (hrest : Separates rest) :
    scan c (cs ++ rest) = (.token (tokenOfWord (String.ofList (c :: cs))), cs.length) := by
  have hne : ∀ d, isWordStart d = false → c ≠ d := by
    rintro d hd rfl
    rw [hstart] at hd
    cases hd
  have hspace : isSpace c = false := by
    simp [isSpace, hne ' ' (by decide), hne '\t' (by decide), hne '\x0c' (by decide),
      hne '\r' (by decide)]
  have hquote : (cs ++ rest).head? ≠ some '"' := by
    cases cs with
    | nil =>
      intro hhead
      exact absurd (hrest.head_mem _ hhead) (by decide)
    | cons d cs =>
      rintro ⟨⟩
      simp [show isWordPart '"' = false from by decide] at hcs
  have hword := hrest.takeWhile (p := isWordPart) (by decide) hcs
  simp only [scan, hne '\n' (by decide), hspace, hne '-' (by decide), hne '"' (by decide), hquote,
    not_isDigit_of_isWordStart hstart, hstart, scanWord, hword.1, if_false, if_true, false_and,
    and_false, Bool.false_eq_true]

theorem spells_word {word : String} {c : Char} {cs : List Char} (hword : word.toList = c :: cs)
    (hstart : isWordStart c = true) (hcs : cs.all isWordPart = true) :
    Spells word [tokenOfWord word] := by
  refine spells_of_scan c cs hword fun rest hrest => ?_
  rw [scan_word hstart hcs hrest, ← hword, String.ofList_toList]

theorem spells_name {name : String} (h : IsName name) : Spells name [.identifier name] := by
  obtain ⟨⟨c, cs, hname, hstart, hcs⟩, htoken⟩ := h
  rw [← htoken]
  exact spells_word hname hstart hcs

/-! ## 3. Strings -/

/-- The escaped form of a text is read back up to its closing quote. -/
theorem scanBody_escaped (text rest : List Char) :
    scanBody (text.flatMap Text.escapeChar ++ '"' :: rest) =
      (.ok text, (text.flatMap Text.escapeChar).length + 1) := by
  induction text with
  | nil => simp [scanBody]
  | cons c text ih =>
    rw [List.flatMap_cons, List.append_assoc]
    obtain ⟨d, hd, hescape, hline⟩ | ⟨hescape, hslash, hquote, hline⟩ := Text.escapeChar_cases c
    · rw [hescape, List.cons_append, List.singleton_append, scanBody]
      · simp only [hd, ih]
        simp [Except.map]
      · exact hline
    · rw [hescape, List.singleton_append, scanBody]
      · simp only [ih]
        simp [Except.map]
      · exact hquote
      · exact hline
      · rintro rfl
        exact absurd rfl hslash
      · rintro _ rfl
        exact absurd rfl hslash
      · rintro _ _ rfl
        exact absurd rfl hslash

theorem scanString_escaped (make : String → Token) (opened : Nat) (text : String)
    (rest : List Char) :
    scanString make opened (((Text.escape text).toList ++ ['"']) ++ rest) =
      (.token (make text), opened + ((Text.escape text).toList ++ ['"']).length) := by
  unfold scanString
  rw [List.append_assoc, List.singleton_append, Text.toList_escape, scanBody_escaped]
  simp

theorem scan_quote (cs : List Char) : scan '"' cs = scanString .str 0 cs := rfl

theorem scan_template (cs : List Char) : scan 'p' ('"' :: cs) = scanString .template 1 cs := rfl

theorem spells_str (text : String) : Spells ("\"" ++ Text.escape text ++ "\"") [.str text] := by
  refine spells_of_scan '"' ((Text.escape text).toList ++ ['"']) (by simp) fun rest _ => ?_
  rw [scan_quote, scanString_escaped, Nat.zero_add]

theorem spells_template (body : String) :
    Spells ("p\"" ++ Text.escape body ++ "\"") [.template body] := by
  refine spells_of_scan 'p' ('"' :: ((Text.escape body).toList ++ ['"'])) (by simp) fun rest _ => ?_
  rw [List.cons_append, scan_template, scanString_escaped, List.length_cons, Nat.add_comm]

/-! ## 4. Signs -/

theorem lexes_token {rest : List Char} {t : Token} {us : List Token} (c : Char) (cs : List Char)
    (hscan : scan c (cs ++ rest) = (.token t, cs.length)) (hrest : Lexes rest us) :
    Lexes (c :: (cs ++ rest)) (t :: us) := by
  refine .token hscan ?_
  rwa [List.drop_left]

/-- Signs of one character that start no sign of two. -/
def brackets : List (Char × Token) :=
  [('(', .leftParen), (')', .rightParen), ('[', .leftBracket), (']', .rightBracket), (',', .comma),
    ('\\', .backslash)]

theorem lexes_bracket {c : Char} {t : Token} {rest : List Char} {us : List Token}
    (h : (c, t) ∈ brackets) (hrest : Lexes rest us) : Lexes (c :: rest) (t :: us) := by
  refine lexes_token c [] ?_ hrest
  simp only [brackets, List.mem_cons, Prod.mk.injEq, List.not_mem_nil, or_false] at h
  obtain ⟨rfl, rfl⟩ | ⟨rfl, rfl⟩ | ⟨rfl, rfl⟩ | ⟨rfl, rfl⟩ | ⟨rfl, rfl⟩ | ⟨rfl, rfl⟩ := h <;>
    cases rest <;> rfl

theorem lexes_dots {rest : List Char} {us : List Token} (hrest : Lexes rest us) :
    Lexes ('.' :: '.' :: rest) (.dots :: us) :=
  lexes_token '.' ['.'] rfl hrest

theorem lexes_arrow {rest : List Char} {us : List Token} (hrest : Lexes rest us) :
    Lexes ('-' :: '>' :: rest) (.arrow :: us) :=
  lexes_token '-' ['>'] rfl hrest

/-- A sign of one character is read by itself where no sign of two starts. -/
theorem scanSign_single {c : Char} {rest : List Char} {t : Token}
    (hsingle : singles.lookup c = some t)
    (hpair : ∀ d ∈ rest.head?, pairs.lookup (c, d) = none) : scanSign c rest = (.token t, 0) := by
  have hnone : (rest.head?.bind fun next => pairs.lookup (c, next)) = none := by
    cases rest with
    | nil => rfl
    | cons d rest => exact hpair d rfl
  unfold scanSign
  rw [hnone]
  simp only [hsingle]

/-- A minus sign that starts no comment is a sign. -/
theorem scan_minus {rest : List Char} (h : rest.head? ≠ some '-') :
    scan '-' rest = scanSign '-' rest := by
  simp [scan, h, isSpace, isWordStart]

theorem lexes_minus {rest : List Char} {us : List Token}
    (hhead : ∀ c ∈ rest.head?, c ≠ '-' ∧ c ≠ '>') (hrest : Lexes rest us) :
    Lexes ('-' :: rest) (.operator .sub :: us) := by
  refine lexes_token '-' [] ?_ hrest
  rw [List.nil_append, scan_minus fun h => (hhead '-' h).1 rfl]
  refine scanSign_single rfl fun d hd => ?_
  simp [pairs, List.lookup_eq_none_iff, (hhead d hd).2]

theorem lexes_bang {rest : List Char} {us : List Token} (hhead : ∀ c ∈ rest.head?, c ≠ '=')
    (hrest : Lexes rest us) : Lexes ('!' :: rest) (.bang :: us) := by
  refine lexes_token '!' [] ?_ hrest
  refine scanSign_single rfl fun d hd => ?_
  simp [pairs, List.lookup_eq_none_iff, hhead d hd]

/-- A sign of one character is read by itself in front of separating characters: only the dots end
with one of them. -/
theorem scanSign_separates {c : Char} {rest : List Char} {t : Token}
    (hsingle : singles.lookup c = some t)
    (hrest : Separates rest) : scanSign c rest = (.token t, 0) := by
  have hpairs : ∀ entry ∈ pairs, entry.1.2 ∈ blanks ++ [')', ']', ',', '.'] →
    entry.1.1 = '.' := by decide
  refine scanSign_single hsingle fun d hd => List.lookup_eq_none_iff.mpr fun entry hentry => ?_
  rw [bne_iff_ne]
  intro heq
  have hdot := hpairs entry hentry (heq ▸ hrest.head_mem d hd)
  rw [← heq] at hdot
  obtain rfl : c = '.' := hdot
  cases hsingle

theorem spells_operator (op : BinaryOp) : Spells op.symbol [.operator op] := by
  cases op with
  | or => exact spells_of_scan '|' ['|'] rfl fun _ _ => rfl
  | and => exact spells_of_scan '&' ['&'] rfl fun _ _ => rfl
  | equal => exact spells_of_scan '=' ['='] rfl fun _ _ => rfl
  | notEqual => exact spells_of_scan '!' ['='] rfl fun _ _ => rfl
  | lessEqual => exact spells_of_scan '<' ['='] rfl fun _ _ => rfl
  | greaterEqual => exact spells_of_scan '>' ['='] rfl fun _ _ => rfl
  | concat => exact spells_of_scan '+' ['+'] rfl fun _ _ => rfl
  | less => exact spells_of_scan '<' [] rfl fun _ => scanSign_separates rfl
  | greater => exact spells_of_scan '>' [] rfl fun _ => scanSign_separates rfl
  | prepend => exact spells_of_scan ':' [] rfl fun _ => scanSign_separates rfl
  | add => exact spells_of_scan '+' [] rfl fun _ => scanSign_separates rfl
  | mul => exact spells_of_scan '*' [] rfl fun _ => scanSign_separates rfl
  | div => exact spells_of_scan '/' [] rfl fun _ => scanSign_separates rfl
  | mod => exact spells_of_scan '%' [] rfl fun _ => scanSign_separates rfl
  | sub =>
    refine spells_of_scan '-' [] rfl fun rest hrest => ?_
    rw [List.nil_append, scan_minus]
    · exact scanSign_separates rfl hrest
    · intro h
      exact absurd (hrest.head_mem _ h) (by decide)

/-! ## 5. White space -/

theorem take_length_takeWhile (p : Char → Bool) (cs : List Char) :
    cs.take (cs.takeWhile p).length = cs.takeWhile p :=
  (List.prefix_iff_eq_take.mp (List.takeWhile_prefix p)).symm

theorem drop_length_takeWhile (p : Char → Bool) (cs : List Char) :
    cs.drop (cs.takeWhile p).length = cs.dropWhile p := by
  induction cs with
  | nil => rfl
  | cons c cs ih =>
    cases hc : p c with
    | false => simp [hc]
    | true => simpa [hc] using ih

theorem scan_isSpace {c : Char} (hc : isSpace c = true) (cs : List Char) :
    scan c cs = (.skipped, (cs.takeWhile isSpace).length) := by
  have hline : c ≠ '\n' := by
    rintro rfl
    cases hc
  simp [scan, hline, hc]

/-- Tokens are the same without the white space in front of them. -/
theorem lexes_dropWhile {cs : List Char} {us : List Token} (h : Lexes cs us) :
    Lexes (cs.dropWhile isSpace) us := by
  cases cs with
  | nil => exact h
  | cons c cs =>
    by_cases hc : isSpace c = true
    · have hscan := scan_isSpace hc cs
      rw [List.dropWhile_cons_of_pos hc]
      cases h with
      | pass hscan' _ hrest =>
        rw [hscan] at hscan'
        cases hscan'
        rwa [drop_length_takeWhile] at hrest
      | token hscan' _ =>
        rw [hscan] at hscan'
        cases hscan'
    · rwa [List.dropWhile_cons_of_neg (by simpa using hc)]

theorem lexes_isSpace {c : Char} {rest : List Char} {us : List Token} (hc : isSpace c = true)
    (hrest : Lexes rest us) : Lexes (c :: rest) us := by
  refine .pass (scan_isSpace hc rest) (.inl rfl) ?_
  rw [drop_length_takeWhile]
  exact lexes_dropWhile hrest

theorem lexes_space {rest : List Char} {us : List Token} (hrest : Lexes rest us) :
    Lexes (' ' :: rest) us :=
  lexes_isSpace rfl hrest

/-! ## 6. Numbers -/

theorem scan_digit {c : Char} (h : c.isDigit = true) (cs : List Char) :
    scan c cs = scanNumber c cs := by
  have hne : ∀ d, d.isDigit = false → c ≠ d := by
    rintro d hd rfl
    rw [h] at hd
    cases hd
  simp [scan, isSpace, h, hne '\n' (by decide), hne ' ' (by decide), hne '\t' (by decide),
    hne '\x0c' (by decide), hne '\r' (by decide), hne '-' (by decide), hne '"' (by decide),
    hne 'p' (by decide)]

/-- Digits in front of separating characters are an integer. -/
theorem scanNumber_integer {c : Char} {cs rest : List Char} (hcs : cs.all Char.isDigit = true)
    (hrest : Separates rest) :
    scanNumber c (cs ++ rest) = (integerOfDigits (c :: cs), cs.length) := by
  obtain ⟨htake, hdrop⟩ := hrest.takeWhile (p := Char.isDigit) (by decide) hcs
  unfold scanNumber
  rw [htake, hdrop]
  obtain rfl | ⟨d, ds, rfl, hd⟩ | ⟨ds, rfl⟩ := hrest
  · rfl
  · split
    · next heq =>
      cases heq
      exact absurd hd (by decide)
    · rfl
  · rfl

/-- Digits with a point between them are a decimal. -/
theorem scanNumber_decimal {c : Char} {whole fraction rest : List Char}
    (hwhole : whole.all Char.isDigit = true) (hne : fraction ≠ [])
    (hfraction : fraction.all Char.isDigit = true) (hrest : Separates rest) :
    scanNumber c ((whole ++ '.' :: fraction) ++ rest) =
      (decimalOfDigits (c :: whole) fraction, (whole ++ '.' :: fraction).length) := by
  have hall : ∀ d ∈ whole, d.isDigit = true := List.all_eq_true.mp hwhole
  have htake : ((whole ++ '.' :: fraction) ++ rest).takeWhile Char.isDigit = whole := by
    rw [List.append_assoc, List.takeWhile_append_of_pos hall]
    simp [show Char.isDigit '.' = false from by decide]
  have hdrop : ((whole ++ '.' :: fraction) ++ rest).dropWhile Char.isDigit =
      '.' :: (fraction ++ rest) := by
    rw [List.append_assoc, List.dropWhile_append_of_pos hall]
    simp [show Char.isDigit '.' = false from by decide]
  obtain ⟨htake', -⟩ := hrest.takeWhile (p := Char.isDigit) (by decide) hfraction
  unfold scanNumber
  rw [htake, hdrop]
  simp only [htake']
  rw [if_neg (by simpa using hne)]
  simp
  omega

theorem foldl_digits (cs : List Char) (m : Nat) :
    cs.foldl (fun (m : Nat) c => m * 10 + Decimal.digitValue c) m = Nat.ofDigitChars 10 cs m := by
  rw [Nat.ofDigitChars_eq_foldl]
  congr 1
  funext m c
  rw [Nat.mul_comm]
  rfl

theorem all_isDigit_toDigits (n : Nat) : (Nat.toDigits 10 n).all Char.isDigit = true :=
  List.all_eq_true.mpr fun _ hc => Nat.isDigit_of_mem_toDigits (by decide) (by decide) hc

/-- The magnitude of an integer reads back. -/
theorem int64OfText?_digits {n : Int64} (hn : 0 ≤ n.toInt) :
    int64OfText? (String.ofList (Nat.toDigits 10 n.toInt.natAbs)) = some n := by
  have hall := all_isDigit_toDigits n.toInt.natAbs
  have hsplit : Decimal.splitSign (Nat.toDigits 10 n.toInt.natAbs) =
      (false, Nat.toDigits 10 n.toInt.natAbs) := splitSign_digits hall
  simp only [int64OfText?, String.toList_ofList, hsplit, hall, foldl_digits,
    Nat.ofDigitChars_ten_toDigits]
  simp only [List.isEmpty_iff, Nat.toDigits_ne_nil, Bool.not_true, Bool.or_false,
    Bool.false_eq_true, if_false]
  rw [int64OfInt?_eq_some_iff]
  omega

/-- An integer that is not negative is written by its digits. -/
theorem source_integer {n : Int64} (hn : 0 ≤ n.toInt) :
    (Number.integer n).source = String.ofList (Nat.toDigits 10 n.toInt.natAbs) := by
  have hmin : n ≠ Int64.minValue := by
    rintro rfl
    exact absurd hn (by decide)
  have hneg : ¬n < 0 := by
    rw [Int64.lt_iff_toInt_lt]
    simpa using hn
  simp [Number.source, hmin, Number.integerDigits, hneg]

theorem spells_integer {n : Int64} (hn : 0 ≤ n.toInt) :
    Spells (Number.integer n).source [.integer n] := by
  obtain ⟨c, cs, hdigits⟩ := List.exists_cons_of_ne_nil
    (Nat.toDigits_ne_nil : Nat.toDigits 10 n.toInt.natAbs ≠ [])
  have hall := all_isDigit_toDigits n.toInt.natAbs
  rw [hdigits] at hall
  simp only [List.all_cons, Bool.and_eq_true] at hall
  refine spells_of_scan c cs (by rw [source_integer hn, hdigits, String.toList_ofList])
    fun rest hrest => ?_
  rw [scan_digit hall.1, scanNumber_integer hall.2 hrest, integerOfDigits, ← hdigits,
    int64OfText?_digits hn]

namespace Decimal

theorem le_ofDigitChars (cs : List Char) (m : Nat) : m ≤ Nat.ofDigitChars 10 cs m := by
  have hpow : 0 < 10 ^ cs.length := Nat.pow_pos (by decide)
  rw [Nat.ofDigitChars_eq_ofDigitChars_zero]
  exact Nat.le_trans (Nat.le_mul_of_pos_left m hpow) (Nat.le_add_right _ _)

theorem ofDigitChars_cons' (c : Char) (cs : List Char) (m : Nat) :
    Nat.ofDigitChars 10 (c :: cs) m = Nat.ofDigitChars 10 cs (m * 10 + digitValue c) := by
  rw [Nat.ofDigitChars_cons, Nat.mul_comm]
  rfl

/-- Digits in front of the point are taken as long as the whole fits. -/
theorem readWhole_digits {cs : List Char} {m : Nat}
    (h : Nat.ofDigitChars 10 cs m < coefficientBound) :
    readWhole m cs = some (Nat.ofDigitChars 10 cs m) := by
  induction cs generalizing m with
  | nil => simp [readWhole]
  | cons c cs ih =>
    rw [ofDigitChars_cons'] at h ⊢
    have hnext : m * 10 + digitValue c < coefficientBound :=
      Nat.lt_of_le_of_lt (le_ofDigitChars _ _) h
    simp only [readWhole, hnext, if_true]
    exact ih h

/-- Digits behind the point are taken as long as the coefficient and the scale fit. -/
theorem readFraction_digits {cs : List Char} {m scale : Nat} (hscale : scale + cs.length ≤ maxScale)
    (h : Nat.ofDigitChars 10 cs m < coefficientBound) :
    readFraction m scale cs = some (Nat.ofDigitChars 10 cs m, scale + cs.length) := by
  induction cs generalizing m scale with
  | nil => simp [readFraction]
  | cons c cs ih =>
    rw [ofDigitChars_cons'] at h ⊢
    rw [List.length_cons] at hscale
    have hnext : m * 10 + digitValue c < coefficientBound :=
      Nat.lt_of_le_of_lt (le_ofDigitChars _ _) h
    have hlt : scale < maxScale := by omega
    simp only [readFraction, hnext, hlt, and_self, if_true]
    rw [ih (by omega) h, List.length_cons]
    congr 2
    omega

theorem ofDigitChars_paddedDigits (coefficient scale : Nat) :
    Nat.ofDigitChars 10 (paddedDigits coefficient scale) 0 = coefficient := by
  rw [paddedDigits, Nat.ofDigitChars_append, Nat.ofDigitChars_replicate_zero, Nat.mul_zero,
    Nat.ofDigitChars_ten_toDigits]

theorem length_paddedDigits (coefficient scale : Nat) :
    scale + 1 ≤ (paddedDigits coefficient scale).length := by
  simp only [paddedDigits, List.length_append, List.length_replicate]
  omega

theorem all_isDigit_paddedDigits (coefficient scale : Nat) :
    (paddedDigits coefficient scale).all Char.isDigit = true := by
  rw [paddedDigits, List.all_append, all_isDigit_toDigits, Bool.and_true, List.all_replicate]
  simp [show Char.isDigit '0' = true from by decide]

/-- The digits in front of the point and behind it, as a literal is written. -/
theorem source_eq {d : Decimal} (hd : d.IsLiteral) :
    ∃ whole fraction, d.source = String.ofList (whole ++ '.' :: fraction) ∧ whole ≠ [] ∧
      fraction ≠ [] ∧ whole.all Char.isDigit = true ∧ fraction.all Char.isDigit = true ∧
      ofDigits? false whole fraction = some d := by
  obtain ⟨hnegative, hscale⟩ := hd
  have hall := all_isDigit_paddedDigits d.coefficient d.scale
  have hlength := length_paddedDigits d.coefficient d.scale
  have hvalue := ofDigitChars_paddedDigits d.coefficient d.scale
  generalize hdigits : paddedDigits d.coefficient d.scale = digits at *
  have hparts : ofParts? false d.coefficient d.scale = some d :=
    ofParts?_eq_some_iff.mpr ⟨hnegative, rfl, rfl⟩
  by_cases hzero : d.scale = 0
  · -- a zero is written behind the point, where there is no room for it
    have hfull : coefficientBound ≤ d.coefficient * 10 := hscale.resolve_left (by omega)
    refine ⟨digits, ['0'], ?_, by rintro rfl; simp at hlength, by simp, hall, by decide, ?_⟩
    · simp [source, hzero, text, hnegative, magnitudeText, ← hdigits, String.ofList_append]
    · have hwhole : readWhole 0 digits = some d.coefficient := by
        rw [readWhole_digits (by rw [hvalue]; exact d.coefficient_lt), hvalue]
      have hfraction : readFraction d.coefficient 0 ['0'] = some (d.coefficient, 0) := by
        simp [readFraction, show digitValue '0' = 0 from rfl, Nat.not_lt.mpr hfull,
          d.coefficient_lt]
      simp only [ofDigits?, hwhole, hfraction, Bool.false_and, Option.bind_eq_bind,
        Option.bind_some]
      rw [hzero] at hparts
      exact hparts
  · refine ⟨digits.take (digits.length - d.scale),
      digits.drop (digits.length - d.scale), ?_, ?_, ?_, ?_, ?_, ?_⟩
    · simp [source, hzero, text, hnegative, magnitudeText, hdigits]
    · intro hnil
      have := congrArg List.length hnil
      simp only [List.length_take, List.length_nil] at this
      omega
    · intro hnil
      have := congrArg List.length hnil
      simp only [List.length_drop, List.length_nil] at this
      omega
    · exact List.all_eq_true.mpr fun c hc => List.all_eq_true.mp hall c (List.mem_of_mem_take hc)
    · exact List.all_eq_true.mpr fun c hc => List.all_eq_true.mp hall c (List.mem_of_mem_drop hc)
    · generalize hwhole : digits.take (digits.length - d.scale) = whole
      generalize hfraction : digits.drop (digits.length - d.scale) = fraction
      have happend : whole ++ fraction = digits := by
        rw [← hwhole, ← hfraction, List.take_append_drop]
      have hlen : fraction.length = d.scale := by
        rw [← hfraction, List.length_drop]
        omega
      rw [← happend, Nat.ofDigitChars_append] at hvalue
      have hlt : Nat.ofDigitChars 10 fraction (Nat.ofDigitChars 10 whole 0) < coefficientBound := by
        rw [hvalue]
        exact d.coefficient_lt
      have hw := readWhole_digits (Nat.lt_of_le_of_lt (le_ofDigitChars fraction _) hlt)
      have hscale : 0 + fraction.length ≤ maxScale := by
        rw [hlen, Nat.zero_add]
        exact d.scale_le
      have hf := readFraction_digits hscale hlt
      simp only [ofDigits?, hw, hf, Bool.false_and, Option.bind_eq_bind, Option.bind_some]
      rw [hvalue, hlen, Nat.zero_add]
      exact hparts

end Decimal

theorem spells_decimal {d : Decimal} (hd : d.IsLiteral) : Spells d.source [.decimal d] := by
  obtain ⟨whole, fraction, htext, hwhole, hfraction, hw, hf, hread⟩ := d.source_eq hd
  obtain ⟨c, whole, rfl⟩ := List.exists_cons_of_ne_nil hwhole
  simp only [List.all_cons, Bool.and_eq_true] at hw
  refine spells_of_scan c (whole ++ '.' :: fraction) (by rw [htext, String.toList_ofList]; rfl)
    fun rest hrest => ?_
  rw [scan_digit hw.1, scanNumber_decimal hw.2 hfraction hf hrest, decimalOfDigits, hread]

end LazyExpr
