import LazyExpr.Proofs.Token.Ahead

/-!
# Texts on lines of their own

A line feed ends whatever lexeme stands in front of it, a comment and an unfinished string
included.  So a text is read in the same way whether it ends or a line feed follows, and texts that
are joined by line feeds are read one after another.

* `scan_newline` — a line feed is as good as the end of the text.
* `Lexes.newline` — **texts joined by a line feed have the tokens of the one, then those of the
  other.**
* `Lexes.unique` — a text has one row of tokens.
-/

namespace LazyExpr

namespace Lexeme

/-! ## 1. A line feed ends a lexeme -/

section Newline

variable {p : Char → Bool}

theorem takeWhile_newline (hp : p '\n' = false) (cs ds : List Char) :
    (cs ++ '\n' :: ds).takeWhile p = cs.takeWhile p := by
  induction cs with
  | nil => simp [hp]
  | cons c cs ih =>
    cases hc : p c with
    | false => simp [hc]
    | true => simp [hc, ih]

theorem dropWhile_newline (hp : p '\n' = false) (cs ds : List Char) :
    (cs ++ '\n' :: ds).dropWhile p = cs.dropWhile p ++ '\n' :: ds := by
  induction cs with
  | nil => simp [hp]
  | cons c cs ih =>
    cases hc : p c with
    | false => simp [hc]
    | true => simp [hc, ih]

/-- A character that is not a line feed is next either way. -/
theorem head_newline {c : Char} (hc : c ≠ '\n') (cs ds : List Char) :
    (cs ++ '\n' :: ds).head? = some c ↔ cs.head? = some c := by
  cases cs with
  | nil => simp [hc.symm]
  | cons d cs => simp

theorem scanNumber_newline (c : Char) (cs ds : List Char) :
    scanNumber c (cs ++ '\n' :: ds) = scanNumber c cs := by
  unfold scanNumber
  rw [takeWhile_newline (by decide), dropWhile_newline (by decide)]
  cases cs.dropWhile Char.isDigit with
  | nil => rfl
  | cons d rest =>
    by_cases hd : d = '.'
    · subst hd
      simp only [List.cons_append, takeWhile_newline (p := Char.isDigit) (by decide)]
    · simp only [List.cons_append]
      split
      · next heq => exact absurd (List.cons.inj heq).1 hd
      · split
        · next heq => exact absurd (List.cons.inj heq).1 hd
        · rfl

theorem scanBody_newline (cs ds : List Char) : scanBody (cs ++ '\n' :: ds) = scanBody cs := by
  fun_induction scanBody cs with
  | case1 => rfl
  | case2 => simp [scanBody]
  | case3 => simp [scanBody]
  | case4 => rfl
  | case5 => simp [scanBody]
  | case6 c cs hc d hd result taken hbody ih =>
    rw [List.cons_append, List.cons_append, scanBody, hd, ih, hbody]
    exact hc
  | case7 c cs hc hd =>
    rw [List.cons_append, List.cons_append, scanBody, hd]
    exact hc
  | case8 c cs hquote hfeed hend _ hescape result taken hbody ih =>
    have hslash : c ≠ '\\' := by
      intro hc
      cases cs with
      | nil => exact hend hc rfl
      | cons d cs => exact hescape d cs hc rfl
    rw [List.cons_append, scanBody, ih, hbody]
    · exact hquote
    · exact hfeed
    · exact fun hc => absurd hc hslash
    · exact fun _ hc => absurd hc hslash
    · exact fun _ _ hc => absurd hc hslash

theorem scanString_newline (make : String → Token) (opened : Nat) (cs ds : List Char) :
    scanString make opened (cs ++ '\n' :: ds) = scanString make opened cs := by
  unfold scanString
  rw [scanBody_newline]

theorem scanWord_newline (c : Char) (cs ds : List Char) :
    scanWord c (cs ++ '\n' :: ds) = scanWord c cs := by
  unfold scanWord
  rw [takeWhile_newline (by decide)]

theorem scanSign_newline (c : Char) (cs ds : List Char) :
    scanSign c (cs ++ '\n' :: ds) = scanSign c cs := by
  have hpairs : pairs.lookup (c, '\n') = none := by
    simp [pairs, List.lookup_eq_none_iff]
  cases cs with
  | nil => simp [scanSign, hpairs]
  | cons d cs => rfl

/-- **A line feed is as good as the end of the text.** -/
theorem scan_newline (c : Char) (cs ds : List Char) : scan c (cs ++ '\n' :: ds) = scan c cs := by
  unfold scan
  simp only [head_newline (c := '-') (by decide), head_newline (c := '"') (by decide),
    takeWhile_newline (p := isSpace) (by decide), takeWhile_newline (p := (· ≠ '\n')) (by decide),
    scanString_newline, scanNumber_newline, scanWord_newline, scanSign_newline]
  congr 4
  split
  · next h =>
    obtain ⟨rest, rfl⟩ := List.head?_eq_some_iff.mp h.2
    exact scanString_newline ..
  · rfl

end Newline

/-! ## 2. A lexeme ends within its text -/

theorem length_takeWhile_le (p : Char → Bool) (cs : List Char) :
    (cs.takeWhile p).length ≤ cs.length :=
  (List.takeWhile_sublist p).length_le

theorem scanBody_le (cs : List Char) : (scanBody cs).2 ≤ cs.length := by
  fun_induction scanBody cs with
  | case6 c cs hc d hd result taken hbody ih =>
    rw [hbody] at ih
    simp only [List.length_cons]
    omega
  | case8 c cs _ _ _ _ _ result taken hbody ih =>
    rw [hbody] at ih
    simp only [List.length_cons]
    omega
  | _ => simp

theorem scanString_le (make : String → Token) (opened : Nat) (cs : List Char) :
    (scanString make opened cs).2 ≤ opened + cs.length := by
  have := scanBody_le cs
  unfold scanString
  split
  · next h =>
    rw [h] at this
    exact Nat.add_le_add_left this _
  · next h =>
    rw [h] at this
    exact Nat.add_le_add_left this _

theorem scanNumber_le (c : Char) (cs : List Char) : (scanNumber c cs).2 ≤ cs.length := by
  have hsplit := congrArg List.length
    (List.takeWhile_append_dropWhile (p := Char.isDigit) (l := cs))
  rw [List.length_append] at hsplit
  unfold scanNumber
  split
  · next rest hrest =>
    have hfraction := length_takeWhile_le Char.isDigit rest
    rw [hrest, List.length_cons] at hsplit
    simp only
    split <;> simp only <;> omega
  · simp only
    omega

theorem scanSign_le (c : Char) (cs : List Char) : (scanSign c cs).2 ≤ cs.length := by
  unfold scanSign
  split
  · next sign h =>
    cases cs with
    | nil => cases h
    | cons d cs => simp
  · split <;> exact Nat.zero_le _

/-- A lexeme takes no more characters than there are. -/
theorem scan_le (c : Char) (cs : List Char) : (scan c cs).2 ≤ cs.length := by
  unfold scan
  split
  · exact Nat.zero_le _
  split
  · exact length_takeWhile_le ..
  split
  · exact length_takeWhile_le ..
  split
  · simpa using scanString_le .str 0 cs
  split
  · next h =>
    obtain ⟨rest, rfl⟩ := List.head?_eq_some_iff.mp h.2
    simpa [Nat.add_comm] using scanString_le .template 1 rest
  split
  · exact scanNumber_le c cs
  split
  · exact length_takeWhile_le ..
  · exact scanSign_le c cs

end Lexeme

/-! ## 3. Tokens of joined texts -/

theorem Lexes.lineFeed {cs : List Char} {ts : List Token} (h : Lexes cs ts) :
    Lexes ('\n' :: cs) ts := by
  have hscan : Lexeme.scan '\n' cs = (.lineFeed, 0) := rfl
  exact .pass hscan (.inr rfl) h

/-- **Texts joined by a line feed have the tokens of the one, then those of the other.** -/
theorem Lexes.newline {cs ds : List Char} {ts us : List Token} (h : Lexes cs ts)
    (h' : Lexes ds us) :
    Lexes (cs ++ '\n' :: ds) (ts ++ us) := by
  -- what a lexeme leaves of the first text still has the line feed behind it
  have hdrop : ∀ {c : Char} {cs : List Char} {lexeme : Lexeme} {taken : Nat},
      Lexeme.scan c cs = (lexeme, taken) →
      (cs ++ '\n' :: ds).drop taken = cs.drop taken ++ '\n' :: ds := by
    intro c cs lexeme taken hscan
    have hle := Lexeme.scan_le c cs
    rw [hscan] at hle
    exact List.drop_append_of_le_length hle
  induction h with
  | nil => exact h'.lineFeed
  | pass hscan hpass _ ih =>
    rw [List.cons_append]
    refine .pass ((Lexeme.scan_newline ..).trans hscan) hpass ?_
    rwa [hdrop hscan]
  | token hscan _ ih =>
    rw [List.cons_append, List.cons_append]
    refine .token ((Lexeme.scan_newline ..).trans hscan) ?_
    rwa [hdrop hscan]

/-- A text has one row of tokens. -/
theorem Lexes.unique {cs : List Char} {ts us : List Token} (h : Lexes cs ts) (h' : Lexes cs us) :
    ts = us := by
  induction h generalizing us with
  | nil =>
    cases h'
    rfl
  | pass hscan hpass _ ih =>
    cases h' with
    | pass hscan' _ hrest =>
      cases hscan.symm.trans hscan'
      exact ih hrest
    | token hscan' _ =>
      cases hscan.symm.trans hscan'
      rcases hpass with hpass | hpass <;> cases hpass
  | token hscan _ ih =>
    cases h' with
    | pass hscan' hpass _ =>
      cases hscan.symm.trans hscan'
      rcases hpass with hpass | hpass <;> cases hpass
    | token hscan' hrest =>
      cases hscan.symm.trans hscan'
      rw [ih hrest]

end LazyExpr
