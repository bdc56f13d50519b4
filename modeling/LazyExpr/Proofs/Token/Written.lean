import Mathlib
import LazyExpr.Proofs.Token.Places
import LazyExpr.Proofs.Expr.Literal

/-!
# Tokens written side by side

Every token has a written form, and white space in front of the next one is enough for the forms not
to run into each other: no keyword joins the name behind it, no minus sign becomes an arrow or a
comment, and no digits become a decimal.  What is read back is what was written, but that a decimal
without digits behind its point comes back with some.

* `Token.written` and `Token.Writable`: the written form, and the tokens that have one.
* `WrittenApart ts cs`: the characters `cs` are the written forms of `ts` with gaps between
  neighbours.
* `spells_written` — every written form reads back, whatever ends it.
* `gives_written` — **tokens that are written apart are read back, all of them and nothing else.**
-/

namespace LazyExpr

/-! ## 1. Written forms -/

namespace Token

/-- How a token is written. -/
def written : Token → String
  | decimal d => d.source
  | integer n => (Number.integer n).source
  | bool b => if b then "true" else "false"
  | null => "null"
  | ifWord => "if"
  | thenWord => "then"
  | elseWord => "else"
  | identifier name => name
  | str text => "\"" ++ Text.escape text ++ "\""
  | template body => "p\"" ++ Text.escape body ++ "\""
  | backslash => "\\"
  | arrow => "->"
  | leftParen => "("
  | rightParen => ")"
  | leftBracket => "["
  | rightBracket => "]"
  | comma => ","
  | dots => ".."
  | dollar => "$"
  | operator op => op.symbol
  | bang => "!"

/-- A word that is no keyword, and neither `true` nor `false` in any letter case. -/
def IsFreeWord (word : String) : Prop :=
  (∃ c cs, word.toList = c :: cs ∧ Lexeme.isWordStart c = true ∧ cs.all Lexeme.isWordPart = true) ∧
    word ∉ ["null", "if", "then", "else"] ∧
    String.ofList (word.toList.map Char.toLower) ∉ ["true", "false"]

/-- The tokens that can be written: numbers carry no sign, and names are free words. -/
def Writable : Token → Prop
  | decimal d => d.negative = false
  | integer n => 0 ≤ n.toInt
  | identifier name => IsFreeWord name
  | _ => True

/-- `t.Recovers u`: reading the written form of `t` gives `u`. It is the same token, but that a
decimal without digits behind its point may come back with zeros there. -/
inductive Recovers : Token → Token → Prop where
  | same (t : Token) : Recovers t t
  | whole {d e : Decimal} (hscale : d.scale = 0) (hnegative : e.negative = d.negative)
      (hcoefficient : e.coefficient = d.coefficient * 10 ^ e.scale) :
      Recovers (.decimal d) (.decimal e)

end Token

theorem isName_of_isFreeWord {word : String} (h : Token.IsFreeWord word) : Lexeme.IsName word := by
  obtain ⟨hshape, hkeyword, hbool⟩ := h
  simp only [List.mem_cons, List.not_mem_nil, or_false, not_or] at hkeyword hbool
  have hlookup : Token.keywords.lookup word = none := by
    simpa [Token.keywords, List.lookup_eq_none_iff] using hkeyword
  exact ⟨hshape, by simp only [Lexeme.tokenOfWord, hlookup, hbool.1, hbool.2, if_false]⟩

theorem recovers_pointed (d : Decimal) : Token.Recovers (.decimal d) (.decimal d.pointed) := by
  by_cases h : d.scale = 0 ∧ d.coefficient * 10 < coefficientBound
  · refine .whole h.1 d.pointed_negative ?_
    simp only [Decimal.pointed, dif_pos h, pow_one]
  · rw [Decimal.pointed, dif_neg h]
    exact .same _

/-- A sign of one character spells its token. -/
theorem spells_single {c : Char} {t : Token} {text : String} (htext : text.toList = [c])
    (hscan : ∀ rest, Lexeme.scan c rest = Lexeme.scanSign c rest)
    (hsingle : Lexeme.singles.lookup c = some t) : Spells text [t] := by
  refine spells_of_scan c [] htext fun rest hrest => ?_
  rw [List.nil_append, hscan]
  exact scanSign_separates hsingle hrest

/-- **Every written form reads back, whatever ends it.** -/
theorem spells_written {t : Token} (h : t.Writable) : ∃ u, t.Recovers u ∧ Spells t.written [u] := by
  cases t with
  | decimal d =>
    have hspells := spells_decimal (Decimal.isLiteral_pointed h)
    rw [Decimal.source_pointed] at hspells
    exact ⟨_, recovers_pointed d, hspells⟩
  | integer n => exact ⟨_, .same _, spells_integer h⟩
  | bool b =>
    cases b with
    | true => exact ⟨_, .same _, spells_word (c := 't') rfl rfl rfl⟩
    | false => exact ⟨_, .same _, spells_word (c := 'f') rfl rfl rfl⟩
  | null => exact ⟨_, .same _, spells_word (c := 'n') rfl rfl rfl⟩
  | ifWord => exact ⟨_, .same _, spells_word (c := 'i') rfl rfl rfl⟩
  | thenWord => exact ⟨_, .same _, spells_word (c := 't') rfl rfl rfl⟩
  | elseWord => exact ⟨_, .same _, spells_word (c := 'e') rfl rfl rfl⟩
  | identifier name => exact ⟨_, .same _, spells_name (isName_of_isFreeWord h)⟩
  | str text => exact ⟨_, .same _, spells_str text⟩
  | template body => exact ⟨_, .same _, spells_template body⟩
  | arrow => exact ⟨_, .same _, fun _ _ _ => lexes_arrow⟩
  | dots => exact ⟨_, .same _, fun _ _ _ => lexes_dots⟩
  | operator op => exact ⟨_, .same _, spells_operator op⟩
  | backslash => exact ⟨_, .same _, spells_single (c := '\\') rfl (fun _ => rfl) rfl⟩
  | leftParen => exact ⟨_, .same _, spells_single (c := '(') rfl (fun _ => rfl) rfl⟩
  | rightParen => exact ⟨_, .same _, spells_single (c := ')') rfl (fun _ => rfl) rfl⟩
  | leftBracket => exact ⟨_, .same _, spells_single (c := '[') rfl (fun _ => rfl) rfl⟩
  | rightBracket => exact ⟨_, .same _, spells_single (c := ']') rfl (fun _ => rfl) rfl⟩
  | comma => exact ⟨_, .same _, spells_single (c := ',') rfl (fun _ => rfl) rfl⟩
  | dollar => exact ⟨_, .same _, spells_single (c := '$') rfl (fun _ => rfl) rfl⟩
  | bang => exact ⟨_, .same _, spells_single (c := '!') rfl (fun _ => rfl) rfl⟩

/-! ## 2. Gaps between tokens -/

/-- A comment in front of a line feed or of the end is passed over. -/
theorem lexes_comment {text rest : List Char} {ts : List Token} (htext : '\n' ∉ text)
    (hend : rest.head? = none ∨ rest.head? = some '\n') (hrest : Lexes rest ts) :
    Lexes ('-' :: '-' :: (text ++ rest)) ts := by
  have hline : '\n' ∉ '-' :: text := by simp [htext]
  have hstop : rest.dropWhile (· ≠ '\n') = rest := by
    cases rest with
    | nil => rfl
    | cons c rest =>
      have hc : c = '\n' := by simpa using hend
      rw [List.dropWhile_cons_of_neg (by simp [hc])]
  have hscan : Lexeme.scan '-' ('-' :: (text ++ rest)) =
      (.skipped, (('-' :: (text ++ rest)).takeWhile (· ≠ '\n')).length) := rfl
  refine .pass hscan (.inl rfl) ?_
  rw [drop_length_takeWhile, ← List.cons_append,
    List.dropWhile_append_of_pos (decide_ne_lineFeed hline), hstop]
  exact hrest

/-- A gap adds no tokens. -/
theorem Gap.lexes {rest gap : List Char} {ts : List Token} (h : Gap rest gap)
    (hrest : Lexes rest ts) :
    Lexes (gap ++ rest) ts := by
  induction h with
  | nil => exact hrest
  | @blank c gap hc _ ih =>
    rw [List.cons_append]
    by_cases hline : c = '\n'
    · subst hline
      exact ih.lineFeed
    · refine lexes_isSpace ?_ ih
      simpa [Lexeme.isSpace, blanks, hline, or_assoc] using hc
  | comment htext hend _ ih =>
    rw [List.cons_append, List.cons_append, List.append_assoc]
    exact lexes_comment htext hend ih

/-- `WrittenApart ts cs`: the characters are the written forms of these tokens, and between
neighbours stands a gap that starts with white space. -/
inductive WrittenApart : List Token → List Char → Prop where
  | none : WrittenApart [] []
  | last {t : Token} (ht : t.Writable) : WrittenApart [t] t.written.toList
  | more {t u : Token} {ts : List Token} {c : Char} {gap rest : List Char} (ht : t.Writable)
      (hc : c ∈ blanks) (hgap : Gap rest (c :: gap)) (hrest : WrittenApart (u :: ts) rest) :
      WrittenApart (t :: u :: ts) (t.written.toList ++ (c :: gap ++ rest))

/-- Tokens that are written apart are the tokens of their text. -/
theorem WrittenApart.lexes {ts : List Token} {cs : List Char} (h : WrittenApart ts cs) :
    ∃ us, List.Forall₂ Token.Recovers ts us ∧ Lexes cs us := by
  induction h with
  | none => exact ⟨[], .nil, .nil⟩
  | last ht =>
    obtain ⟨u, hu, hspells⟩ := spells_written ht
    have hlexes := hspells [] [] (.inl rfl) .nil
    rw [List.append_nil] at hlexes
    exact ⟨[u], .cons hu .nil, hlexes⟩
  | @more t _ _ c gap rest ht hc hgap _ ih =>
    obtain ⟨u, hu, hspells⟩ := spells_written ht
    obtain ⟨us, hus, hlexes⟩ := ih
    have hseparates : Separates (c :: gap ++ rest) :=
      .inr (.inl ⟨c, _, rfl, List.mem_append_left _ hc⟩)
    exact ⟨u :: us, .cons hu hus, hspells _ _ hseparates (hgap.lexes hlexes)⟩

/-! ## 3. Reading them back -/

/-- A stream gives the tokens ahead of it and no error. -/
theorem TokenStream.gives_of_ahead {s : TokenStream} {ts : List Token} (h : s.Ahead ts) :
    ∃ spanneds : List Spanned, s.Gives (spanneds.map .ok) ∧ spanneds.map Spanned.token = ts := by
  induction ts generalizing s with
  | nil =>
    obtain ⟨s', hpeek, hhead, -⟩ := peek_of_ahead h
    rw [Option.map_eq_none_iff.mp hhead] at hpeek
    exact ⟨[], .ended hpeek, rfl⟩
  | cons t ts ih =>
    obtain ⟨s', hpeek, hhead, hahead, -⟩ := peek_of_ahead h
    obtain ⟨spanned, hpending, rfl⟩ := Option.map_eq_some_iff.mp hhead
    obtain ⟨s'', hadvance, -, hrest, -⟩ := advance_of_ahead hahead hpending
    obtain ⟨spanneds, hgives, hts⟩ := ih hrest
    rw [hpending] at hpeek
    exact ⟨spanned :: spanneds, .token hpeek hadvance hgives, by rw [List.map_cons, hts]⟩

/-- **Tokens that are written apart are read back**: the text gives them in their order, nothing
else and no error. -/
theorem gives_written {tokens : List Token} {source : String}
    (h : WrittenApart tokens source.toList) :
    ∃ spanneds : List Spanned,
      (∀ items, (TokenStream.ofSource source).Gives items ↔ items = spanneds.map .ok) ∧
        List.Forall₂ Token.Recovers tokens (spanneds.map Spanned.token) := by
  obtain ⟨us, hus, hlexes⟩ := h.lexes
  obtain ⟨spanneds, hgives, rfl⟩ :=
    TokenStream.gives_of_ahead (TokenStream.ahead_ofSource.mpr hlexes)
  refine ⟨spanneds, fun items => ⟨fun hitems => hgives.unique hitems, fun hitems => ?_⟩, hus⟩
  rw [hitems]
  exact hgives

/-- A minus sign in front of a comment and an arrow, a name in front of a string that it would join,
and a decimal without digits behind its point. -/
theorem gives_written_neighbours :
    WrittenApart
      [.identifier "p", .str "a\"\n", .decimal ⟨false, 6, 0, by decide, by decide⟩,
        .operator .sub, .arrow]
      "p \"a\\\"\\n\"\t6.0 - -- x\n\t->".toList ∧
    ∃ spanneds : List Spanned,
      (∀ items, (TokenStream.ofSource "p \"a\\\"\\n\"\t6.0 - -- x\n\t->").Gives items ↔
        items = spanneds.map .ok) ∧
      List.Forall₂ Token.Recovers
        [.identifier "p", .str "a\"\n", .decimal ⟨false, 6, 0, by decide, by decide⟩,
          .operator .sub, .arrow]
        (spanneds.map Spanned.token) := by
  have hname : Token.IsFreeWord "p" := ⟨⟨'p', [], rfl, rfl, rfl⟩, by decide, by decide⟩
  have hcomment : Gap Token.arrow.written.toList
    (' ' :: '-' :: '-' :: ([' ', 'x'] ++ ['\n', '\t'])) :=
    .blank (by decide) (.comment (by decide) (.inr rfl) (gap_of_blanks (by simp [blanks])))
  have harrow := WrittenApart.more (t := .operator .sub) trivial (by decide) hcomment
    (.last trivial)
  have hsix := WrittenApart.more (t := .decimal ⟨false, 6, 0, by decide, by decide⟩) (c := ' ') rfl
    (by decide) (.blank (by decide) .nil) harrow
  have hstr := WrittenApart.more (t := .str "a\"\n") (c := '\t') trivial (by decide)
    (.blank (by decide) .nil) hsix
  have hall := WrittenApart.more (t := .identifier "p") (c := ' ') hname (by decide)
    (.blank (by decide) .nil) hstr
  obtain ⟨_, rfl, hwritten⟩ :
      ∃ cs, cs = "p \"a\\\"\\n\"\t6.0 - -- x\n\t->".toList ∧ WrittenApart _ cs := ⟨_, by cbv, hall⟩
  exact ⟨hwritten, gives_written hwritten⟩

end LazyExpr
