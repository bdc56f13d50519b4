import LazyExpr.Expr.Inline
import LazyExpr.Proofs.Expr.Completeness
import LazyExpr.Proofs.Expr.Readable
import LazyExpr.Proofs.Token.Spelling

/-!
# Written expressions read back

The writer decides on brackets by comparing binding strengths, the reader decides on grouping by
climbing through them.  The two agree: whatever an operand of an operator, a function, a section or
a prefix is, what is written in its place is read as that operand and no further.

* `CanRead`, `Chains`: the rules of the grammar without counting levels.
* `Token.Follows p next`: what may stand behind a written form of strength `p` without being drawn
  into it.  The strength of the form and the token behind it are all that its reading depends on.
* `Written scope text e p ts`: the text is read as the tokens `ts`, these as the expression `e`, up
  to anything that may follow at strength `p`.  There is one lemma for each way to build an
  expression, and `written_source` goes through them.
* `display_source`: an expression from a text is shown as its source text.
* `parse_display`: **what was read and shown is read as the same expression**, or is nested too
  deeply.
-/

namespace LazyExpr

/-! ## 1. The grammar without levels -/

/-- The phrase is read within some number of levels. -/
def CanRead (scope : Scope) (phrase : Phrase) (ts : List Token) (items : List Expr)
    (rest : List Token) : Prop :=
  ∃ n, Reads n n scope phrase ts items rest

/-- A value and what extends it, on one level. -/
def Chains (scope : Scope) (least : Nat) (ts : List Token) (e : Expr) (rest : List Token) : Prop :=
  ∃ first mid, CanRead scope .value ts [first] mid ∧
    CanRead scope (.extension least first) mid [e] rest

section Rules

variable {scope : Scope} {ts mid rest : List Token} {e : Expr}

/-- Two phrases are read within a common number of levels. -/
theorem CanRead.both {scope' : Scope} {phrase phrase' : Phrase} {ts' rest' : List Token}
    {items items' : List Expr} (h : CanRead scope phrase ts items rest)
    (h' : CanRead scope' phrase' ts' items' rest') :
    ∃ n, Reads n n scope phrase ts items rest ∧ Reads n n scope' phrase' ts' items' rest' := by
  obtain ⟨n, h⟩ := h
  obtain ⟨m, h'⟩ := h'
  refine ⟨max n m, h.mono ?_ ?_, h'.mono ?_ ?_⟩ <;> omega

theorem CanRead.expression {least : Nat} (h : Chains scope least ts e rest) :
    CanRead scope (.expression least) ts [e] rest := by
  obtain ⟨first, mid, hfirst, hrest⟩ := h
  obtain ⟨n, hfirst, hrest⟩ := hfirst.both hrest
  exact ⟨n + 1, .expression (hfirst.mono (by omega) (by omega)) (hrest.mono (by omega) (by omega))⟩

theorem CanRead.stop {least : Nat} {left : Expr} (h : Token.StopsAt least ts.head?) :
    CanRead scope (.extension least left) ts [left] ts :=
  ⟨0, .stop h⟩

theorem CanRead.binary {least : Nat} {left right : Expr} {op : BinaryOp}
    (hleast : least ≤ op.precedence) (hparen : ts.head? ≠ some .rightParen)
    (hright : CanRead scope (.expression op.rightPrecedence) ts [right] mid)
    (hrest : CanRead scope (.extension least (.binary op left right)) mid [e] rest) :
    CanRead scope (.extension least left) (.operator op :: ts) [e] rest := by
  obtain ⟨n, hright, hrest⟩ := hright.both hrest
  exact ⟨n, .binary hleast (fun _ => hparen) hright hrest⟩

theorem CanRead.juxtapose {least : Nat} {left argument : Expr}
    (hop : ∀ op, ts.head? ≠ some (.operator op)) (hvalue : CanRead scope .value ts [argument] mid)
    (hrest : CanRead scope (.extension least (.call left argument)) mid [e] rest) :
    CanRead scope (.extension least left) ts [e] rest := by
  obtain ⟨n, hvalue, hrest⟩ := hvalue.both hrest
  exact ⟨n, .juxtapose hop hvalue hrest⟩

theorem CanRead.unary {op : UnaryOp} {operand : Expr} (h : CanRead scope .value ts [operand] rest) :
    CanRead scope .value (UnaryOp.token op :: ts) [.unary op operand] rest := by
  obtain ⟨n, h⟩ := h
  exact ⟨n + 1, .unary (h.mono (by omega) (by omega))⟩

/-- What stands in parentheses may begin with a minus sign, and then that is a negation. -/
theorem CanRead.parens (h : Chains scope Precedence.lowest ts e (.rightParen :: rest))
    (hop : ∀ op, ts.head? = some (.operator op) → op = .sub) :
    CanRead scope .value (.leftParen :: ts) [e] rest := by
  by_cases hsub : ts.head? = some (.operator .sub)
  · obtain ⟨ts, rfl⟩ := List.head?_eq_some_iff.mp hsub
    obtain ⟨first, mid, hfirst, hrest⟩ := h
    obtain ⟨n, hfirst, hrest⟩ := hfirst.both hrest
    generalize hminus : Token.operator .sub = minus at hfirst
    cases hfirst with
    | literal ht =>
      subst hminus
      cases ht
    | @unary m _ op _ _ _ hoperand =>
      cases op with
      | negate => exact ⟨m + 1, .parens (.negation hoperand hrest)⟩
      | not => cases hminus
    | _ => cases hminus
  · obtain ⟨n, hexpr⟩ := CanRead.expression h
    refine ⟨n, .parens (.enclosed (fun op hhead => ?_) hexpr)⟩
    exact hsub (hop op hhead ▸ hhead)

end Rules

/-! ## 2. What may follow a written form -/

namespace Token

/-- `Follows p next`: in front of `next`, a form of strength `p` is an operand or argument by
itself. -/
def Follows (p : Nat) : Option Token → Prop
  | none => True
  | some (operator op) => op.leftPrecedence ≤ p
  | some dollar => False
  | some t => t.startsValue = true → Precedence.application ≤ p

theorem Follows.mono {p q : Nat} {next : Option Token} (h : Follows p next) (hpq : p ≤ q) :
    Follows q next := by
  match next with
  | none => trivial
  | some t =>
    cases t with
    | operator op => exact Nat.le_trans h hpq
    | dollar => exact h
    | _ => exact fun hstart => Nat.le_trans (h hstart) hpq

/-- What may follow an operation ends its right operand: an operator that would go on with the right
operand would not have let the left one be. -/
theorem Follows.stopsAt_right {op : BinaryOp} {next : Option Token}
    (h : Follows op.precedence next) :
    StopsAt op.rightPrecedence next := by
  have happlication : ¬Precedence.application ≤ op.precedence := by cases op <;> decide
  match next with
  | none => trivial
  | some t =>
    cases t with
    | operator next =>
      have hops : ∀ op next : BinaryOp, next.leftPrecedence ≤ op.precedence →
          next.precedence < op.rightPrecedence := by
        intro op next
        cases op <;> cases next <;> decide
      exact hops op next h
    | dollar => exact h.elim
    | _ => exact Bool.eq_false_iff.mpr fun hstart => happlication (h hstart)

/-- What may follow a form that extends as far as it can ends it. -/
theorem Follows.stopsAt_lowest {next : Option Token} (h : Follows Precedence.lowest next) :
    StopsAt Precedence.lowest next := by
  match next with
  | none => trivial
  | some t =>
    cases t with
    | operator op =>
      have hpos : ¬op.leftPrecedence ≤ Precedence.lowest := by cases op <;> decide
      exact absurd h hpos
    | dollar => exact h.elim
    | _ => exact Bool.eq_false_iff.mpr fun hstart => absurd (h hstart) (by decide)

/-- Behind a function there may be anything but an operator or the application sign. -/
theorem follows_application {p : Nat} {next : Option Token} (hp : Precedence.application ≤ p)
    (hop : ∀ op, next ≠ some (operator op)) (hdollar : next ≠ some dollar) : Follows p next := by
  match next with
  | none => trivial
  | some t =>
    cases t with
    | operator op => exact absurd rfl (hop op)
    | dollar => exact absurd rfl hdollar
    | _ => exact fun _ => hp

/-- The tokens that end whatever stands in front of them, and the end of the text. -/
def Closes (next : Option Token) : Prop :=
  ∀ t ∈ next, t ∈ [rightParen, rightBracket, comma, dots, thenWord, elseWord]

theorem Closes.follows {next : Option Token} (h : Closes next) (p : Nat) : Follows p next := by
  match next with
  | none => trivial
  | some t =>
    have ht := h t rfl
    simp only [List.mem_cons, List.not_mem_nil, or_false] at ht
    rcases ht with rfl | rfl | rfl | rfl | rfl | rfl <;> exact nofun

end Token

/-! ## 3. Texts that are read as an expression -/

/-- `Written scope text e p ts`: the text is the tokens `ts`, and these are the expression `e`,
written with strength `p`. -/
structure Written (scope : Scope) (text : String) (e : Expr) (p : Nat)
    (ts : List Token) : Prop where
  spells : Spells text ts
  enclosed : Enclosed text.toList
  starts : ts.head?.any Token.startsValue = true
  /-- Only a prefix form may begin with an operator, the minus sign. -/
  operator : ∀ op, ts.head? = some (.operator op) → op = .sub ∧ p ≤ Precedence.unary
  /-- A prefix operator in front of the text does not become part of a longer sign. -/
  first : ∃ c cs, text.toList = c :: cs ∧
    (Precedence.atom ≤ p → c ≠ '-' ∧ c ≠ '>' ∧ c ≠ '=')
  value : Precedence.unary ≤ p → ∀ rest, CanRead scope .value (ts ++ rest) [e] rest
  chains : ∀ {least r rest rest'}, least ≤ p → Token.Follows p rest.head? →
    CanRead scope (.extension least e) rest [r] rest' → Chains scope least (ts ++ rest) r rest'

namespace Written

variable {scope : Scope} {text : String} {e : Expr} {p : Nat} {ts : List Token}

/-- A text that is read as a value, whatever follows. -/
theorem of_value (hspells : Spells text ts) (henclosed : Enclosed text.toList)
    (hoperator : ∀ op, ts.head? = some (.operator op) → op = .sub ∧ p ≤ Precedence.unary)
    (hfirst : ∃ c cs, text.toList = c :: cs ∧ (Precedence.atom ≤ p → c ≠ '-' ∧ c ≠ '>' ∧ c ≠ '='))
    (hvalue : ∀ rest, CanRead scope .value (ts ++ rest) [e] rest) : Written scope text e p ts where
  spells := hspells
  enclosed := henclosed
  starts := by
    obtain ⟨n, hreads⟩ := hvalue []
    simpa using hreads.startsValue
  operator := hoperator
  first := hfirst
  value := fun _ => hvalue
  chains := fun _ _ hrest => ⟨e, _, hvalue _, hrest⟩

theorem head_append (h : Written scope text e p ts) (rest : List Token) :
    (ts ++ rest).head? = ts.head? := by
  cases ts with
  | nil => exact absurd h.starts (by simp)
  | cons t ts => rfl

theorem head_ne (h : Written scope text e p ts) {t : Token} (ht : t.startsValue = false)
    (rest : List Token) : (ts ++ rest).head? ≠ some t := by
  intro hhead
  rw [h.head_append] at hhead
  have := h.starts
  rw [hhead] at this
  simp [ht] at this

/-- An atom does not begin with an operator. -/
theorem not_operator (h : Written scope text e p ts) (hp : Precedence.atom ≤ p) (rest : List Token)
    (op : BinaryOp) : (ts ++ rest).head? ≠ some (.operator op) := by
  rw [h.head_append]
  intro hhead
  have := (h.operator op hhead).2
  simp only [Precedence.atom, Precedence.unary] at *
  omega

/-- In front of a closing token the text is read as an expression. -/
theorem expression (h : Written scope text e p ts) (rest : List Token)
    (hrest : Token.Closes rest.head?) :
    CanRead scope (.expression Precedence.lowest) (ts ++ rest) [e] rest := by
  refine .expression (h.chains (Nat.zero_le p) (hrest.follows p) (.stop ?_))
  exact (hrest.follows _).stopsAt_lowest

/-- The text in parentheses is an atom. -/
theorem inParens (h : Written scope text e p ts) :
    Written scope ("(" ++ text ++ ")") e Precedence.atom (.leftParen :: (ts ++ [.rightParen])) := by
  refine of_value ?_ ?_ (by simp) ⟨'(', text.toList ++ [')'], by simp, by decide⟩ fun rest => ?_
  · intro rest us hrest hlexes
    have hclose := lexes_bracket (c := ')') (t := .rightParen) (by decide) hlexes
    have hinner := h.spells (')' :: rest) _ (.inr (.inl ⟨')', rest, rfl, by decide⟩)) hclose
    have hopen := lexes_bracket (c := '(') (t := .leftParen) (by decide) hinner
    simpa using hopen
  · exact ((enclosed_of_plain (by decide)).toList_append h.enclosed).toList_append
      (enclosed_of_plain (by decide))
  · have hclose : Token.Closes (Token.rightParen :: rest).head? := by simp [Token.Closes]
    rw [List.cons_append, List.append_assoc, List.singleton_append]
    refine .parens (h.chains (Nat.zero_le p) (hclose.follows p) ?_) fun op hhead => ?_
    · exact .stop (hclose.follows _).stopsAt_lowest
    · rw [h.head_append] at hhead
      exact (h.operator op hhead).1

/-- **Brackets where they are asked for** give an operand the strength of its place. -/
theorem bracketed (h : Written scope text e p ts) {least : Nat} (hleast : least ≤ Precedence.atom) :
    ∃ p' ts', Written scope (LazyExpr.bracketed least p text) e p' ts' ∧ least ≤ p' := by
  unfold LazyExpr.bracketed
  split
  · exact ⟨_, _, h.inParens, hleast⟩
  · next hstrong => exact ⟨p, ts, h, Nat.not_lt.mp hstrong⟩

end Written

/-! ## 4. Names and literals -/

section Atoms

variable {scope : Scope}

/-- A single token that is read as a value. -/
theorem written_token {text : String} {t : Token} {e : Expr} (hspells : Spells text [t])
    (henclosed : Enclosed text.toList) (hoperator : ∀ op, t ≠ .operator op)
    (hfirst : ∃ c cs, text.toList = c :: cs ∧ c ≠ '-' ∧ c ≠ '>' ∧ c ≠ '=')
    (hvalue : ∀ rest, Reads 0 0 scope .value (t :: rest) [e] rest) :
    Written scope text e Precedence.atom [t] := by
  obtain ⟨c, cs, htext, hc⟩ := hfirst
  refine .of_value hspells henclosed (fun op hhead => ?_) ⟨c, cs, htext, fun _ => hc⟩
    fun rest => ⟨0, hvalue rest⟩
  exact absurd (Option.some.inj hhead) (hoperator op)

/-- Digits, points and the characters of words need no care. -/
theorem enclosed_of_class {cs : List Char} (q : Char → Bool)
    (hq : q '"' = false ∧ q '\x7b' = false ∧ q '\x7d' = false) (h : cs.all q = true) :
    Enclosed cs := by
  refine enclosed_of_plain (List.all_eq_true.mpr fun c hc => ?_)
  have hqc := List.all_eq_true.mp h c hc
  simp only [isPlain, Bool.and_eq_true, bne_iff_ne]
  refine ⟨⟨?_, ?_⟩, ?_⟩ <;> rintro rfl
  · exact absurd hqc (by simp [hq.1])
  · exact absurd hqc (by simp [hq.2.1])
  · exact absurd hqc (by simp [hq.2.2])

/-- A class of characters without the signs starts no longer sign. -/
theorem first_of_class {c : Char} (q : Char → Bool)
    (hq : q '-' = false ∧ q '>' = false ∧ q '=' = false) (h : q c = true) :
    c ≠ '-' ∧ c ≠ '>' ∧ c ≠ '=' := by
  refine ⟨?_, ?_, ?_⟩ <;> rintro rfl
  · exact absurd h (by simp [hq.1])
  · exact absurd h (by simp [hq.2.1])
  · exact absurd h (by simp [hq.2.2])

theorem written_name {name : String} {e : Expr} (hname : Lexeme.IsName name)
    (hlookup : scope.lookup name = some e) :
    Written scope name e Precedence.atom [.identifier name] := by
  obtain ⟨c, cs, htext, hstart, hcs⟩ := hname.1
  have hpart : Lexeme.isWordPart c = true := by
    simp only [Lexeme.isWordStart, Lexeme.isWordPart, Char.isAlphanum, Bool.or_eq_true] at hstart ⊢
    exact hstart.elim (fun h => .inl (.inl (.inl h))) fun h => .inl (.inr h)
  refine written_token (spells_name hname) ?_ (by simp) ⟨c, cs, htext, ?_⟩ fun rest => .name hlookup
  · rw [htext]
    refine enclosed_of_class Lexeme.isWordPart (by decide) ?_
    simp only [List.all_cons, hpart, hcs, Bool.and_self]
  · exact first_of_class Lexeme.isWordPart (by decide) hpart

theorem written_integer {n : Int64} (hn : 0 ≤ n.toInt) :
    Written scope (Number.integer n).source (.integer n) Precedence.atom [.integer n] := by
  obtain ⟨c, cs, htext, hall⟩ : ∃ c cs, (Number.integer n).source.toList = c :: cs ∧
      (c :: cs).all Char.isDigit = true := by
    rw [source_integer hn, String.toList_ofList]
    obtain ⟨c, cs, hdigits⟩ := List.exists_cons_of_ne_nil
      (Nat.toDigits_ne_nil : Nat.toDigits 10 n.toInt.natAbs ≠ [])
    exact ⟨c, cs, hdigits, hdigits ▸ all_isDigit_toDigits _⟩
  refine written_token (spells_integer hn) ?_ (by simp) ⟨c, cs, htext, ?_⟩ fun rest => .literal rfl
  · rw [htext]
    exact enclosed_of_class Char.isDigit (by decide) hall
  · simp only [List.all_cons, Bool.and_eq_true] at hall
    exact first_of_class Char.isDigit (by decide) hall.1

theorem written_decimal {d : Decimal} (hd : d.IsLiteral) :
    Written scope d.source (.decimal d) Precedence.atom [.decimal d] := by
  obtain ⟨whole, fraction, htext, hne, -, hwhole, hfraction, -⟩ := d.source_eq hd
  obtain ⟨c, whole, rfl⟩ := List.exists_cons_of_ne_nil hne
  have hlist : d.source.toList = c :: (whole ++ '.' :: fraction) := by
    rw [htext, String.toList_ofList, List.cons_append]
  refine written_token (spells_decimal hd) ?_ (by simp) ⟨c, _, hlist, ?_⟩ fun rest => .literal rfl
  · rw [htext, String.toList_ofList]
    have hpoint : Enclosed (['.'] ++ fraction) := .append (enclosed_of_plain (by decide))
      (enclosed_of_class Char.isDigit (by decide) hfraction)
    exact (enclosed_of_class Char.isDigit (by decide) hwhole).append hpoint
  · simp only [List.all_cons, Bool.and_eq_true] at hwhole
    exact first_of_class Char.isDigit (by decide) hwhole.1

theorem written_bool (b : Bool) :
    Written scope (if b then "true" else "false") (.bool b) Precedence.atom [.bool b] := by
  cases b with
  | true =>
    exact written_token (spells_word (c := 't') rfl rfl rfl)
      (enclosed_of_plain (by decide)) (by simp)
      ⟨'t', _, rfl, by decide⟩ fun rest => .literal rfl
  | false =>
    exact written_token (spells_word (c := 'f') rfl rfl rfl)
      (enclosed_of_plain (by decide)) (by simp)
      ⟨'f', _, rfl, by decide⟩ fun rest => .literal rfl

theorem written_null : Written scope "null" .null Precedence.atom [.null] :=
  written_token (spells_word (c := 'n') rfl rfl rfl) (enclosed_of_plain (by decide)) (by simp)
    ⟨'n', _, rfl, by decide⟩ fun rest => .literal rfl

theorem written_str (text : String) :
    Written scope ("\"" ++ Text.escape text ++ "\"") (.str text) Precedence.atom [.str text] := by
  refine written_token (spells_str text) ?_ (by simp)
    ⟨'"', (Text.escape text).toList ++ ['"'], by simp, by decide⟩ fun rest => .literal rfl
  have hquoted := enclosed_quoted text
  simpa using hquoted

end Atoms

/-! ## 5. Operators, calls and sections -/

theorem separates_space (rest : List Char) : Separates (' ' :: rest) :=
  .inr (.inl ⟨' ', rest, rfl, by decide⟩)

/-- Two texts with a space between them. -/
theorem Spells.space {a b : String} {ts us : List Token} (ha : Spells a ts) (hb : Spells b us) :
    Spells (a ++ " " ++ b) (ts ++ us) := by
  intro rest vs hrest hlexes
  have hspaced := lexes_space (hb rest vs hrest hlexes)
  have hall := ha _ _ (separates_space _) hspaced
  simpa using hall

section Composite

variable {scope : Scope}

theorem enclosed_symbol (op : BinaryOp) : Enclosed op.symbol.toList := by
  refine enclosed_of_plain ?_
  cases op <;> decide

theorem written_unary {op : UnaryOp} {text : String} {operand : Expr} {p : Nat} {ts : List Token}
    (h : Written scope text operand p ts) (hp : Precedence.atom ≤ p) :
    Written scope (op.symbol ++ text) (.unary op operand) Precedence.unary (op.token :: ts) := by
  obtain ⟨c, cs, htext, hc⟩ := h.first
  refine .of_value ?_ ?_ ?_ ?_ fun rest => .unary (h.value (Nat.le_of_succ_le hp) rest)
  · intro rest us hrest hlexes
    have hinner := h.spells rest us hrest hlexes
    have hhead : ∀ d ∈ (text.toList ++ rest).head?, d ≠ '-' ∧ d ≠ '>' ∧ d ≠ '=' := by
      rw [htext]
      rintro d ⟨⟩
      exact hc hp
    rw [String.toList_append, List.append_assoc]
    cases op with
    | negate => exact lexes_minus (fun d hd => ⟨(hhead d hd).1, (hhead d hd).2.1⟩) hinner
    | not => exact lexes_bang (fun d hd => (hhead d hd).2.2) hinner
  · refine .toList_append (enclosed_of_plain ?_) h.enclosed
    cases op <;> decide
  · intro op' hhead
    cases op with
    | negate =>
      cases hhead
      exact ⟨rfl, Nat.le_refl _⟩
    | not => cases hhead
  · cases op with
    | negate => exact ⟨'-', text.toList, by simp [UnaryOp.symbol], by decide⟩
    | not => exact ⟨'!', text.toList, by simp [UnaryOp.symbol], by decide⟩

theorem written_binary {op : BinaryOp} {a b : String} {left right : Expr} {p q : Nat}
    {ts us : List Token} (hleft : Written scope a left p ts) (hp : op.leftPrecedence ≤ p)
    (hright : Written scope b right q us) (hq : op.rightPrecedence ≤ q) :
    Written scope (a ++ " " ++ op.symbol ++ " " ++ b) (.binary op left right) op.precedence
      (ts ++ [.operator op] ++ us) := by
  have hprecedence : op.precedence ≤ op.leftPrecedence ∧ op.precedence ≤ op.rightPrecedence ∧
      op.precedence < Precedence.application := by cases op <;> decide
  obtain ⟨hl, hr, happlication⟩ := hprecedence
  obtain ⟨c, cs, htext, -⟩ := hleft.first
  refine ⟨(hleft.spells.space (spells_operator op)).space hright.spells, ?_, ?_, ?_, ?_, ?_, ?_⟩
  · refine .toList_append (.toList_append (.toList_append (.toList_append hleft.enclosed ?_) ?_) ?_)
      hright.enclosed
    · exact enclosed_of_plain (by decide)
    · exact enclosed_symbol op
    · exact enclosed_of_plain (by decide)
  · rw [List.append_assoc, hleft.head_append]
    exact hleft.starts
  · intro op' hhead
    rw [List.append_assoc, hleft.head_append] at hhead
    refine ⟨(hleft.operator op' hhead).1, ?_⟩
    simp only [Precedence.application, Precedence.unary] at *
    omega
  · refine ⟨c, cs ++ (" " ++ op.symbol ++ " " ++ b).toList, by simp [htext], fun hatom => ?_⟩
    simp only [Precedence.application, Precedence.atom] at *
    omega
  · intro hunary
    simp only [Precedence.application, Precedence.unary] at *
    omega
  · -- the left operand ends in front of the operator, the right one where the operation does
    intro least r rest rest' hleast hfollows hrest
    have hright' : CanRead scope (.expression op.rightPrecedence) (us ++ rest) [right] rest :=
      .expression (hright.chains hq (hfollows.mono (by omega)) (.stop hfollows.stopsAt_right))
    rw [List.append_assoc, List.append_assoc]
    refine hleft.chains (by omega) hp ?_
    exact .binary hleast (hright.head_ne rfl rest) hright' hrest

theorem written_call {a b : String} {function argument : Expr} {p q : Nat} {ts us : List Token}
    (hfunction : Written scope a function p ts) (hp : Precedence.application ≤ p)
    (hargument : Written scope b argument q us) (hq : Precedence.atom ≤ q) :
    Written scope (a ++ " " ++ b) (.call function argument) Precedence.application (ts ++ us) := by
  obtain ⟨c, cs, htext, -⟩ := hfunction.first
  refine ⟨hfunction.spells.space hargument.spells, ?_, ?_, ?_, ?_, ?_, ?_⟩
  · refine .toList_append (.toList_append hfunction.enclosed ?_) hargument.enclosed
    exact enclosed_of_plain (by decide)
  · rw [hfunction.head_append]
    exact hfunction.starts
  · intro op hhead
    rw [hfunction.head_append] at hhead
    exact ⟨(hfunction.operator op hhead).1, by decide⟩
  · exact ⟨c, cs ++ (" " ++ b).toList, by simp [htext], fun hatom => absurd hatom (by decide)⟩
  · exact fun hunary => absurd hunary (by decide)
  · intro least r rest rest' hleast hfollows hrest
    have hvalue := hargument.value (Nat.le_of_succ_le hq) rest
    rw [List.append_assoc]
    have hop := hargument.not_operator hq rest
    refine hfunction.chains (Nat.le_trans hleast hp) ?_ (.juxtapose hop hvalue hrest)
    exact Token.follows_application hp hop (hargument.head_ne rfl rest)

theorem written_leftSection {op : BinaryOp} {a : String} {left : Expr} {p : Nat} {ts : List Token}
    (h : Written scope a left p ts) (hp : op.leftPrecedence ≤ p) :
    Written scope ("(" ++ a ++ " " ++ op.symbol ++ ")") (.leftSection op left) Precedence.atom
      (.leftParen :: (ts ++ [.operator op] ++ [.rightParen])) := by
  refine .of_value ?_ ?_ (by simp) ⟨'(', (a ++ " " ++ op.symbol ++ ")").toList, by simp, by decide⟩
    fun rest => ?_
  · intro rest us hrest hlexes
    have hclose := lexes_bracket (c := ')') (t := .rightParen) (by decide) hlexes
    have hinner := h.spells.space (spells_operator op) (')' :: rest) _
      (.inr (.inl ⟨')', rest, rfl, by decide⟩)) hclose
    have hopen := lexes_bracket (c := '(') (t := .leftParen) (by decide) hinner
    simpa using hopen
  · refine .toList_append (.toList_append (.toList_append (.toList_append ?_ h.enclosed) ?_) ?_) ?_
    · exact enclosed_of_plain (by decide)
    · exact enclosed_of_plain (by decide)
    · exact enclosed_symbol op
    · exact enclosed_of_plain (by decide)
  · rw [List.cons_append, List.append_assoc, List.append_assoc]
    refine .parens (h.chains (Nat.zero_le p) hp ⟨0, .leftSection⟩) fun op' hhead => ?_
    rw [h.head_append] at hhead
    exact (h.operator op' hhead).1

theorem written_rightSection {op : BinaryOp} {a : String} {right : Expr} {p : Nat} {ts : List Token}
    (hop : op ≠ .sub) (h : Written scope a right p ts) :
    Written scope ("(" ++ op.symbol ++ " " ++ a ++ ")") (.rightSection op right) Precedence.atom
      (.leftParen :: .operator op :: (ts ++ [.rightParen])) := by
  refine .of_value ?_ ?_ (by simp) ⟨'(', (op.symbol ++ " " ++ a ++ ")").toList, by simp, by decide⟩
    fun rest => ?_
  · intro rest us hrest hlexes
    have hclose := lexes_bracket (c := ')') (t := .rightParen) (by decide) hlexes
    have hinner := (spells_operator op).space h.spells (')' :: rest) _
      (.inr (.inl ⟨')', rest, rfl, by decide⟩)) hclose
    have hopen := lexes_bracket (c := '(') (t := .leftParen) (by decide) hinner
    simpa using hopen
  · refine .toList_append (.toList_append (.toList_append (.toList_append ?_ ?_) ?_) h.enclosed) ?_
    · exact enclosed_of_plain (by decide)
    · exact enclosed_symbol op
    · exact enclosed_of_plain (by decide)
    · exact enclosed_of_plain (by decide)
  · have hclose : Token.Closes (Token.rightParen :: rest).head? := by simp [Token.Closes]
    obtain ⟨n, hreads⟩ := h.expression _ hclose
    rw [List.cons_append, List.cons_append, List.append_assoc]
    exact ⟨n, .parens (.rightSection hop hreads)⟩

end Composite

/-! ## 6. Lambdas and conditionals -/

section Open

variable {scope : Scope}

/-- A form that extends as far as it can: it is read as a value up to a token that ends it. -/
theorem written_open {text : String} {e : Expr} {ts : List Token} (hspells : Spells text ts)
    (henclosed : Enclosed text.toList) (hoperator : ∀ op, ts.head? ≠ some (.operator op))
    (hne : text.toList ≠ [])
    (hvalue : ∀ rest, Token.Follows Precedence.lowest rest.head? →
      CanRead scope .value (ts ++ rest) [e] rest) : Written scope text e Precedence.lowest ts := by
  obtain ⟨c, cs, htext⟩ := List.exists_cons_of_ne_nil hne
  refine ⟨hspells, henclosed, ?_, fun op hhead => absurd hhead (hoperator op),
    ⟨c, cs, htext, fun hatom => absurd hatom (by decide)⟩, fun hunary =>
      absurd hunary (by decide), ?_⟩
  · obtain ⟨n, hreads⟩ := hvalue [] trivial
    simpa using hreads.startsValue
  · intro least r rest rest' _ hfollows hrest
    exact ⟨e, rest, hvalue rest hfollows, hrest⟩

theorem Written.body {text : String} {e : Expr} {p : Nat} {ts rest : List Token}
    (h : Written scope text e p ts) (hrest : Token.Follows Precedence.lowest rest.head?) :
    CanRead scope (.expression Precedence.lowest) (ts ++ rest) [e] rest :=
  .expression (h.chains (Nat.zero_le p) (hrest.mono (Nat.zero_le p)) (.stop hrest.stopsAt_lowest))

theorem isName_enclosed {name : String} (h : Lexeme.IsName name) : Enclosed name.toList := by
  -- whatever the name stands for, it is written without quotes and braces
  have hscope : (Scope.global [(name, .null)]).lookup name = some .null := by simp [Scope.lookup]
  exact (written_name h hscope).enclosed

/-- Names with spaces between them. -/
theorem spells_names {names : List String} (hne : names ≠ [])
    (hnames : ∀ name ∈ names, Lexeme.IsName name) :
    Spells (" ".intercalate names) (names.map .identifier) ∧
      Enclosed (" ".intercalate names).toList := by
  induction names with
  | nil => exact absurd rfl hne
  | cons name names ih =>
    have hname := hnames name (by simp)
    by_cases hnil : names = []
    · subst hnil
      rw [String.intercalate_singleton]
      exact ⟨spells_name hname, isName_enclosed hname⟩
    · obtain ⟨hspells, henclosed⟩ := ih hnil fun other hother => hnames other (by simp [hother])
      rw [String.intercalate_cons_of_ne_nil hnil]
      refine ⟨(spells_name hname).space hspells, ?_⟩
      refine .toList_append (.toList_append (isName_enclosed hname) ?_) henclosed
      exact enclosed_of_plain (by decide)

theorem written_lambda {names : List String} {text : String} {body : Expr} {p : Nat}
    {ts : List Token} (hne : names ≠ []) (hnames : ∀ name ∈ names, Lexeme.IsName name)
    (h : Written (scope.inside names) text body p ts) :
    Written scope (lambdaHead names ++ text)
      (.lambda (scope.depth + 1) names body) Precedence.lowest
      (.backslash :: (names.map .identifier ++ .arrow :: ts)) := by
  have hparameters := spells_names hne hnames
  refine written_open ?_ ?_ (by simp) (by simp [lambdaHead]) fun rest hrest => ?_
  · intro rest us hrest hlexes
    have hbody := lexes_arrow (lexes_space (h.spells rest us hrest hlexes))
    have hhead := hparameters.1 _ _ (separates_space _) (lexes_space hbody)
    have hall := lexes_bracket (c := '\\') (t := .backslash) (by decide) hhead
    simpa [lambdaHead] using hall
  · refine .toList_append (.toList_append (.toList_append ?_ hparameters.2) ?_) h.enclosed
    · exact enclosed_of_plain (by decide)
    · exact enclosed_of_plain (by decide)
  · obtain ⟨n, hbody⟩ := h.body hrest
    have hreads := Reads.lambda hne hbody
    exact ⟨n, by simpa using hreads⟩

theorem written_conditional {a b c : String} {condition yes no : Expr} {p q r : Nat}
    {ts us vs : List Token} (hcondition : Written scope a condition p ts)
    (hyes : Written scope b yes q us) (hno : Written scope c no r vs) :
    Written scope ("if " ++ a ++ " then " ++ b ++ " else " ++ c) (.conditional condition yes no)
      Precedence.lowest (.ifWord :: (ts ++ .thenWord :: (us ++ .elseWord :: vs))) := by
  have hif : Spells "if" [.ifWord] := spells_word (c := 'i') rfl rfl rfl
  have hthen : Spells "then" [.thenWord] := spells_word (c := 't') rfl rfl rfl
  have helse : Spells "else" [.elseWord] := spells_word (c := 'e') rfl rfl rfl
  refine written_open ?_ ?_ (by simp) (by simp) fun rest hrest => ?_
  · have hall := ((((hif.space hcondition.spells).space hthen).space hyes.spells).space helse).space
      hno.spells
    intro rest ws hrest hlexes
    have := hall rest ws hrest hlexes
    simpa using this
  · refine .toList_append (.toList_append (.toList_append (.toList_append (.toList_append ?_
      hcondition.enclosed) ?_) hyes.enclosed) ?_) hno.enclosed
    · exact enclosed_of_plain (by decide)
    · exact enclosed_of_plain (by decide)
    · exact enclosed_of_plain (by decide)
  · have hc := hcondition.expression (.thenWord :: (us ++ .elseWord :: (vs ++ rest)))
      (by simp [Token.Closes])
    have hy := hyes.expression (.elseWord :: (vs ++ rest)) (by simp [Token.Closes])
    obtain ⟨n, hc, hy⟩ := hc.both hy
    obtain ⟨m, hno⟩ := hno.body hrest
    have hreads := Reads.conditional (hc.mono (Nat.le_max_left n m) (Nat.le_max_left n m))
      (hy.mono (Nat.le_max_left n m) (Nat.le_max_left n m))
      (hno.mono (Nat.le_max_right n m) (Nat.le_max_right n m))
    exact ⟨max n m, by simpa using hreads⟩

end Open

/-! ## 7. Lists and ranges -/

section Lists

variable {scope : Scope}

/-- `Ends scope text whole ts`: the text behind an element, with the closing bracket, is the tokens
`ts`, and brackets that end so hold `whole before item`, where `before` are the elements in front of
the element `item`, the latest first. -/
structure Ends (scope : Scope) (text : String) (whole : List Expr → Expr → Option Expr)
    (ts : List Token) : Prop where
  lexes : ∀ rest us, Lexes rest us → Lexes (text.toList ++ rest) (ts ++ us)
  enclosed : Enclosed text.toList
  separates : ∀ rest, Separates (text.toList ++ rest)
  reads : ∀ {item a p us before e}, Written scope a item p us → whole before item = some e →
    ∀ rest, CanRead scope (.elements before) (us ++ (ts ++ rest)) [e] rest

/-- The closing bracket behind the last element. -/
theorem ends_close : Ends scope "]" (fun before item => some (.literal (item :: before).reverse))
    [.rightBracket] where
  lexes := fun rest us h => lexes_bracket (by decide) h
  enclosed := enclosed_of_plain (by decide)
  separates := fun rest => .inr (.inl ⟨']', rest, rfl, by decide⟩)
  reads := by
    rintro item a p us before _ hitem ⟨⟩ rest
    obtain ⟨n, hreads⟩ := hitem.expression (.rightBracket :: rest) (by simp [Token.Closes])
    exact ⟨n, .elementsEnd hreads⟩

/-- One more element behind a comma. -/
theorem ends_comma {text a : String} {whole : List Expr → Expr → Option Expr}
    {next : Expr} {p : Nat}
    {ts us : List Token} (hnext : Written scope a next p us) (h : Ends scope text whole ts) :
    Ends scope (", " ++ a ++ text) (fun before item => whole (item :: before) next)
      (.comma :: (us ++ ts)) where
  lexes := by
    intro rest vs hlexes
    have hrest := hnext.spells _ _ (h.separates rest) (h.lexes rest vs hlexes)
    have hcomma := lexes_bracket (c := ',') (t := .comma) (by decide) (lexes_space hrest)
    simpa using hcomma
  enclosed :=
    .toList_append (.toList_append (enclosed_of_plain (by decide)) hnext.enclosed) h.enclosed
  separates := fun rest => .inr (.inl ⟨',', _, by simp; rfl, by decide⟩)
  reads := by
    intro item b q ws before e hitem hwhole rest
    have hmore := h.reads hnext hwhole rest
    have hfirst := hitem.expression (.comma :: (us ++ (ts ++ rest))) (by simp [Token.Closes])
    obtain ⟨n, hfirst, hmore⟩ := hfirst.both hmore
    exact ⟨n, by simpa using Reads.elementsMore hfirst hmore⟩

/-- The dots of a range without an end. -/
theorem ends_open : Ends scope "..]"
    (fun before item => Expr.rangeOf? none (item :: before).reverse) [.dots, .rightBracket] where
  lexes := fun rest us h => lexes_dots (lexes_bracket (by decide) h)
  enclosed := enclosed_of_plain (by decide)
  separates := fun rest => .inr (.inr ⟨_, rfl⟩)
  reads := by
    intro item a p us before e hitem hwhole rest
    obtain ⟨n, hreads⟩ := hitem.expression (.dots :: .rightBracket :: rest) (by simp [Token.Closes])
    exact ⟨n, .rangeOpen hreads hwhole⟩

/-- The dots of a range with an end. -/
theorem ends_closed {a : String} {stop : Expr} {p : Nat} {ts : List Token}
    (hstop : Written scope a stop p ts) :
    Ends scope (".." ++ a ++ "]")
      (fun before item => Expr.rangeOf? (some stop) (item :: before).reverse)
      (.dots :: (ts ++ [.rightBracket])) where
  lexes := by
    intro rest us hlexes
    have hclose := lexes_bracket (c := ']') (t := .rightBracket) (by decide) hlexes
    have hend := hstop.spells (']' :: rest) _ (.inr (.inl ⟨']', rest, rfl, by decide⟩)) hclose
    simpa using lexes_dots hend
  enclosed := .toList_append (.toList_append (enclosed_of_plain (by decide)) hstop.enclosed)
    (enclosed_of_plain (by decide))
  separates := fun rest => .inr (.inr ⟨_, by simp; rfl⟩)
  reads := by
    intro item b q us before e hitem hwhole rest
    have hfirst := hitem.expression (.dots :: (ts ++ .rightBracket :: rest))
      (by simp [Token.Closes])
    have hlast := hstop.expression (.rightBracket :: rest) (by simp [Token.Closes])
    obtain ⟨n, hfirst, hlast⟩ := hfirst.both hlast
    exact ⟨n, by simpa using Reads.rangeClosed hfirst hlast hwhole⟩

/-- What is in brackets is an atom. -/
theorem written_brackets {a text : String} {first e : Expr} {whole : List Expr → Expr → Option Expr}
    {p : Nat} {ts us : List Token} (hfirst : Written scope a first p us)
    (h : Ends scope text whole ts)
    (hwhole : whole [] first = some e) :
    Written scope ("[" ++ a ++ text) e Precedence.atom (.leftBracket :: (us ++ ts)) := by
  refine .of_value ?_ ?_ (by simp) ⟨'[', (a ++ text).toList, by simp, by decide⟩ fun rest => ?_
  · intro rest vs hrest hlexes
    have hinner := hfirst.spells _ _ (h.separates rest) (h.lexes rest vs hlexes)
    have hopen := lexes_bracket (c := '[') (t := .leftBracket) (by decide) hinner
    simpa using hopen
  · exact .toList_append (.toList_append (enclosed_of_plain (by decide)) hfirst.enclosed) h.enclosed
  · obtain ⟨n, hreads⟩ := h.reads hfirst hwhole rest
    have hopen : (us ++ (ts ++ rest)).head? ≠ some .rightBracket := hfirst.head_ne rfl _
    exact ⟨n, by simpa using Reads.list hopen hreads⟩

theorem written_emptyList : Written scope "[]" (.literal []) Precedence.atom
    [.leftBracket, .rightBracket] := by
  refine .of_value ?_ (enclosed_of_plain (by decide)) (by simp) ⟨'[', [']'], rfl, by decide⟩
    fun rest => ⟨0, .emptyList⟩
  intro rest us hrest hlexes
  exact lexes_bracket (by decide) (lexes_bracket (by decide) hlexes)

/-- The elements behind the first, and the closing bracket. -/
theorem ends_elements {elements : List Expr}
    (h : ∀ e ∈ elements, ∃ ts, Written scope e.source e e.precedence ts) :
    ∃ ts, Ends scope (elementsSource elements ++ "]")
      (fun before item => some (.literal (before.reverse ++ item :: elements))) ts := by
  induction elements with
  | nil => exact ⟨[.rightBracket], by simpa [elementsSource] using ends_close⟩
  | cons e elements ih =>
    obtain ⟨us, he⟩ := h e (by simp)
    obtain ⟨ts, hends⟩ := ih fun e' he' => h e' (by simp [he'])
    refine ⟨.comma :: (us ++ ts), ?_⟩
    have hcomma := ends_comma he hends
    simpa [elementsSource, String.append_assoc] using hcomma

end Lists

/-! ## 8. Interpolated strings -/

section Interpolation

variable {scope : Scope}

/-- The piece that a fragment is written as. -/
def Fragment.piece : Fragment → Piece
  | text t => .text t
  | embedded e => .source e.source

theorem Fragment.text?_piece (fragment : Fragment) : fragment.piece.text? = fragment.text? := by
  cases fragment <;> rfl

/-- The written body is the escaped form of the pieces put together. -/
theorem fragmentsSource_eq (fragments : List Fragment) :
    fragmentsSource fragments =
      Text.escape (String.ofList ((fragments.map Fragment.piece).flatMap Piece.raw)) := by
  have hescape : ∀ a b : List Char, Text.escape (String.ofList (a ++ b)) =
      Text.escape (String.ofList a) ++ Text.escape (String.ofList b) := by
    intro a b
    simp [Text.escape]
  induction fragments with
  | nil => simp [fragmentsSource, Text.escape]
  | cons fragment fragments ih =>
    rw [List.map_cons, List.flatMap_cons, hescape, ← ih]
    cases fragment with
    | text t => simp [fragmentsSource, Fragment.piece, Piece.raw]
    | embedded e =>
      have hhole : Text.escape (String.ofList (Fragment.embedded e).piece.raw) =
          "$\x7b" ++ Text.escape e.source ++ "\x7d" := by
        refine String.toList_injective ?_
        simp [Fragment.piece, Piece.raw, Text.escape, Text.escapeChar]
      rw [fragmentsSource, hhole]

/-- The pieces of a written string are read as its fragments. -/
theorem reads_pieces {fragments : List Fragment}
    (h : ∀ e, .embedded e ∈ fragments → ∃ ts, Written scope e.source e e.precedence ts)
    (rest : List Token) :
    CanRead scope (.pieces (fragments.map Fragment.piece)) rest [.interpolated fragments] rest := by
  induction fragments with
  | nil => exact ⟨0, .noPiece⟩
  | cons fragment fragments ih =>
    have hmore := ih fun e he => h e (by simp [he])
    cases fragment with
    | text t =>
      obtain ⟨n, hmore⟩ := hmore
      exact ⟨n, .textPiece hmore⟩
    | embedded e =>
      obtain ⟨ts, he⟩ := h e (by simp)
      have hlexes := he.spells [] [] (.inl rfl) .nil
      have hreads := he.expression [] (by simp [Token.Closes])
      obtain ⟨n, hreads, hmore⟩ := hreads.both hmore
      exact ⟨n, .sourcePiece (by simpa using hlexes) (by simpa using hreads) hmore⟩

theorem written_interpolated {fragments : List Fragment}
    (h : ∀ e, .embedded e ∈ fragments → ∃ ts, Written scope e.source e e.precedence ts)
    (hsplit : SplitTexts (fragments.map Fragment.text?)) :
    ∃ ts, Written scope ("p\"" ++ fragmentsSource fragments ++ "\"") (.interpolated fragments)
      Precedence.atom ts := by
  have hcut : Piece.pieces (String.ofList ((fragments.map Fragment.piece).flatMap Piece.raw)) =
      fragments.map Fragment.piece := by
    rw [Piece.pieces, String.toList_ofList]
    refine cut_rawBody ?_ fun piece hpiece => ?_
    · have htexts : Piece.text? ∘ Fragment.piece = Fragment.text? := funext Fragment.text?_piece
      rw [List.map_map, htexts]
      exact hsplit
    · obtain ⟨fragment, hmem, rfl⟩ := List.mem_map.mp hpiece
      cases fragment with
      | text t => exact .inl ⟨t, rfl⟩
      | embedded e =>
        obtain ⟨ts, he⟩ := h e hmem
        exact .inr ⟨e.source, rfl, he.enclosed⟩
  rw [fragmentsSource_eq]
  generalize String.ofList ((fragments.map Fragment.piece).flatMap Piece.raw) = body at hcut ⊢
  refine ⟨[.template body], .of_value (spells_template body) ?_ (by simp)
    ⟨'p', '"' :: ((Text.escape body).toList ++ ['"']), by simp, by decide⟩ fun rest => ?_⟩
  · have hquoted : Enclosed (['p'] ++ '"' :: ((Text.escape body).toList ++ ['"'])) :=
      .append (enclosed_of_plain (by decide)) (enclosed_quoted body)
    simpa using hquoted
  · obtain ⟨n, hreads⟩ := reads_pieces h rest
    rw [← hcut] at hreads
    exact ⟨n, .template hreads⟩

end Interpolation

/-! ## 9. Every expression from a text -/

/-- **The source text of an expression is read as that expression**, at the strength it is written
with. -/
theorem written_source {scope : Scope} {e : Expr} (h : Readable scope e) (hscope : scope.Faithful) :
    ∃ ts, Written scope e.source e e.precedence ts := by
  induction h with
  | @integer _ n hn =>
    have hnegative : (Number.integer n).isNegative = false := by
      simpa [Number.isNegative, Int64.lt_iff_toInt_lt] using hn
    have hprecedence : (Expr.integer n).precedence = Precedence.atom := by
      simp [Expr.integer, Expr.precedence, Number.precedence, hnegative]
    rw [hprecedence]
    exact ⟨_, written_integer hn⟩
  | @decimal _ d hd =>
    have hprecedence : (Expr.decimal d).precedence = Precedence.atom := by
      simp [Expr.decimal, Expr.precedence, Number.precedence, Number.isNegative, Decimal.isNegative,
        hd.1]
    rw [hprecedence]
    exact ⟨_, written_decimal hd⟩
  | bool b => exact ⟨_, written_bool b⟩
  | null => exact ⟨_, written_null⟩
  | str text => exact ⟨_, written_str text⟩
  | name hlookup =>
    obtain ⟨hname, ⟨f, rfl, rfl⟩ | ⟨slot, rfl, rfl⟩⟩ := hscope _ _ hlookup
    · exact ⟨_, written_name hname hlookup⟩
    · exact ⟨_, written_name hname hlookup⟩
  | unary op _ ih =>
    obtain ⟨ts, h⟩ := ih hscope
    obtain ⟨p, us, h, hp⟩ := h.bracketed (Nat.le_refl Precedence.atom)
    exact ⟨_, written_unary h hp⟩
  | binary op _ _ ihl ihr =>
    have hstrength : op.leftPrecedence ≤ Precedence.atom ∧
      op.rightPrecedence ≤ Precedence.atom := by
      cases op <;> decide
    obtain ⟨_, hl⟩ := ihl hscope
    obtain ⟨_, hr⟩ := ihr hscope
    obtain ⟨_, _, hl, hp⟩ := hl.bracketed hstrength.1
    obtain ⟨_, _, hr, hq⟩ := hr.bracketed hstrength.2
    exact ⟨_, written_binary hl hp hr hq⟩
  | leftSection op _ ih =>
    have hstrength : op.leftPrecedence ≤ Precedence.atom := by cases op <;> decide
    obtain ⟨_, h⟩ := ih hscope
    obtain ⟨_, _, h, hp⟩ := h.bracketed hstrength
    exact ⟨_, written_leftSection h hp⟩
  | @rightSection _ op hop _ _ ih =>
    have hstrength : op.rightPrecedence ≤ Precedence.atom := by cases op <;> decide
    obtain ⟨_, h⟩ := ih hscope
    obtain ⟨_, _, h, -⟩ := h.bracketed hstrength
    exact ⟨_, written_rightSection hop h⟩
  | call _ _ ihf iha =>
    obtain ⟨_, hf⟩ := ihf hscope
    obtain ⟨_, ha⟩ := iha hscope
    obtain ⟨_, _, hf, hp⟩ := hf.bracketed (by decide : Precedence.application ≤ Precedence.atom)
    obtain ⟨_, _, ha, hq⟩ := ha.bracketed (Nat.le_refl Precedence.atom)
    exact ⟨_, written_call hf hp ha hq⟩
  | lambda hne hnames _ ih =>
    obtain ⟨_, h⟩ := ih (Scope.faithful_inside hscope hnames)
    exact ⟨_, written_lambda hne hnames h⟩
  | conditional _ _ _ ihc ihy ihn =>
    obtain ⟨_, hc⟩ := ihc hscope
    obtain ⟨_, hy⟩ := ihy hscope
    obtain ⟨_, hn⟩ := ihn hscope
    exact ⟨_, written_conditional hc hy hn⟩
  | @literal _ elements _ ih =>
    cases elements with
    | nil => exact ⟨_, written_emptyList⟩
    | cons first elements =>
      obtain ⟨_, hfirst⟩ := ih first (by simp) hscope
      obtain ⟨_, hends⟩ := ends_elements fun e (he : e ∈ elements) => ih e (by simp [he]) hscope
      have htext : (Expr.literal (first :: elements)).source =
          "[" ++ first.source ++ (elementsSource elements ++ "]") := by
        simp [Expr.literal, Expr.source, LazyList.source, String.append_assoc]
      rw [htext]
      exact ⟨_, written_brackets hfirst hends rfl⟩
  | @range _ start second stop _ _ _ ihstart ihsecond ihstop =>
    obtain ⟨_, hstart⟩ := ihstart hscope
    obtain ⟨text, ts, hends, htext⟩ : ∃ text ts, Ends _ text
        (fun before item => Expr.rangeOf? stop (item :: before).reverse) ts ∧
        text = ".." ++ (stop.map Expr.source).getD "" ++ "]" := by
      cases stop with
      | none => exact ⟨_, _, ends_open, rfl⟩
      | some stop =>
        obtain ⟨_, hstop⟩ := ihstop stop rfl hscope
        exact ⟨_, _, ends_closed hstop, rfl⟩
    cases second with
    | none =>
      have hsource : (Expr.range start none stop).source = "[" ++ start.source ++ text := by
        cases stop <;> simp [htext, Expr.source, String.append_assoc]
      rw [hsource]
      exact ⟨_, written_brackets hstart hends rfl⟩
    | some second =>
      obtain ⟨_, hsecond⟩ := ihsecond second rfl hscope
      have hsource : (Expr.range start (some second) stop).source =
          "[" ++ start.source ++ (", " ++ second.source ++ text) := by
        cases stop <;> simp [htext, Expr.source, String.append_assoc]
      rw [hsource]
      exact ⟨_, written_brackets hstart (ends_comma hsecond hends) rfl⟩
  | interpolated _ hsplit ih =>
    exact written_interpolated (fun e he => ih e he hscope) hsplit

/-! ## 10. What is shown -/

/-- The expression stays as it is when the arguments of no call are put in their places. -/
def StaysAt (e : Expr) (n : Nat) : Prop := ∀ fuel, n ≤ fuel → e.inline fuel .top = some e

theorem StaysAt.mono {e : Expr} {n m : Nat} (h : StaysAt e n) (hnm : n ≤ m) : StaysAt e m :=
  fun fuel hfuel => h fuel (Nat.le_trans hnm hfuel)

theorem exists_staysAt_all {elements : List Expr} (h : ∀ e ∈ elements, ∃ n, StaysAt e n) :
    ∃ n, ∀ e ∈ elements, StaysAt e n := by
  induction elements with
  | nil => exact ⟨0, by simp⟩
  | cons e elements ih =>
    obtain ⟨n, hn⟩ := h e (by simp)
    obtain ⟨m, hm⟩ := ih fun e' he' => h e' (by simp [he'])
    refine ⟨max n m, fun e' he' => ?_⟩
    rcases List.mem_cons.mp he' with rfl | he'
    · exact hn.mono (Nat.le_max_left n m)
    · exact (hm e' he').mono (Nat.le_max_right n m)

theorem mapM_eq_some_self {α : Type} {f : α → Option α} {xs : List α} (h : ∀ x ∈ xs, f x = some x) :
    xs.mapM f = some xs := by
  induction xs with
  | nil => rfl
  | cons x xs ih =>
    rw [List.mapM_cons, h x (by simp), ih fun y hy => h y (by simp [hy])]
    rfl

/-- The embedded expressions of some fragments. -/
def embeddedExprs (fragments : List Fragment) : List Expr :=
  fragments.filterMap fun fragment => match fragment with
    | .text _ => none
    | .embedded e => some e

/-- An expression from a text captures nothing, so there is nothing to put in place. -/
theorem exists_staysAt {scope : Scope} {e : Expr} (h : Readable scope e) (hscope : scope.Faithful) :
    ∃ n, StaysAt e n := by
  -- a form whose parts stay as they are from `n` on stays as it is from `n + 1` on
  have hstep : ∀ (e : Expr) (n : Nat), (∀ fuel, n ≤ fuel → e.inline (fuel + 1) .top = some e) →
      ∃ n, StaysAt e n := by
    intro e n h
    refine ⟨n + 1, fun fuel hfuel => ?_⟩
    obtain ⟨fuel, rfl⟩ : ∃ f, fuel = f + 1 := ⟨fuel - 1, by omega⟩
    exact h fuel (by omega)
  have hoption : ∀ o : Option Expr, (∀ e ∈ o, ∃ n, StaysAt e n) →
      ∃ n, ∀ fuel, n ≤ fuel → o.mapM (Expr.inline fuel .top) = some o := by
    intro o h
    cases o with
    | none => exact ⟨0, fun fuel _ => rfl⟩
    | some e =>
      obtain ⟨n, he⟩ := h e rfl
      exact ⟨n, fun fuel hfuel => by simp [Option.mapM, he fuel hfuel]⟩
  induction h with
  | integer | decimal => exact hstep _ 0 fun fuel _ => by simp [Expr.inline]; rfl
  | bool | null | str => exact hstep _ 0 fun fuel _ => by simp [Expr.inline]
  | name hlookup =>
    obtain ⟨-, ⟨f, rfl, -⟩ | ⟨slot, rfl, -⟩⟩ := hscope _ _ hlookup
    · exact hstep _ 0 fun fuel _ => by simp [Expr.inline]
    · exact hstep _ 0 fun fuel _ => by simp [Expr.inline, Env.lookup]
  | unary op _ ih | leftSection op _ ih | rightSection _ _ ih =>
    obtain ⟨n, h⟩ := ih hscope
    exact hstep _ n fun fuel hfuel => by simp [Expr.inline, h fuel hfuel]
  | binary op _ _ ihl ihr | call _ _ ihl ihr =>
    obtain ⟨n, hl⟩ := ihl hscope
    obtain ⟨m, hr⟩ := ihr hscope
    exact hstep _ (max n m) fun fuel hfuel => by
      simp [Expr.inline, hl fuel (by omega), hr fuel (by omega)]
  | lambda _ hnames _ ih =>
    obtain ⟨n, h⟩ := ih (Scope.faithful_inside hscope hnames)
    exact hstep _ n fun fuel hfuel => by simp [Expr.inline, h fuel hfuel]
  | conditional _ _ _ ihc ihy ihn =>
    obtain ⟨n, hc⟩ := ihc hscope
    obtain ⟨m, hy⟩ := ihy hscope
    obtain ⟨k, hn⟩ := ihn hscope
    exact hstep _ (max n (max m k)) fun fuel hfuel => by
      simp [Expr.inline, hc fuel (by omega), hy fuel (by omega), hn fuel (by omega)]
  | literal _ ih =>
    obtain ⟨n, h⟩ := exists_staysAt_all fun e he => ih e he hscope
    refine hstep _ (n + 1) fun fuel hfuel => ?_
    obtain ⟨fuel, rfl⟩ : ∃ f, fuel = f + 1 := ⟨fuel - 1, by omega⟩
    have hmap := mapM_eq_some_self fun e he => h e he fuel (by omega)
    simp [Expr.literal, Expr.inline, LazyList.inline, Env.orElse, hmap]
  | range _ _ _ ihstart ihsecond ihstop =>
    obtain ⟨n, hstart⟩ := ihstart hscope
    obtain ⟨m, hsecond⟩ := hoption _ fun e he => ihsecond e he hscope
    obtain ⟨k, hstop⟩ := hoption _ fun e he => ihstop e he hscope
    exact hstep _ (max n (max m k)) fun fuel hfuel => by
      simp [Expr.inline, hstart fuel (by omega), hsecond fuel (by omega), hstop fuel (by omega)]
  | @interpolated _ fragments _ _ ih =>
    have hmem : ∀ e, e ∈ embeddedExprs fragments ↔ .embedded e ∈ fragments := by
      intro e
      simp only [embeddedExprs, List.mem_filterMap]
      constructor
      · rintro ⟨fragment, hfragment, he⟩
        cases fragment <;> cases he
        exact hfragment
      · exact fun he => ⟨_, he, rfl⟩
    obtain ⟨n, h⟩ := exists_staysAt_all fun e he => ih e ((hmem e).mp he) hscope
    refine hstep _ n fun fuel hfuel => ?_
    rw [Expr.inline]
    rw [mapM_eq_some_self]
    · rfl
    · intro fragment hfragment
      cases fragment with
      | text t => rfl
      | embedded e => simp [h e ((hmem e).mpr hfragment) fuel hfuel]

/-- An expression from a text is shown as its source text. -/
theorem display_source {scope : Scope} {e : Expr} (h : Readable scope e) (hscope : scope.Faithful) :
    ∃ n, ∀ fuel, n ≤ fuel → e.display? fuel = some e.source := by
  obtain ⟨n, hstays⟩ := exists_staysAt h hscope
  refine ⟨n, fun fuel hfuel => ?_⟩
  rw [Expr.display?, hstays fuel hfuel, Option.map_some]

/-! ## 11. The round trip -/

/-- A text that is read as an expression is parsed as it, unless it is nested too deeply. -/
theorem parse_written {text : String} {e : Expr} {p : Nat} {ts : List Token}
    (h : Written .standard text e p ts) :
    parse text = .ok e ∨ ∃ error, parse text = .error error ∧ error.IsNestingLimit := by
  have hlexes := h.spells [] [] (.inl rfl) .nil
  obtain ⟨n, hreads⟩ := h.expression [] (by simp [Token.Closes])
  simp only [List.append_nil] at hlexes hreads
  obtain hok | ⟨error, herror, hlimit, -⟩ := parseIn_of_reads hlexes hreads
  · exact .inl hok
  · exact .inr ⟨error, herror, hlimit⟩

/-- **What was read and shown is read again as the same expression**, unless it is then nested too
deeply. -/
theorem parse_display {source : String} {e : Expr} (h : parse source = .ok e) :
    ∃ text, (∃ n, ∀ fuel, n ≤ fuel → e.display? fuel = some text) ∧
      (parse text = .ok e ∨ ∃ error, parse text = .error error ∧ error.IsNestingLimit) := by
  have hreadable := readable_of_parseIn h
  obtain ⟨ts, hwritten⟩ := written_source hreadable Scope.faithful_standard
  exact ⟨e.source, display_source hreadable Scope.faithful_standard, parse_written hwritten⟩

theorem parse_display_not_true :
    parse "!true" = .ok (.unary .not (.bool true)) ∧
      ∃ text, (∃ n, ∀ fuel, n ≤ fuel → (Expr.unary .not (.bool true)).display? fuel = some text) ∧
        (parse text = .ok (.unary .not (.bool true)) ∨
          ∃ error, parse text = .error error ∧ error.IsNestingLimit) := by
  have hlexes : Lexes "!true".toList [.bang, .bool true] := .token rfl (.token rfl .nil)
  have hvalue : Reads 0 1 .standard .value [.bang, .bool true] [.unary .not (.bool true)] [] :=
    (Reads.unary (.literal rfl) : Reads 0 1 _ _ [UnaryOp.token .not, _] _ _)
  have hreads : Reads 0 2 .standard (.expression Precedence.lowest) [.bang, .bool true]
      [.unary .not (.bool true)] [] := .expression hvalue (.stop trivial)
  have hparse : parse "!true" = .ok (.unary .not (.bool true)) :=
    parseIn_eq_ok hlexes hreads (by decide) (by decide)
  exact ⟨hparse, parse_display hparse⟩

end LazyExpr
