import LazyExpr.Proofs.Expr.Holes
import LazyExpr.Proofs.Expr.Soundness
import LazyExpr.Proofs.Token.Lexical

/-!
# Expressions that come from a text

Not every expression can be written in the language: values such as closures and evaluated lists
cannot, nor can a negative number, a lambda of the wrong depth or a section of the minus sign that
waits for its left operand.

* `Readable scope e`: `e` is built as a text in the scope builds it.
* `readable_of_reads`: what the grammar reads is built so, and `readable_of_parseIn` that what is
  read from a text is.
* `Scope.Faithful`: every name of the scope stands for something that is written as that name.
-/

namespace LazyExpr

/-! ## 1. The expressions of a text -/

/-- `Readable scope e`: the expression is built from names of the scope and literals in the ways
that a text has. -/
inductive Readable : Scope → Expr → Prop where
  | integer {scope : Scope} {n : Int64} (hn : 0 ≤ n.toInt) : Readable scope (.integer n)
  | decimal {scope : Scope} {d : Decimal} (hd : d.IsLiteral) : Readable scope (.decimal d)
  | bool {scope : Scope} (b : Bool) : Readable scope (.bool b)
  | null {scope : Scope} : Readable scope .null
  | str {scope : Scope} (text : String) : Readable scope (.str text)
  | name {scope : Scope} {name : String} {e : Expr} (hlookup : scope.lookup name = some e) :
      Readable scope e
  | unary {scope : Scope} (op : UnaryOp) {operand : Expr} (h : Readable scope operand) :
      Readable scope (.unary op operand)
  | binary {scope : Scope} (op : BinaryOp) {left right : Expr} (hleft : Readable scope left)
      (hright : Readable scope right) : Readable scope (.binary op left right)
  | leftSection {scope : Scope} (op : BinaryOp) {left : Expr} (h : Readable scope left) :
      Readable scope (.leftSection op left)
  /-- Behind a parenthesis, a minus sign is a prefix operator. -/
  | rightSection {scope : Scope} {op : BinaryOp} (hop : op ≠ .sub) {right : Expr}
      (h : Readable scope right) : Readable scope (.rightSection op right)
  | call {scope : Scope} {function argument : Expr} (hfunction : Readable scope function)
      (hargument : Readable scope argument) : Readable scope (.call function argument)
  | lambda {scope : Scope} {names : List String} {body : Expr} (hne : names ≠ [])
      (hnames : ∀ name ∈ names, Lexeme.IsName name) (hbody : Readable (scope.inside names) body) :
      Readable scope (.lambda (scope.depth + 1) names body)
  | conditional {scope : Scope} {condition yes no : Expr} (hcondition : Readable scope condition)
      (hyes : Readable scope yes) (hno : Readable scope no) :
      Readable scope (.conditional condition yes no)
  | literal {scope : Scope} {elements : List Expr} (h : ∀ e ∈ elements, Readable scope e) :
      Readable scope (.literal elements)
  | range {scope : Scope} {start : Expr} {second stop : Option Expr} (hstart : Readable scope start)
      (hsecond : ∀ e ∈ second, Readable scope e) (hstop : ∀ e ∈ stop, Readable scope e) :
      Readable scope (.range start second stop)
  | interpolated {scope : Scope} {fragments : List Fragment}
      (hembedded : ∀ e, .embedded e ∈ fragments → Readable scope e)
      (hsplit : SplitTexts (fragments.map Fragment.text?)) :
        Readable scope (.interpolated fragments)

theorem Readable.callAll {scope : Scope} {function : Expr} {arguments : List Expr}
    (hfunction : Readable scope function) (harguments : ∀ e ∈ arguments, Readable scope e) :
    Readable scope (function.callAll arguments) := by
  induction arguments generalizing function with
  | nil => exact hfunction
  | cons argument arguments ih =>
    refine ih (.call hfunction (harguments argument (by simp))) fun e he =>
      harguments e (by simp [he])

theorem readable_of_rangeOf? {scope : Scope} {items : List Expr} {stop : Option Expr} {e : Expr}
    (hitems : ∀ e ∈ items, Readable scope e) (hstop : ∀ e ∈ stop, Readable scope e)
    (h : Expr.rangeOf? stop items = some e) : Readable scope e := by
  match items with
  | [] => cases h
  | [start] =>
    cases h
    exact .range (hitems start (by simp)) (by simp) hstop
  | [start, second] =>
    cases h
    exact .range (hitems start (by simp)) (by simpa using hitems second (by simp)) hstop
  | _ :: _ :: _ :: _ => cases h

/-! ## 2. What is read is readable -/

/-- The tokens behind a phrase end the tokens it was read from. -/
theorem Reads.suffix {limit n scope phrase ts items rest}
    (h : Reads limit n scope phrase ts items rest) : rest <:+ ts := by
  -- every rule takes tokens off the front, by itself or through the phrases it consists of
  induction h with
  | stop | noPiece | textPiece | namePiece | sourcePiece => exact List.suffix_rfl
  | expression _ _ ih₁ ih₂ | juxtapose _ _ _ ih₁ ih₂ => exact ih₂.trans ih₁
  | binary _ _ _ _ ih₁ ih₂ => exact (ih₂.trans ih₁).trans (List.suffix_cons _ _)
  | dollar _ _ ih₁ ih₂ | groupMore _ _ ih₁ ih₂ =>
    exact (ih₂.trans ih₁).trans (List.suffix_cons _ _)
  | leftSection | literal | name | template | groupEnd => exact List.suffix_cons _ _
  | unary _ ih | parens _ ih | list _ _ ih => exact ih.trans (List.suffix_cons _ _)
  | emptyList => exact (List.suffix_cons _ _).trans (List.suffix_cons _ _)
  | lambda _ _ ih =>
    refine ih.trans ((List.suffix_cons .arrow _).trans ?_)
    exact (List.suffix_append _ _).trans (List.suffix_cons _ _)
  | conditional _ _ _ ih₁ ih₂ ih₃ =>
    have h₂ := (List.suffix_cons _ _).trans ih₂
    have h₁ := (List.suffix_cons _ _).trans ih₁
    exact ((ih₃.trans h₂).trans h₁).trans (List.suffix_cons _ _)
  | negation _ _ ih₁ ih₂ =>
    exact (((List.suffix_cons _ _).trans ih₂).trans ih₁).trans (List.suffix_cons _ _)
  | rightSection _ _ ih => exact ((List.suffix_cons _ _).trans ih).trans (List.suffix_cons _ _)
  | enclosed _ _ ih | elementsEnd _ ih => exact (List.suffix_cons _ _).trans ih
  | grouped _ _ _ ih₁ ih₂ => exact ih₂.trans ih₁
  | elementsMore _ _ ih₁ ih₂ => exact ih₂.trans ((List.suffix_cons _ _).trans ih₁)
  | rangeOpen _ _ ih =>
    exact (List.suffix_cons _ _).trans ((List.suffix_cons _ _).trans ih)
  | rangeClosed _ _ _ ih₁ ih₂ =>
    exact ((List.suffix_cons _ _).trans ih₂).trans ((List.suffix_cons _ _).trans ih₁)

/-- What was read before the phrase is readable. -/
def Phrase.Given (scope : Scope) : Phrase → Prop
  | extension _ left => Readable scope left
  | group before | elements before => ∀ e ∈ before, Readable scope e
  | _ => True

/-- What the phrase stands for is readable; the pieces of a string keep their texts. -/
def Phrase.Built (scope : Scope) (phrase : Phrase) (items : List Expr) : Prop :=
  match phrase with
  | .pieces parts => ∀ fragments, items = [.interpolated fragments] →
      fragments.map Fragment.text? = parts.map Piece.text? ∧
        ∀ e, .embedded e ∈ fragments → Readable scope e
  | _ => ∀ e ∈ items, Readable scope e

/-- A literal token stands for a literal. -/
theorem readable_of_literal? {scope : Scope} {t : Token} {e : Expr} (ht : t.Lexical)
    (h : t.literal? = some e) : Readable scope e := by
  cases t <;> cases h
  · exact .decimal ht
  · exact .integer ht
  · exact .bool _
  · exact .null
  · exact .str _

/-- **The grammar builds readable expressions** from the tokens of a text. -/
theorem built_of_reads {limit n scope phrase ts items rest}
    (h : Reads limit n scope phrase ts items rest) (hts : ∀ t ∈ ts, t.Lexical)
    (hgiven : phrase.Given scope) : phrase.Built scope items := by
  -- the tokens behind a part of the phrase are tokens of the text as well
  have hbehind : ∀ {n scope phrase ts items mid}, Reads limit n scope phrase ts items mid →
      (∀ t ∈ ts, t.Lexical) → ∀ t ∈ mid, t.Lexical :=
    fun hreads hts t ht => hts t (hreads.suffix.subset ht)
  have hsingle : ∀ {scope : Scope} {e : Expr}, Readable scope e →
    ∀ e' ∈ [e], Readable scope e' := by
    intro scope e he e' he'
    rwa [List.mem_singleton.mp he']
  have htail : ∀ {t : Token} {ts : List Token}, (∀ u ∈ t :: ts, u.Lexical) → ∀ u ∈ ts, u.Lexical :=
    fun hts u hu => hts u (List.mem_cons_of_mem _ hu)
  have hmore : ∀ {scope : Scope} {e : Expr} {es : List Expr}, Readable scope e →
      (∀ e ∈ es, Readable scope e) → ∀ e' ∈ e :: es, Readable scope e' := by
    intro scope e es he hes e' he'
    rcases List.mem_cons.mp he' with rfl | he'
    · exact he
    · exact hes e' he'
  induction h with
  | expression hfirst _ ih₁ ih₂ =>
    exact ih₂ (hbehind hfirst hts) (ih₁ hts trivial _ List.mem_cons_self)
  | stop => exact hsingle hgiven
  | binary _ _ hright _ ih₁ ih₂ =>
    have hr := ih₁ (htail hts) trivial _ List.mem_cons_self
    exact ih₂ (hbehind hright (htail hts)) (.binary _ hgiven hr)
  | leftSection => exact hsingle (.leftSection _ hgiven)
  | dollar hargument _ ih₁ ih₂ =>
    have ha := ih₁ (htail hts) trivial _ List.mem_cons_self
    exact ih₂ (hbehind hargument (htail hts)) (.call hgiven ha)
  | juxtapose _ hvalue _ ih₁ ih₂ =>
    exact ih₂ (hbehind hvalue hts) (hgiven.callAll (ih₁ hts trivial))
  | literal ht => exact hsingle (readable_of_literal? (hts _ List.mem_cons_self) ht)
  | name hlookup => exact hsingle (.name hlookup)
  | @template _ _ body _ _ _ ih =>
    obtain ⟨htexts, hembedded⟩ := ih (htail hts) trivial _ rfl
    exact hsingle (.interpolated hembedded (htexts ▸ splitTexts_pieces body))
  | unary _ ih => exact hsingle (.unary _ (ih (htail hts) trivial _ List.mem_cons_self))
  | parens _ ih => exact ih (htail hts) trivial
  | emptyList => exact hsingle (.literal (by simp))
  | list _ _ ih => exact ih (htail hts) (by simp [Phrase.Given])
  | @lambda _ _ names ts _ _ hne _ ih =>
    have hbody := ih (fun t ht => hts t (by simp [ht])) trivial _ List.mem_cons_self
    refine hsingle (.lambda hne (fun name hname => ?_) hbody)
    exact hts (.identifier name) (by simp [hname])
  | conditional hcondition hyes _ ih₁ ih₂ ih₃ =>
    have hts₁ := htail (hbehind hcondition (htail hts))
    have hts₂ := htail (hbehind hyes hts₁)
    exact hsingle (.conditional (ih₁ (htail hts) trivial _ List.mem_cons_self)
      (ih₂ hts₁ trivial _ List.mem_cons_self) (ih₃ hts₂ trivial _ List.mem_cons_self))
  | negation hoperand _ ih₁ ih₂ =>
    have ho := ih₁ (htail hts) trivial _ List.mem_cons_self
    exact ih₂ (hbehind hoperand (htail hts)) (.unary _ ho)
  | rightSection hop _ ih =>
    exact hsingle (.rightSection hop (ih (htail hts) trivial _ List.mem_cons_self))
  | enclosed _ _ ih => exact ih hts trivial
  | grouped _ hfirst _ ih₁ ih₂ => exact ih₂ (hbehind hfirst hts) (ih₁ hts trivial)
  | groupMore hitem _ ih₁ ih₂ =>
    have hi := ih₁ (htail hts) trivial _ List.mem_cons_self
    exact ih₂ (hbehind hitem (htail hts)) (hmore hi hgiven)
  | groupEnd => exact fun e he => hgiven e (List.mem_reverse.mp he)
  | elementsMore hitem _ ih₁ ih₂ =>
    have hi := ih₁ hts trivial _ List.mem_cons_self
    exact ih₂ (htail (hbehind hitem hts)) (hmore hi hgiven)
  | elementsEnd _ ih =>
    have hi := ih hts trivial _ List.mem_cons_self
    exact hsingle (.literal fun e he => hmore hi hgiven e (List.mem_reverse.mp he))
  | rangeOpen _ hrange ih =>
    have hi := ih hts trivial _ List.mem_cons_self
    exact hsingle (readable_of_rangeOf? (fun e he => hmore hi hgiven e (List.mem_reverse.mp he))
      (by simp) hrange)
  | rangeClosed hitem _ hrange ih₁ ih₂ =>
    have hi := ih₁ hts trivial _ List.mem_cons_self
    have hs := ih₂ (htail (hbehind hitem hts)) trivial _ List.mem_cons_self
    exact hsingle (readable_of_rangeOf? (fun e he => hmore hi hgiven e (List.mem_reverse.mp he))
      (by simpa using hs) hrange)
  | noPiece =>
    rintro _ ⟨⟩
    exact ⟨rfl, by simp⟩
  | textPiece _ ih =>
    rintro _ ⟨⟩
    obtain ⟨htexts, hembedded⟩ := ih hts trivial _ rfl
    refine ⟨by simp [htexts, Fragment.text?, Piece.text?], fun e he => hembedded e ?_⟩
    simpa using he
  | namePiece hlookup _ ih =>
    rintro _ ⟨⟩
    obtain ⟨htexts, hembedded⟩ := ih hts trivial _ rfl
    refine ⟨by simp [htexts, Fragment.text?, Piece.text?], fun e he => ?_⟩
    rcases List.mem_cons.mp he with he | he
    · cases he
      exact .name hlookup
    · exact hembedded e he
  | sourcePiece hlexes _ _ ih₁ ih₂ =>
    rintro _ ⟨⟩
    obtain ⟨htexts, hembedded⟩ := ih₂ hts trivial _ rfl
    refine ⟨by simp [htexts, Fragment.text?, Piece.text?], fun e he => ?_⟩
    rcases List.mem_cons.mp he with he | he
    · cases he
      exact ih₁ (lexical_of_lexes hlexes) trivial _ List.mem_cons_self
    · exact hembedded e he

/-- **What is read from a text is readable** in its scope. -/
theorem readable_of_parseIn {scope : Scope} {source : String} {e : Expr}
    (h : parseIn scope source = .ok e) : Readable scope e := by
  obtain ⟨ts, hlexes, hreads⟩ := reads_of_parseIn h
  exact built_of_reads hreads (lexical_of_lexes hlexes) trivial e List.mem_cons_self

/-! ## 3. Scopes whose names are written as they are -/

/-- A name of the scope is a word of the language and stands for a function or a parameter of that
name. -/
def Scope.Faithful (scope : Scope) : Prop :=
  ∀ name e, scope.lookup name = some e → Lexeme.IsName name ∧
    ((∃ f : Function, e = .function f ∧ f.name = name) ∨
      ∃ slot : Slot, e = .argument slot ∧ slot.name = name)

theorem mem_of_lookup {bindings : Bindings} {name : String} {e : Expr}
    (h : bindings.lookup name = some e) : (name, e) ∈ bindings := by
  obtain ⟨before, behind, rfl, -⟩ := List.lookup_eq_some_iff.mp h
  simp

/-- A name that the parameters bind is the name of one of them. -/
theorem Scope.lookup_parameterBindings {depth : Nat} {names : List String}
    {name : String} {e : Expr} (h : (parameterBindings depth names).lookup name = some e) :
    ∃ index, names[index]? = some name ∧ e = .argument ⟨depth, index, name⟩ := by
  have hmem := mem_of_lookup h
  simp only [parameterBindings, List.mem_reverse, List.mem_mapIdx] at hmem
  obtain ⟨index, hindex, hpair⟩ := hmem
  cases hpair
  exact ⟨index, List.getElem?_eq_getElem hindex, rfl⟩

theorem Scope.faithful_inside {scope : Scope} {names : List String} (h : scope.Faithful)
    (hnames : ∀ name ∈ names, Lexeme.IsName name) : (scope.inside names).Faithful := by
  intro name e hlookup
  simp only [inside, lookup] at hlookup
  rcases Option.or_eq_some_iff.mp hlookup with hlookup | ⟨-, hlookup⟩
  · obtain ⟨index, hname, rfl⟩ := lookup_parameterBindings hlookup
    exact ⟨hnames name (List.mem_of_getElem? hname), .inr ⟨_, rfl, rfl⟩⟩
  · exact h name e hlookup

theorem Builtin.isName (b : Builtin) : Lexeme.IsName b.name := by
  cases b <;> exact ⟨⟨_, _, rfl, by decide, by decide⟩, by decide⟩

/-- A name of the standard scope is the name of its built-in function. -/
theorem Scope.lookup_standard {name : String} {e : Expr} (h : standard.lookup name = some e) :
    ∃ b : Builtin, name = b.name ∧ e = .function b.toFunction := by
  have hstandard : standard =
      .global (Builtin.all.reverse.map fun b => (b.name, .function b.toFunction)) := rfl
  rw [hstandard, lookup] at h
  obtain ⟨b, -, hb⟩ := List.mem_map.mp (mem_of_lookup h)
  cases hb
  exact ⟨b, rfl, rfl⟩

theorem Scope.faithful_standard : Scope.standard.Faithful := by
  intro name e hlookup
  obtain ⟨b, rfl, rfl⟩ := lookup_standard hlookup
  exact ⟨b.isName, .inl ⟨_, rfl, rfl⟩⟩

end LazyExpr
