import LazyExpr.Proofs.Expr.RoundTrip
import LazyExpr.Proofs.Token.Lines

/-!
# Ways to write a call

A function can be given its arguments one after another, each in parentheses, or all of them in one
pair of parentheses, with commas between them.  Both stand for the same chain of calls.  One form is
missing: behind an opening parenthesis a minus sign is read as a negation in parentheses, which is
one expression and never the first of several.

* `Reads.append` — tokens that close an expression can be put behind it, and nothing about its
  reading changes.
* `Reads.value_unique`, `Reads.extension_unique` — within the limit, tokens are read in one way.
* `call_forms` — **both ways to write a call are read as the same expression**, whatever texts the
  function and its arguments are, unless the first argument in a group begins with a minus sign;
  then the group is never read.
* `negative_first_argument` — a call that cannot be written as a group.
* `parens_transparent` — **a text in parentheses is read as the text**, also where it begins with a
  minus sign, and behind the application sign it is read as an argument.
-/

namespace LazyExpr

/-! ## 1. Closing tokens behind a phrase -/

/-- A closing token ends an expression of any strength. -/
theorem Token.Closes.stopsAt {next : Option Token} (h : Closes next) (least : Nat) :
    StopsAt least next := by
  match next with
  | none => trivial
  | some t =>
    have ht := h t rfl
    simp only [List.mem_cons, List.not_mem_nil, or_false] at ht
    rcases ht with rfl | rfl | rfl | rfl | rfl | rfl <;> rfl

theorem Token.closes_cons {t : Token} (rest : List Token)
    (ht : t ∈ [rightParen, rightBracket, comma, dots, thenWord, elseWord]) :
    Closes (t :: rest).head? := by
  rintro _ ⟨⟩
  exact ht

section Reads

variable {limit n : Nat} {scope : Scope} {phrase : Phrase} {ts us rest : List Token}
  {items : List Expr} {e : Expr}

/-- A phrase that takes a token begins with the same one when more tokens follow. -/
theorem Reads.head_append (h : Reads limit n scope phrase ts items rest)
    (hphrase : phrase.leastWeight = 1) (us : List Token) : (ts ++ us).head? = ts.head? := by
  cases ts with
  | nil =>
    have := h.weight_le
    simp only [hphrase, weight_nil] at this
    omega
  | cons t ts => rfl

/-- **Closing tokens can be put behind a phrase**, and it is read in the same way. -/
theorem Reads.append (h : Reads limit n scope phrase ts items rest) (hus : Token.Closes us.head?) :
    Reads limit n scope phrase (ts ++ us) items (rest ++ us) := by
  induction h with
  | expression _ _ ih₁ ih₂ => exact .expression ih₁ ih₂
  | @stop _ _ least _ ts hstop =>
    refine .stop ?_
    cases ts with
    | nil => exact hus.stopsAt least
    | cons t ts => exact hstop
  | binary hleast hparen hright _ ih₁ ih₂ =>
    exact .binary hleast (fun h => (hright.head_append rfl us).symm ▸ hparen h) ih₁ ih₂
  | leftSection => exact .leftSection
  | dollar _ _ ih₁ ih₂ => exact .dollar ih₁ ih₂
  | juxtapose hop hvalue _ ih₁ ih₂ =>
    exact .juxtapose (fun op => (hvalue.head_append rfl us).symm ▸ hop op) ih₁ ih₂
  | literal ht => exact .literal ht
  | name hlookup => exact .name hlookup
  | template _ ih => exact .template ih
  | unary _ ih => exact .unary ih
  | parens _ ih => exact .parens ih
  | emptyList => exact .emptyList
  | list hopen helements ih => exact .list ((helements.head_append rfl us).symm ▸ hopen) ih
  | lambda hnames _ ih =>
    rw [List.cons_append, List.append_assoc, List.cons_append]
    exact .lambda hnames ih
  | conditional _ _ _ ih₁ ih₂ ih₃ => exact .conditional ih₁ ih₂ ih₃
  | negation _ _ ih₁ ih₂ => exact .negation ih₁ ih₂
  | rightSection hop _ ih => exact .rightSection hop ih
  | enclosed hop hinner ih =>
    exact .enclosed (fun op => (hinner.head_append rfl us).symm ▸ hop op) ih
  | grouped hop hfirst _ ih₁ ih₂ =>
    exact .grouped (fun op => (hfirst.head_append rfl us).symm ▸ hop op) ih₁ ih₂
  | groupMore _ _ ih₁ ih₂ => exact .groupMore ih₁ ih₂
  | groupEnd => exact .groupEnd
  | elementsMore _ _ ih₁ ih₂ => exact .elementsMore ih₁ ih₂
  | elementsEnd _ ih => exact .elementsEnd ih
  | rangeOpen _ hrange ih => exact .rangeOpen ih hrange
  | rangeClosed _ _ hrange ih₁ ih₂ => exact .rangeClosed ih₁ ih₂ hrange
  | noPiece => exact .noPiece
  | textPiece _ ih => exact .textPiece ih
  | namePiece hlookup _ ih => exact .namePiece hlookup ih
  | sourcePiece hlexes hsource _ _ ih => exact .sourcePiece hlexes hsource ih

/-- An expression begins with a token that announces a value. -/
theorem Reads.expression_starts {least : Nat}
    (h : Reads limit n scope (.expression least) ts items rest) :
    ts.head?.any Token.startsValue = true := by
  cases h with
  | expression hfirst _ => exact hfirst.startsValue

/-- The one operator that an expression can begin with is the minus sign. -/
theorem Reads.operator_starts {least : Nat} {op : BinaryOp}
    (h : Reads limit n scope (.expression least) ts items rest)
    (hop : ts.head? = some (.operator op)) : op = .sub := by
  have hstarts := h.expression_starts
  rw [hop] at hstarts
  exact eq_of_beq hstarts

/-- A value that begins with a minus sign is a negation. -/
theorem Reads.negation_of_value (h : Reads limit n scope .value (.operator .sub :: ts) items rest) :
    ∃ m operand, n = m + 1 ∧ items = [.unary .negate operand] ∧
      Reads limit m scope .value ts [operand] rest := by
  generalize hall : Token.operator .sub :: ts = all at h
  cases h with
  | literal ht =>
    cases hall
    cases ht
  | @unary m _ op _ operand _ hoperand =>
    cases op with
    | negate =>
      cases hall
      exact ⟨m, operand, rfl, rfl, hoperand⟩
    | not => cases hall
  | _ => cases hall

/-- A value that begins with a parenthesis is what stands behind it. -/
theorem Reads.parens_of_value (h : Reads limit n scope .value (.leftParen :: ts) items rest) :
    Reads limit n scope .parens ts items rest := by
  generalize hall : Token.leftParen :: ts = all at h
  cases h with
  | literal ht =>
    cases hall
    cases ht
  | @unary _ _ op => cases op <;> cases hall
  | parens hinner =>
    cases hall
    exact hinner
  | _ => cases hall

/-- A whole text in parentheses is a value. -/
theorem Reads.inParens (h : Reads limit n scope (.expression Precedence.lowest) ts [e] [])
    (rest : List Token) :
    Reads limit n scope .value (.leftParen :: (ts ++ .rightParen :: rest)) [e] rest := by
  have happend := h.append (Token.closes_cons (t := .rightParen) rest (by decide))
  refine .parens ?_
  by_cases hminus : ts.head? = some (.operator .sub)
  · obtain ⟨ts, rfl⟩ := List.head?_eq_some_iff.mp hminus
    cases happend with
    | expression hfirst hrest =>
      obtain ⟨m, operand, rfl, hsingle, hoperand⟩ := hfirst.negation_of_value
      cases hsingle
      exact (Reads.negation hoperand hrest).mono le_rfl (Nat.le_succ _)
  · refine .enclosed (fun op hop => hminus ?_) happend
    rw [h.head_append rfl] at hop
    rw [hop, h.operator_starts hop]

end Reads

/-! ## 2. Tokens are read in one way -/

theorem TokenStream.Ahead.unique {s : TokenStream} {ts us : List Token} (h : s.Ahead ts)
    (h' : s.Ahead us) : ts = us := by
  unfold Ahead at h h'
  cases hpending : s.pending with
  | none =>
    rw [hpending] at h h'
    exact h.unique h'
  | some spanned =>
    rw [hpending] at h h'
    obtain ⟨rest, rfl, hrest⟩ := h
    obtain ⟨rest', rfl, hrest'⟩ := h'
    rw [hrest.unique hrest']

/-- The tokens behind some tokens of a text are those of a text. -/
theorem Lexes.of_suffix {cs : List Char} {ts us : List Token} (h : Lexes cs ts) (hus : us <:+ ts) :
    ∃ ds, Lexes ds us := by
  induction h with
  | nil => exact ⟨[], List.suffix_nil.mp hus ▸ .nil⟩
  | pass _ _ _ ih => exact ih hus
  | token hscan hrest ih =>
    rcases List.suffix_cons_iff.mp hus with rfl | hus
    · exact ⟨_, .token hscan hrest⟩
    · exact ih hus

section Unique

open Reader

variable {scope : Scope} {cs : List Char} {ts rest rest' : List Token} {items items' : List Expr}

/-- A step that is described twice, within the limit, does the one thing that both say. -/
theorem Takes.unique {α : Type} {p : Parse α} {s : TokenStream} {P P' : α → Prop}
    (h : Takes maxNesting maxNesting p s P rest) (h' : Takes maxNesting maxNesting p s P' rest')
    (hs : s.nesting = 0) : (∃ a, P a ∧ P' a) ∧ rest = rest' := by
  unfold Takes at h h'
  split at h
  · next a s' hrun =>
    rw [hrun] at h'
    exact ⟨⟨a, h.2.1, h'.2.1⟩, h.2.2.unique h'.2.2⟩
  · exact absurd ⟨le_rfl, by omega⟩ h.2.1

/-- **Within the limit a value is read in one way.** -/
theorem Reads.value_unique (hlexes : Lexes cs ts)
    (h : Reads maxNesting maxNesting scope .value ts items rest)
    (h' : Reads maxNesting maxNesting scope .value ts items' rest') : items = items' ∧
    rest = rest' := by
  have hahead : (TokenStream.ofSource (String.ofList cs)).Ahead ts := by
    simpa [TokenStream.ahead_ofSource] using hlexes
  obtain ⟨⟨_, ⟨parsed, rfl, hitems⟩, ⟨_, ⟨⟩, hitems'⟩⟩, hrest⟩ :=
    Takes.unique (takes_of_reads h _ le_rfl _ hahead) (takes_of_reads h' _ le_rfl _ hahead) rfl
  exact ⟨(arguments_of_standsFor hitems).symm.trans (arguments_of_standsFor hitems'), hrest⟩

/-- **Within the limit an expression is extended in one way.** -/
theorem Reads.extension_unique {least : Nat} {left e e' : Expr} (hlexes : Lexes cs ts)
    (h : Reads maxNesting maxNesting scope (.extension least left) ts [e] rest)
    (h' : Reads maxNesting maxNesting scope (.extension least left) ts [e'] rest') :
    e = e' ∧ rest = rest' := by
  have hahead : (TokenStream.ofSource (String.ofList cs)).Ahead ts := by
    simpa [TokenStream.ahead_ofSource] using hlexes
  obtain ⟨⟨_, rfl, rfl⟩, hrest⟩ := Takes.unique (takes_of_reads h _ rfl _ le_rfl _ hahead)
    (takes_of_reads h' _ rfl _ le_rfl _ hahead) rfl
  exact ⟨rfl, hrest⟩

end Unique

/-! ## 3. The two forms -/

/-- The arguments in parentheses of their own. -/
def curriedArguments (arguments : List String) : String :=
  String.join (arguments.map fun a => " (" ++ a ++ "\n)")

/-- A function in parentheses, with its arguments one after another, each in parentheses. -/
def curriedCall (function : String) (arguments : List String) : String :=
  "(" ++ function ++ "\n)" ++ curriedArguments arguments

/-- A function in parentheses, with its arguments in one pair of parentheses. -/
def groupedCall (function : String) (arguments : List String) : String :=
  "(" ++ function ++ "\n)(" ++ "\n, ".intercalate arguments ++ "\n)"

/-- The first token of the text is a minus sign. -/
def StartsWithMinus (text : String) : Prop := ∃ ts, Lexes text.toList (.operator .sub :: ts)

/-- The text is read as the expression, unless that is nested too deeply. -/
def ReadsAs (scope : Scope) (text : String) (e : Expr) : Prop :=
  parseIn scope text = .ok e ∨ ∃ error, parseIn scope text = .error error ∧ error.IsNestingLimit

section Forms

variable {scope : Scope} {function first text : String} {arguments more : List String}
  {f e : Expr} {es : List Expr} {ts us rest : List Token}

/-- A text in parentheses has its tokens in parentheses. -/
theorem lexes_inParens {cs ds : List Char} (h : Lexes cs ts) (hrest : Lexes ds us) :
    Lexes ('(' :: (cs ++ '\n' :: ')' :: ds)) (.leftParen :: (ts ++ .rightParen :: us)) :=
  lexes_bracket (by decide) (h.newline (lexes_bracket (by decide) hrest))

theorem readsAs_of_reads {limit n : Nat} (hlexes : Lexes text.toList ts)
    (h : Reads limit n scope (.expression Precedence.lowest) ts [e] []) : ReadsAs scope text e := by
  rcases parseIn_of_reads hlexes h with hok | ⟨error, herror, hlimit, -⟩
  · exact .inl hok
  · exact .inr ⟨error, herror, hlimit⟩

/-- Arguments in parentheses of their own are taken one after another. -/
theorem reads_curriedArguments
    (h : List.Forall₂ (fun a e => parseIn scope a = .ok e) arguments es) :
    ∃ us, Lexes (curriedArguments arguments).toList us ∧
      ∀ f, CanRead scope (.extension Precedence.lowest f) us [f.callAll es] [] := by
  induction h with
  | nil => exact ⟨[], .nil, fun f => .stop trivial⟩
  | @cons a e arguments es ha _ ih =>
    obtain ⟨ts, hts, hreads⟩ := reads_of_parseIn ha
    obtain ⟨us, hus, hrest⟩ := ih
    refine ⟨.leftParen :: (ts ++ .rightParen :: us), ?_, fun f => ?_⟩
    · have hlexes := lexes_space (lexes_inParens hts hus)
      simpa [curriedArguments] using hlexes
    · exact .juxtapose nofun ⟨_, hreads.inParens us⟩ (hrest (.call f e))

/-- The arguments of a group behind its first one. -/
def groupedArguments (arguments : List String) : String :=
  String.join (arguments.map ("\n, " ++ ·)) ++ "\n)"

theorem groupedCall_cons (function first : String) (more : List String) :
    groupedCall function (first :: more) =
      "(" ++ function ++ "\n)(" ++ first ++ groupedArguments more := by
  have hjoin : ∀ (first : String) (more : List String), "\n, ".intercalate (first :: more) =
      first ++ String.join (more.map ("\n, " ++ ·)) := by
    intro first more
    induction more generalizing first with
    | nil => simp
    | cons next more ih => rw [String.intercalate_cons_cons, ih]; simp [String.append_assoc]
  simp only [groupedCall, groupedArguments, hjoin, String.append_assoc]

/-- From a comma on, arguments are added to those of the group. -/
theorem reads_groupedArguments
    (h : List.Forall₂ (fun a e => parseIn scope a = .ok e) arguments es) :
    ∃ ds us, (groupedArguments arguments).toList = '\n' :: ds ∧ Lexes ds us ∧
      us.head? = some (if arguments = [] then .rightParen else .comma) ∧
      ∀ before, CanRead scope (.group before) us (before.reverse ++ es) [] := by
  induction h with
  | nil =>
    refine ⟨[')'], [.rightParen], rfl, lexes_bracket (by decide) .nil, rfl, fun before => ⟨0, ?_⟩⟩
    rw [List.append_nil]
    exact .groupEnd
  | @cons a e arguments es ha _ ih =>
    obtain ⟨ts, hts, hreads⟩ := reads_of_parseIn ha
    obtain ⟨ds, us, hds, hus, hhead, hrest⟩ := ih
    refine ⟨',' :: ' ' :: (a.toList ++ '\n' :: ds), .comma :: (ts ++ us), ?_,
      lexes_bracket (by decide) (lexes_space (hts.newline hus)), rfl, fun before => ?_⟩
    · rw [← hds]
      simp [groupedArguments]
    · have hcloses : Token.Closes us.head? := by
        rw [hhead]
        split <;> simp [Token.Closes]
      obtain ⟨n, hitem, hgroup⟩ :=
        CanRead.both ⟨_, hreads.append hcloses⟩ (hrest (e :: before))
      rw [List.reverse_cons, List.append_assoc, List.singleton_append] at hgroup
      exact ⟨n, .groupMore hitem hgroup⟩

/-- The tokens of a grouped call, with those of its first argument and what is behind it. -/
theorem lexes_groupedCall {ds : List Char} {fs : List Token} (hf : Lexes function.toList fs)
    (hfirst : Lexes first.toList ts) (hmore : (groupedArguments more).toList = '\n' :: ds)
    (hds : Lexes ds us) :
    Lexes (groupedCall function (first :: more)).toList
      (.leftParen :: (fs ++ .rightParen :: .leftParen :: (ts ++ us))) := by
  have hlexes := lexes_inParens hf (lexes_bracket (c := '(') (t := .leftParen) (by decide)
    (hfirst.newline hds))
  rw [← hmore] at hlexes
  rw [groupedCall_cons]
  simpa using hlexes

/-- Behind a parenthesis, a minus sign is a negation and its extension up to the closing one. -/
theorem Reads.negation_of_parens {limit n : Nat} {items : List Expr}
    (h : Reads limit n scope .parens (.operator .sub :: ts) items rest) :
    ∃ operand mid x, Reads limit n scope .value ts [operand] mid ∧
      Reads limit n scope (.extension Precedence.lowest (.unary .negate operand)) mid [x]
        (.rightParen :: rest) := by
  cases h with
  | negation hoperand hrest =>
    exact ⟨_, _, _, hoperand.mono le_rfl (Nat.le_succ _), hrest⟩
  | rightSection hop => exact absurd rfl hop
  | enclosed hop => exact absurd rfl (hop .sub)
  | grouped hop => exact absurd rfl (hop .sub)

/-- What a group would begin with is no negation in parentheses: something else closes it. -/
theorem not_reads_negation {cs : List Char} {items : List Expr}
    (hlexes : Lexes cs (.operator .sub :: ts ++ us))
    (he : Reads maxNesting maxNesting scope (.expression Precedence.lowest)
      (.operator .sub :: ts) [e] [])
    (hus : us.head? = some .comma) :
    ¬Reads maxNesting maxNesting scope .parens (.operator .sub :: ts ++ us) items rest := by
  intro h
  obtain ⟨operand, mid, x, hoperand, hrest⟩ := Reads.negation_of_parens h
  -- the same tokens, read as the expression that ends in front of the comma
  have hcloses : Token.Closes us.head? := by simp [hus, Token.Closes]
  have happend := he.append hcloses
  cases happend with
  | expression hfirst hextension =>
    obtain ⟨m, operand', hm, hsingle, hoperand'⟩ := hfirst.negation_of_value
    cases hsingle
    obtain ⟨ds, hds⟩ := hlexes.of_suffix (List.suffix_cons _ (ts ++ us))
    have hlevel : m ≤ maxNesting := by
      unfold maxNesting
      omega
    obtain ⟨hsame, rfl⟩ := Reads.value_unique hds hoperand (hoperand'.mono le_rfl hlevel)
    cases hsame
    obtain ⟨ds', hds'⟩ := hds.of_suffix hoperand'.suffix
    obtain ⟨-, rfl⟩ := Reads.extension_unique hds' hrest (hextension.mono le_rfl (by decide))
    cases hus

/-- A group whose first expression begins with a minus sign is not read. -/
theorem not_reads_group {fs : List Token} {x : Expr}
    (hlexes : Lexes text.toList
      (.leftParen :: (fs ++ .rightParen :: .leftParen :: (.operator .sub :: ts ++ us))))
    (hf : Reads maxNesting maxNesting scope (.expression Precedence.lowest) fs [f] [])
    (he : Reads maxNesting maxNesting scope (.expression Precedence.lowest)
      (.operator .sub :: ts) [e] [])
    (hus : us.head? = some .comma) : parseIn scope text ≠ .ok x := by
  intro hparse
  obtain ⟨all, hall, hreads⟩ := reads_of_parseIn hparse
  cases hall.unique hlexes
  cases hreads with
  | expression hvalue hextension =>
    -- the function in parentheses is what it is by itself
    obtain ⟨hsame, rfl⟩ := Reads.value_unique hlexes (hvalue.mono le_rfl (Nat.le_succ _))
      (hf.inParens _)
    cases hsame
    obtain ⟨ds, hds⟩ := hlexes.of_suffix hvalue.suffix
    obtain ⟨ds, hds⟩ := hds.of_suffix (List.suffix_cons _ _)
    cases hextension with
    | juxtapose _ hgroup _ =>
      exact not_reads_negation hds he hus (hgroup.parens_of_value.mono le_rfl (Nat.le_succ _))

/-- A group is read where its first expression does not begin with a minus sign. -/
theorem reads_group {fs : List Token} {n : Nat}
    (hf : Reads n n scope (.expression Precedence.lowest) fs [f] [])
    (he : Reads n n scope (.expression Precedence.lowest) ts [e] [])
    (hminus : ts.head? ≠ some (.operator .sub)) (hus : us.head? = some .comma)
    (hgroup : Reads n n scope (.group [e]) us (e :: es) []) :
    Reads n (n + 1) scope (.expression Precedence.lowest)
      (.leftParen :: (fs ++ .rightParen :: .leftParen :: (ts ++ us))) [f.callAll (e :: es)] [] := by
  obtain ⟨us, rfl⟩ := List.head?_eq_some_iff.mp hus
  have hfirst := he.append (Token.closes_cons (t := .comma) us (by decide))
  have hoperator : ∀ op, (ts ++ Token.comma :: us).head? ≠ some (.operator op) := by
    intro op hop
    rw [he.head_append rfl] at hop
    rw [he.operator_starts hop] at hop
    exact hminus hop
  have hvalue : Reads n n scope .value (.leftParen :: (ts ++ .comma :: us)) (e :: es) [] :=
    .parens (.grouped hoperator hfirst hgroup)
  exact .expression (hf.inParens _) (.juxtapose nofun hvalue (.stop trivial))

end Forms

/-- **Both ways to write a call are read as the same expression**, whatever texts the function and
its arguments are, up to the bound on nesting.  The exception is a group whose first argument begins
with a minus sign: that is not read at all. -/
theorem call_forms {scope : Scope} {function : String} {arguments : List String} {f : Expr}
    {es : List Expr} (hf : parseIn scope function = .ok f)
    (harguments : List.Forall₂ (fun a e => parseIn scope a = .ok e) arguments es)
    (hlength : 2 ≤ arguments.length) :
    ReadsAs scope (curriedCall function arguments) (f.callAll es) ∧
      ((∀ a ∈ arguments.head?, ¬StartsWithMinus a) →
        ReadsAs scope (groupedCall function arguments) (f.callAll es)) ∧
      ((∃ a ∈ arguments.head?, StartsWithMinus a) →
        ∀ e, parseIn scope (groupedCall function arguments) ≠ .ok e) := by
  obtain ⟨fs, hfs, hfreads⟩ := reads_of_parseIn hf
  refine ⟨?_, ?_⟩
  · obtain ⟨us, hus, hrest⟩ := reads_curriedArguments harguments
    obtain ⟨n, hreads⟩ := CanRead.expression ⟨f, us, ⟨_, hfreads.inParens us⟩, hrest f⟩
    have hlexes := lexes_inParens hfs hus
    exact readsAs_of_reads (by simpa [curriedCall] using hlexes) hreads
  · cases harguments with
    | nil => cases hlength
    | @cons first e more es hfirst hmore =>
      obtain ⟨ts, hts, hreads⟩ := reads_of_parseIn hfirst
      obtain ⟨ds, us, hds, hus, hhead, hrest⟩ := reads_groupedArguments hmore
      have hlexes := lexes_groupedCall hfs hts hds hus
      have hcomma : us.head? = some .comma := by
        rw [hhead, if_neg]
        rintro rfl
        simp at hlength
      constructor
      · intro hminus
        obtain ⟨n, hgroup⟩ := hrest [e]
        have hfreads' := hfreads.mono (Nat.le_max_left _ n) (Nat.le_max_left _ n)
        have hreads' := hreads.mono (Nat.le_max_left _ n) (Nat.le_max_left _ n)
        have hgroup' := hgroup.mono (Nat.le_max_right maxNesting n) (Nat.le_max_right maxNesting n)
        refine readsAs_of_reads hlexes
          (reads_group hfreads' hreads' (fun hhead => ?_) hcomma hgroup')
        obtain ⟨ts, rfl⟩ := List.head?_eq_some_iff.mp hhead
        exact hminus first rfl ⟨ts, hts⟩
      · rintro ⟨a, ha, ts', hts'⟩ x
        cases ha
        cases hts.unique hts'
        exact not_reads_group hlexes hfreads hreads hcomma

/-- A comment in an argument ends in front of the comma. -/
theorem call_forms_comment :
    parseIn .standard "take" = .ok (.function Builtin.take.toFunction) ∧
      parseIn .standard "2 -- of them" = .ok (.integer 2) ∧
      parseIn .standard "[null]" = .ok (.literal [.null]) ∧
      ReadsAs .standard (groupedCall "take" ["2 -- of them", "[null]"])
        ((Expr.function Builtin.take.toFunction).callAll [.integer 2, .literal [.null]]) := by
  have hf : parseIn .standard "take" = .ok (.function Builtin.take.toFunction) := by cbv
  have hcount : parseIn .standard "2 -- of them" = .ok (.integer 2) := by cbv
  have hlist : parseIn .standard "[null]" = .ok (.literal [.null]) := by cbv
  have hlexes : Lexes "2 -- of them".toList [.integer 2] :=
    lexes_token '2' [] rfl (.pass rfl (.inl rfl) (.pass rfl (.inl rfl) .nil))
  refine ⟨hf, hcount, hlist, ?_⟩
  refine (call_forms hf (.cons hcount (.cons hlist .nil)) (by decide)).2.1 ?_
  rintro a ⟨⟩ ⟨ts, hts⟩
  cases hlexes.unique hts

/-- `take (-1) [1, 2, 3]` is read as a call of two arguments, and `take(-1, [1, 2, 3])` is refused
at its comma. -/
theorem negative_first_argument :
    parse "take" = .ok (.function Builtin.take.toFunction) ∧
      parse "-1" = .ok (.unary .negate (.integer 1)) ∧
      parse "[1,2,3]" = .ok (.literal [.integer 1, .integer 2, .integer 3]) ∧
      parse (curriedCall "take" ["-1", "[1,2,3]"]) =
        .ok ((Expr.function Builtin.take.toFunction).callAll
        [.unary .negate (.integer 1), .literal [.integer 1, .integer 2, .integer 3]]) ∧
      parse (groupedCall "take" ["-1", "[1,2,3]"]) =
        .error (.expectedToken "')'" ⟨3, 1, ",", ", [1,2,3]"⟩) := by
  refine ⟨?_, ?_, ?_, ?_, ?_⟩ <;> cbv

/-! ## 4. Parentheses and the application sign -/

/-- The text is read as the expression, unless it is nested too deeply itself, and not only in an
expression that is embedded in it. -/
def ReadsOrTooDeep (scope : Scope) (text : String) (e : Expr) : Prop :=
  parseIn scope text = .ok e ∨ ∃ error, parseIn scope text = .error error ∧ error.IsTooDeep

theorem readsOrTooDeep_of_reads {scope : Scope} {text : String} {ts : List Token}
    {e : Expr} {n : Nat} (hlexes : Lexes text.toList ts)
    (h : Reads maxNesting n scope (.expression Precedence.lowest) ts [e] []) :
    ReadsOrTooDeep scope text e := by
  rcases parseIn_eq_ok_or_tooDeep hlexes h with hok | ⟨error, herror, hdeep, -⟩
  · exact .inl hok
  · exact .inr ⟨error, herror, hdeep⟩

/-- The application sign between two texts. -/
theorem lexes_dollar {cs : List Char} {ts : List Token} (h : Lexes cs ts) :
    Lexes (' ' :: '$' :: ' ' :: cs) (.dollar :: ts) :=
  lexes_space (lexes_token '$' [] rfl (lexes_space h))

/-- **Parentheses are transparent.** A text that is read as an expression is read as the same
expression in parentheses; and behind a function in parentheses and the application sign, the whole
is read as the call of the function with it. -/
theorem parens_transparent {scope : Scope} {source : String} {e : Expr}
    (h : parseIn scope source = .ok e) :
    ReadsOrTooDeep scope ("(" ++ source ++ "\n)") e ∧
      ∀ function f, parseIn scope function = .ok f →
        ReadsOrTooDeep scope ("(" ++ function ++ "\n) $ " ++ source) (.call f e) := by
  obtain ⟨ts, hts, hreads⟩ := reads_of_parseIn h
  constructor
  · have hlexes := lexes_inParens hts .nil
    have hwhole : Reads maxNesting (maxNesting + 1) scope (.expression Precedence.lowest)
        (.leftParen :: (ts ++ [.rightParen])) [e] [] :=
      .expression (hreads.inParens []) (.stop trivial)
    exact readsOrTooDeep_of_reads (by simpa using hlexes) hwhole
  · intro function f hf
    obtain ⟨fs, hfs, hfreads⟩ := reads_of_parseIn hf
    have hlexes := lexes_inParens hfs (lexes_dollar hts)
    have hwhole := Reads.expression (hfreads.inParens _) (.dollar hreads (.stop trivial))
    exact readsOrTooDeep_of_reads (by simpa using hlexes) hwhole

/-- A text that begins with a minus sign, which is read in another way behind a parenthesis, and
that ends with a comment. -/
theorem parens_transparent_negation :
    let source := "-1 + 2 -- one"
    let e : Expr := .binary .add (.unary .negate (.integer 1)) (.integer 2)
    let f : Expr := .function Builtin.sum.toFunction
    parseIn .standard source = .ok e ∧ parseIn .standard "sum" = .ok f ∧
      ReadsOrTooDeep .standard ("(" ++ source ++ "\n)") e ∧
      ReadsOrTooDeep .standard ("(" ++ "sum" ++ "\n) $ " ++ source) (.call f e) := by
  intro source e f
  have he : parseIn .standard source = .ok e := by cbv
  have hf : parseIn .standard "sum" = .ok f := by cbv
  exact ⟨he, hf, (parens_transparent he).1, (parens_transparent he).2 "sum" f hf⟩

end LazyExpr
