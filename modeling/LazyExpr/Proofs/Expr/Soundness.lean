import LazyExpr.Expr.Reader
import LazyExpr.Proofs.Expr.Grammar

/-!
# What is read follows the grammar

Whenever a reader succeeds, the tokens that were ahead of it begin with the phrase it reads.  The
argument runs backward through the reader: from the tokens that are left at the end to the tokens
that must have been there before.

* `Reader.Accepts p post`: whatever `p` returns, it stands in the relation `post` to the tokens in
  front of it and behind it, and the reader ends on the level where it started.  `Accepts.bind` puts
  two steps together, and each operation of a stream has its own rule.
* `Reader.accepts_readers`: **all six readers follow the grammar**, by induction on the fuel.
* `reads_of_parseIn`: a text that can be read is an expression of the grammar.
-/

namespace LazyExpr

namespace Reader

open TokenStream

/-! ## 1. Steps of reading, seen from their end -/

/-- Two steps succeed when both do. -/
theorem bind_eq_ok {α β : Type} {p : Parse α} {f : α → Parse β} {s s'' : TokenStream} {b : β} :
    (p >>= f) s = .ok b s'' ↔ ∃ a s', p s = .ok a s' ∧ f a s' = .ok b s'' := by
  simp only [Bind.bind, EStateM.bind]
  cases p s with
  | ok a s' =>
    refine ⟨fun h => ⟨a, s', rfl, h⟩, ?_⟩
    rintro ⟨_, _, ⟨⟩, h⟩
    exact h
  | error e s' => exact ⟨nofun, nofun⟩

/-- `Accepts p post`: when `p` succeeds, it returns on its own level, and the tokens ahead of it,
its result and the tokens it leaves are related by `post` at the number of levels it has. -/
def Accepts {α : Type} (p : Parse α) (post : Nat → List Token → α → List Token → Prop) : Prop :=
  ∀ s a s', p s = .ok a s' → s'.nesting = s.nesting ∧
    ∀ rest, s'.Ahead rest → ∃ ts, s.Ahead ts ∧ post (maxNesting - s.nesting) ts a rest

namespace Accepts

variable {α β : Type} {p : Parse α} {P P' : Nat → List Token → α → List Token → Prop}
  {Q : Nat → List Token → β → List Token → Prop}

theorem imp (hp : Accepts p P) (h : ∀ n ts a rest, P n ts a rest → P' n ts a rest) :
    Accepts p P' := by
  intro s a s' hrun
  obtain ⟨hn, hpost⟩ := hp s a s' hrun
  refine ⟨hn, fun rest hrest => ?_⟩
  obtain ⟨ts, hts, hP⟩ := hpost rest hrest
  exact ⟨ts, hts, h _ _ _ _ hP⟩

theorem pure (a : α) (h : ∀ n ts, P n ts a ts) : Accepts (Pure.pure a) P := by
  intro s a' s' hrun
  cases hrun
  exact ⟨rfl, fun rest hrest => ⟨rest, hrest, h _ _⟩⟩

theorem throw (e : ParseError) : Accepts (throw e : Parse α) P := by
  intro s a s' hrun
  cases hrun

/-- Two steps: the second is judged with what is known of the first. -/
theorem bind {f : α → Parse β} (hp : Accepts p P)
    (hf : ∀ a, Accepts (f a) fun n mid b rest => ∀ ts, P n ts a mid → Q n ts b rest) :
    Accepts (p >>= f) Q := by
  intro s b s'' hrun
  obtain ⟨a, s', hfirst, hrun⟩ := bind_eq_ok.mp hrun
  obtain ⟨hn, hback⟩ := hp s a s' hfirst
  obtain ⟨hn', hback'⟩ := hf a s' b s'' hrun
  refine ⟨hn'.trans hn, fun rest hrest => ?_⟩
  obtain ⟨mid, hmid, hQ⟩ := hback' rest hrest
  obtain ⟨ts, hts, hP⟩ := hback mid hmid
  rw [hn] at hQ
  exact ⟨ts, hts, hQ ts hP⟩

end Accepts

/-! ## 2. The operations of a stream -/

section Operations

variable {α : Type} {P : Nat → List Token → α → List Token → Prop}

theorem accepts_peek :
    Accepts peek fun _ ts o rest => ts = rest ∧ o.map Spanned.token = ts.head? := by
  intro s o s' hrun
  obtain ⟨-, hn, hback⟩ := ahead_of_peek hrun
  exact ⟨hn, fun rest hrest => ⟨rest, (hback rest hrest).1, rfl, (hback rest hrest).2⟩⟩

theorem accepts_peekToken :
    Accepts peekToken fun _ ts o rest => ts = rest ∧ o = ts.head? := by
  refine accepts_peek.bind fun o => .pure _ ?_
  rintro n ts _ ⟨rfl, ho⟩
  exact ⟨rfl, ho⟩

theorem accepts_advance : Accepts advance fun _ ts spanned rest => ts = spanned.token :: rest := by
  intro s spanned s' hrun
  obtain ⟨-, hn, hback⟩ := ahead_of_advance hrun
  exact ⟨hn, fun rest hrest => ⟨_, hback rest hrest, rfl⟩⟩

/-- Taking the token `t` that a look has shown. -/
theorem Accepts.taking {β : Type} {Q : Nat → List Token → β → List Token → Prop} (t : Token)
    {f : Spanned → Parse β}
    (hf : ∀ spanned, Accepts (f spanned) fun n mid b rest => Q n (t :: mid) b rest) :
    Accepts (advance >>= f) fun n mid b rest =>
    ∀ ts, ts = mid ∧ some t = ts.head? → Q n ts b rest := by
  refine accepts_advance.bind fun spanned => (hf spanned).imp ?_
  rintro n mid b rest hQ _ rfl _ ⟨rfl, hhead⟩
  cases hhead
  exact hQ

/-- The token that was expected is the token that was taken. -/
theorem accepts_expect {token : Token} {description : String}
    (htoken : ∀ d, token ≠ .decimal d) :
    Accepts (expect token description) fun _ ts _ rest => ts = token :: rest := by
  refine accepts_peek.bind fun o => ?_
  cases o with
  | none => exact .throw _
  | some spanned =>
    by_cases hagrees : spanned.token.agrees token = true
    · simp only [hagrees, if_true]
      refine accepts_advance.imp ?_
      rintro n mid spanned' rest rfl ts ⟨rfl, hhead⟩
      have : spanned.token = spanned'.token := by simpa using hhead
      rw [← this, (Token.agrees_iff htoken).mp hagrees]
    · simp only [hagrees]
      exact .throw _

theorem accepts_missing {description : String} : Accepts (missing description) P := by
  refine accepts_peek.bind fun o => ?_
  cases o <;> exact .throw _

theorem accepts_ofExcept (x : Except ParseError α) :
    Accepts (MonadExcept.ofExcept x) fun _ ts a rest => ts = rest ∧ x = .ok a := by
  cases x with
  | error e => exact .throw e
  | ok a => exact .pure a fun _ _ => ⟨rfl, rfl⟩

/-- One level further down there is one level less. -/
theorem accepts_deeper {body : Parse α} (hbody : Accepts body P) :
    Accepts (deeper body) fun n ts a rest => ∃ m, n = m + 1 ∧ P m ts a rest := by
  intro s a s'' hrun
  simp only [deeper] at hrun
  split at hrun
  · cases hrun
  · next s₁ hdescend =>
    obtain ⟨hlt, rfl⟩ := lt_of_descend hdescend
    split at hrun
    · next a' s₂ hrun' =>
      cases hrun
      obtain ⟨hn, hback⟩ := hbody _ _ _ hrun'
      refine ⟨by simp only [ascend, hn]; omega, fun rest hrest => ?_⟩
      obtain ⟨ts, hts, hP⟩ := hback rest hrest
      exact ⟨ts, hts, _, by simp only; omega, hP⟩
    · cases hrun

end Operations

/-! ## 3. The readers -/

/-- What a reader that may find nothing has found: something that is in the relation, or nothing,
and then no value starts here and no token was taken. -/
def Found {α : Type} (reading : α → List Token → Prop) (ts : List Token) :
    Option α → List Token → Prop
  | none, rest => ts = rest ∧ ts.head?.any Token.startsValue = false
  | some a, rest => reading a rest

/-- All readers follow the grammar when they have so much fuel. -/
structure SoundAt (fuel : Nat) : Prop where
  expression (scope : Scope) (least : Nat) :
    Accepts (expression fuel scope least) fun n ts => Found (fun e rest =>
      Reads maxNesting n scope (.expression least) ts [e] rest) ts
  extend (scope : Scope) (least : Nat) (left : Expr) :
    Accepts (extend fuel scope least left) fun n ts e rest =>
      Reads maxNesting n scope (.extension least left) ts [e] rest
  value (scope : Scope) :
    Accepts (value fuel scope) fun n ts => Found (fun parsed rest =>
      Reads maxNesting n scope .value ts parsed.arguments rest) ts
  inParens (scope : Scope) :
    Accepts (inParens fuel scope) fun n ts parsed rest =>
      Reads maxNesting n scope .parens ts parsed.arguments rest
  group (scope : Scope) (items : List Expr) :
    Accepts (group fuel scope items) fun n ts all rest =>
      Reads maxNesting n scope (.group items) ts all rest
  elements (scope : Scope) (items : List Expr) :
    Accepts (elements fuel scope items) fun n ts e rest =>
      Reads maxNesting n scope (.elements items) ts [e] rest
  fragments (scope : Scope) (location : Location) (pieces : List Piece) :
    Accepts (fragments fuel scope location pieces) fun n ts parts rest => ts = rest ∧
      Reads maxNesting n scope (.pieces pieces) ts [.interpolated parts] ts

theorem accepts_required {description : String} {reader : Parse (Option Expr)}
    {reading : Nat → List Token → Expr → List Token → Prop}
    (h : Accepts reader fun n ts => Found (reading n ts) ts) :
    Accepts (required description reader) reading := by
  refine h.bind fun o => ?_
  cases o with
  | none => exact accepts_missing
  | some e => exact .pure e fun n mid ts hfound => hfound

theorem accepts_resolve {scope : Scope} {name : String} {location : Location} :
    Accepts (Reading.resolve scope name location) fun _ ts e rest =>
      ts = rest ∧ scope.lookup name = some e := by
  refine (accepts_ofExcept _).imp ?_
  rintro _ ts e _ ⟨rfl, h⟩
  unfold Scope.resolve at h
  split at h
  · next e' hlookup =>
    cases h
    exact ⟨rfl, hlookup⟩
  · cases h

theorem accepts_toSingle (parsed : Parsed) :
    Accepts (toSingle parsed) fun _ ts e rest => ts = rest ∧ parsed.arguments = [e] := by
  cases parsed with
  | single e => exact .pure e fun _ _ => ⟨rfl, rfl⟩
  | group items comma => exact .throw _

theorem accepts_operand {op : UnaryOp} {scope : Scope} {reader : Parse (Option Parsed)}
    (h : Accepts reader fun n ts => Found (fun parsed rest =>
      Reads maxNesting n scope .value ts parsed.arguments rest) ts) :
    Accepts (operand op reader) fun n ts e rest => ∃ m operand, n = m + 1 ∧ e = .unary op operand ∧
      Reads maxNesting m scope .value ts [operand] rest := by
  refine (accepts_deeper h).bind fun o => ?_
  cases o with
  | none => exact accepts_missing
  | some parsed =>
    refine (accepts_toSingle parsed).bind fun operand => .pure _ ?_
    rintro n ts mid ⟨rfl, hsingle⟩ ts' ⟨m, rfl, hvalue⟩
    exact ⟨m, operand, rfl, rfl, hsingle ▸ hvalue⟩

theorem accepts_conditional {scope : Scope} {reader : Parse (Option Expr)}
    (h : Accepts reader fun n ts => Found (fun e rest =>
      Reads maxNesting n scope (.expression Precedence.lowest) ts [e] rest) ts) :
    Accepts (conditional reader) fun n ts e rest =>
      Reads maxNesting n scope .value (.ifWord :: ts) [e] rest := by
  refine (accepts_required h).bind fun condition => ?_
  refine (accepts_expect (by simp)).bind fun _ => ?_
  refine (accepts_required h).bind fun yes => ?_
  refine (accepts_expect (by simp)).bind fun _ => ?_
  refine (accepts_required h).bind fun no => .pure _ ?_
  rintro n rest ts₂ hno _ rfl ts₁ hyes _ rfl ts hcondition
  exact .conditional hcondition hyes hno

theorem accepts_parameters (inner : Scope) (depth fuel : Nat) (names : List String) :
    Accepts (parameters inner depth fuel names) fun _ ts all rest =>
      ∃ more, all = names.reverse ++ more ∧ all ≠ [] ∧
        ts = more.map Token.identifier ++ .arrow :: rest := by
  induction fuel generalizing names with
  | zero => exact .throw _
  | succ fuel ih =>
    unfold parameters
    refine accepts_peek.bind fun o => ?_
    split
    · next name location =>
      refine .taking (.identifier name) fun _ => (ih (name :: names)).imp ?_
      rintro n _ all rest ⟨more, rfl, hne, rfl⟩
      exact ⟨name :: more, by simp, hne, by simp⟩
    · next location =>
      cases names with
      | nil => exact .throw _
      | cons name names =>
        exact .taking .arrow fun _ => .pure _ fun n ts => ⟨[], by simp, by simp, rfl⟩
    · exact accepts_missing

theorem accepts_range {scope : Scope} {items : List Expr} {reader : Parse (Option Expr)}
    (h : Accepts reader fun n ts => Found (fun e rest =>
      Reads maxNesting n scope (.expression Precedence.lowest) ts [e] rest) ts) :
    Accepts (range items reader) fun n ts e rest =>
      (ts = .rightBracket :: rest ∧ Expr.rangeOf? none items = some e) ∨
      ∃ stop, Reads maxNesting n scope (.expression Precedence.lowest) ts [stop]
        (.rightBracket :: rest) ∧ Expr.rangeOf? (some stop) items = some e := by
  refine h.bind fun stop => ?_
  refine (accepts_expect (by simp)).bind fun _ => ?_
  have hend : ∀ e, Expr.rangeOf? stop items = some e → ∀ (n : Nat) (ts mid : List Token),
      mid = .rightBracket :: ts → ∀ ts', Found (fun e rest =>
        Reads maxNesting n scope (.expression Precedence.lowest) ts' [e] rest) ts' stop mid →
      (ts' = .rightBracket :: ts ∧ Expr.rangeOf? none items = some e) ∨
      ∃ stop, Reads maxNesting n scope (.expression Precedence.lowest) ts' [stop]
        (.rightBracket :: ts) ∧ Expr.rangeOf? (some stop) items = some e := by
    rintro e he n ts _ rfl ts' hfound
    cases stop with
    | none => exact .inl ⟨hfound.1, he⟩
    | some stop => exact .inr ⟨stop, hfound, he⟩
  match items with
  | [start] => exact .pure _ (hend _ rfl)
  | [start, second] => exact .pure _ (hend _ rfl)
  | [] => exact .throw _
  | _ :: _ :: _ :: _ => exact .throw _

/-! ## 4. The readers, one level of fuel up -/

section Step

variable {fuel : Nat} (ih : SoundAt fuel)
include ih

theorem SoundAt.expression_succ (scope : Scope) (least : Nat) :
    Accepts (Reader.expression (fuel + 1) scope least) fun n ts => Found (fun e rest =>
      Reads maxNesting n scope (.expression least) ts [e] rest) ts := by
  rw [Reader.expression]
  refine (accepts_deeper (P := fun n ts => Found (fun e rest =>
    Reads maxNesting (n + 1) scope (.expression least) ts [e] rest) ts) ?_).imp ?_
  · refine (ih.value scope).bind fun o => ?_
    cases o with
    | none => exact .pure _ fun n ts ts' hfound => hfound
    | some parsed =>
      refine (accepts_toSingle parsed).bind fun first => ?_
      refine (ih.extend scope least first).bind fun e => .pure _ ?_
      rintro n rest mid hrest _ ⟨rfl, hsingle⟩ ts hvalue
      exact .expression (hsingle ▸ hvalue) hrest
  · rintro n ts o rest ⟨m, rfl, hfound⟩
    exact hfound

theorem SoundAt.extend_succ (scope : Scope) (least : Nat) (left : Expr) :
    Accepts (Reader.extend (fuel + 1) scope least left) fun n ts e rest =>
      Reads maxNesting n scope (.extension least left) ts [e] rest := by
  rw [Reader.extend]
  refine accepts_peekToken.bind fun o => ?_
  split
  · refine .pure _ ?_
    rintro n ts _ ⟨rfl, hhead⟩
    exact .stop (by rw [← hhead]; trivial)
  · next op =>
    split
    · next hweak =>
      refine .pure _ ?_
      rintro n ts _ ⟨rfl, hhead⟩
      exact .stop (by rw [← hhead]; exact hweak)
    · next hstrong =>
      have hbinary : Accepts (do
          let right ← required "an operand" (Reader.expression fuel scope op.rightPrecedence)
          Reader.extend fuel scope least (.binary op left right)) fun n ts e rest =>
            (least = Precedence.lowest → ts.head? ≠ some .rightParen) →
              Reads maxNesting n scope (.extension least left) (.operator op :: ts) [e] rest := by
        refine (accepts_required (ih.expression scope _)).bind fun right => ?_
        refine (ih.extend scope least _).imp ?_
        intro n mid e rest hrest ts hright hparen
        exact .binary (by omega) hparen hright hrest
      refine .taking (.operator op) fun _ => ?_
      -- only at the lowest strength does the reader look for a closing parenthesis
      by_cases hlowest : least = Precedence.lowest
      · simp only [hlowest, if_true]
        refine accepts_peekToken.bind fun o => ?_
        by_cases ho : o = some .rightParen
        · simp only [ho, if_true]
          refine .pure _ ?_
          rintro n ts _ ⟨rfl, hhead⟩
          obtain ⟨ts', rfl⟩ := List.head?_eq_some_iff.mp hhead.symm
          exact .leftSection
        · simp only [ho, if_false]
          refine (hlowest ▸ hbinary).imp ?_
          rintro n ts e rest hreads _ ⟨rfl, hhead⟩
          exact hreads fun _ => hhead ▸ ho
      · simp only [hlowest, if_false]
        exact hbinary.imp fun n ts e rest hreads => hreads (absurd · hlowest)
  · split
    · next hhigher =>
      refine .pure _ ?_
      rintro n ts _ ⟨rfl, hhead⟩
      exact .stop (by rw [← hhead]; exact hhigher)
    · next hlowest =>
      obtain rfl : least = Precedence.lowest := Decidable.not_not.mp hlowest
      refine .taking .dollar fun _ => ?_
      refine (accepts_required (ih.expression scope _)).bind fun argument => ?_
      refine (ih.extend scope _ _).imp ?_
      intro n mid e rest hrest ts hargument
      exact .dollar hargument hrest
  · next t hoperator hdollar =>
    refine (ih.value scope).bind fun o => ?_
    cases o with
    | none =>
      refine .pure _ ?_
      rintro n ts _ ⟨rfl, hstart⟩ _ ⟨rfl, hhead⟩
      refine .stop ?_
      rw [← hhead] at hstart ⊢
      cases t with
      | operator op => exact absurd rfl (hoperator op)
      | dollar => exact absurd rfl hdollar
      | _ => exact hstart
    | some parsed =>
      refine (ih.extend scope least _).imp ?_
      rintro n mid e rest hrest ts hvalue _ ⟨rfl, hhead⟩
      refine .juxtapose (fun op h => hoperator op ?_) hvalue hrest
      exact Option.some.inj (hhead.trans h)

theorem SoundAt.value_succ (scope : Scope) :
    Accepts (Reader.value (fuel + 1) scope) fun n ts => Found (fun parsed rest =>
      Reads maxNesting n scope .value ts parsed.arguments rest) ts := by
  rw [Reader.value]
  refine accepts_peekToken.bind fun o => ?_
  split
  · next k => exact .taking (.integer k) fun _ => .pure _ fun _ _ => .literal rfl
  · next d => exact .taking (.decimal d) fun _ => .pure _ fun _ _ => .literal rfl
  · next b => exact .taking (.bool b) fun _ => .pure _ fun _ _ => .literal rfl
  · exact .taking .null fun _ => .pure _ fun _ _ => .literal rfl
  · next text => exact .taking (.str text) fun _ => .pure _ fun _ _ => .literal rfl
  · next body =>
    refine .taking (.template body) fun spanned => ?_
    refine (ih.fragments scope _ _).bind fun fragments => .pure _ ?_
    rintro n ts _ ⟨rfl, hfragments⟩
    exact .template hfragments
  · next name =>
    refine .taking (.identifier name) fun spanned => ?_
    refine accepts_resolve.bind fun e => .pure _ ?_
    rintro n ts _ ⟨rfl, hlookup⟩
    exact .name hlookup
  · refine .taking (.operator .sub) fun _ => ?_
    refine (accepts_operand (ih.value scope)).bind fun e => .pure _ ?_
    rintro n rest ts ⟨m, operand, rfl, rfl, hoperand⟩
    exact (Reads.unary hoperand : Reads _ _ _ _ (UnaryOp.token .negate :: _) _ _)
  · refine .taking .bang fun _ => ?_
    refine (accepts_operand (ih.value scope)).bind fun e => .pure _ ?_
    rintro n rest ts ⟨m, operand, rfl, rfl, hoperand⟩
    exact (Reads.unary hoperand : Reads _ _ _ _ (UnaryOp.token .not :: _) _ _)
  · refine .taking .leftParen fun _ => ?_
    refine (ih.inParens scope).bind fun parsed => .pure _ ?_
    exact fun n rest ts hparens => .parens hparens
  · refine .taking .leftBracket fun _ => ?_
    refine accepts_peekToken.bind fun o => ?_
    by_cases ho : o = some .rightBracket
    · simp only [ho, if_true]
      exact .taking .rightBracket fun _ => .pure _ fun n ts => .emptyList
    · simp only [ho, if_false]
      refine (ih.elements scope []).bind fun e => .pure _ ?_
      rintro n rest ts helements _ ⟨rfl, hhead⟩
      exact .list (hhead ▸ ho) helements
  · refine .taking .backslash fun _ => ?_
    refine (accepts_parameters _ _ fuel []).bind fun names => ?_
    refine (accepts_required (ih.expression _ _)).bind fun body => .pure _ ?_
    rintro n rest mid hbody _ ⟨more, rfl, hne, rfl⟩
    exact .lambda hne hbody
  · refine .taking .ifWord fun _ => ?_
    refine (accepts_conditional (ih.expression scope _)).bind fun e => .pure _ ?_
    exact fun n rest ts hconditional => hconditional
  -- no value begins here: the tokens that are left announce none
  case h_15 hop =>
    refine .pure _ ?_
    rintro n ts _ ⟨rfl, hhead⟩
    exact ⟨rfl, by rw [← hhead]; exact beq_false_of_ne hop⟩
  all_goals
    refine .pure _ ?_
    rintro n ts _ ⟨rfl, hhead⟩
    exact ⟨rfl, by rw [← hhead]; rfl⟩

theorem SoundAt.inParens_succ (scope : Scope) :
    Accepts (Reader.inParens (fuel + 1) scope) fun n ts parsed rest =>
      Reads maxNesting n scope .parens ts parsed.arguments rest := by
  rw [Reader.inParens]
  refine accepts_peekToken.bind fun o => ?_
  split
  · exact .throw _
  · refine .taking (.operator .sub) fun _ => ?_
    refine (accepts_operand (ih.value scope)).bind fun negated => ?_
    refine (ih.extend scope _ negated).bind fun e => ?_
    refine (accepts_expect (by simp)).bind fun _ => .pure _ ?_
    rintro n rest _ rfl mid hrest ts ⟨m, operand, rfl, rfl, hoperand⟩
    exact .negation hoperand hrest
  · next op hsub =>
    refine .taking (.operator op) fun _ => ?_
    refine (accepts_required (ih.expression scope _)).bind fun right => ?_
    refine (accepts_expect (by simp)).bind fun _ => .pure _ ?_
    rintro n rest _ rfl ts hright
    exact .rightSection hsub hright
  · next t hsub hop =>
    have hhead : ∀ ts : List Token, some t = ts.head? → ∀ op, ts.head? ≠ some (.operator op) := by
      intro ts hts op h
      exact hop op (Option.some.inj (hts.trans h))
    refine (accepts_required (ih.expression scope _)).bind fun first => ?_
    refine accepts_peek.bind fun o => ?_
    split
    · next comma =>
      refine (ih.group scope [first]).bind fun items => .pure _ ?_
      rintro n rest mid hgroup _ ⟨rfl, hcomma⟩ ts hfirst _ ⟨rfl, hts⟩
      obtain ⟨mid', rfl⟩ := List.head?_eq_some_iff.mp hcomma.symm
      exact .grouped (hhead _ hts) hfirst hgroup
    · refine (accepts_expect (by simp)).bind fun _ => .pure _ ?_
      rintro n rest _ rfl _ ⟨rfl, -⟩ ts hfirst _ ⟨rfl, hts⟩
      exact .enclosed (hhead _ hts) hfirst

theorem SoundAt.group_succ (scope : Scope) (items : List Expr) :
    Accepts (Reader.group (fuel + 1) scope items) fun n ts all rest =>
      Reads maxNesting n scope (.group items) ts all rest := by
  rw [Reader.group]
  refine accepts_peekToken.bind fun o => ?_
  split
  · refine .taking .comma fun _ => ?_
    refine (accepts_required (ih.expression scope _)).bind fun item => ?_
    refine (ih.group scope (item :: items)).imp ?_
    intro n mid all rest hrest ts hitem
    exact .groupMore hitem hrest
  · refine (accepts_expect (by simp)).bind fun _ => .pure _ ?_
    rintro n rest _ rfl _ ⟨rfl, -⟩
    exact .groupEnd

theorem SoundAt.elements_succ (scope : Scope) (items : List Expr) :
    Accepts (Reader.elements (fuel + 1) scope items) fun n ts e rest =>
      Reads maxNesting n scope (.elements items) ts [e] rest := by
  rw [Reader.elements]
  refine (accepts_required (ih.expression scope _)).bind fun item => ?_
  refine accepts_peek.bind fun o => ?_
  split
  · refine .taking .comma fun _ => (ih.elements scope (item :: items)).imp ?_
    intro n mid e rest hrest ts hitem
    exact .elementsMore hitem hrest
  · refine .taking .rightBracket fun _ => .pure _ ?_
    intro n rest ts hitem
    exact .elementsEnd hitem
  · split
    · exact .throw _
    · refine .taking .dots fun _ => (accepts_range (ih.expression scope _)).imp ?_
      rintro n mid e rest (⟨rfl, hrange⟩ | ⟨stop, hstop, hrange⟩) ts hitem
      · exact .rangeOpen hitem hrange
      · exact .rangeClosed hitem hstop hrange
  · exact accepts_missing

end Step

/-! ## 5. Whole texts -/

/-- A reader of a whole text leaves no token. -/
theorem reads_of_complete {scope : Scope} {reader : Parse (Option Expr)}
    {s s' : TokenStream} {e : Expr} (h : Accepts reader fun n ts => Found (fun e rest =>
      Reads maxNesting n scope (.expression Precedence.lowest) ts [e] rest) ts)
    (hrun : complete reader s = .ok e s') :
    ∃ ts, s.Ahead ts ∧
      Reads maxNesting (maxNesting - s.nesting) scope
        (.expression Precedence.lowest) ts [e] [] := by
  obtain ⟨o, s₁, hreader, hrun⟩ := bind_eq_ok.mp hrun
  obtain ⟨-, hback⟩ := h s o s₁ hreader
  cases o with
  | none =>
    obtain ⟨o', s₂, -, hrun⟩ := bind_eq_ok.mp hrun
    cases o' <;> cases hrun
  | some e' =>
    obtain ⟨o', s₂, hpeek, hrun⟩ := bind_eq_ok.mp hrun
    cases o' with
    | some spanned => cases hrun
    | none =>
      cases hrun
      obtain ⟨-, -, hback'⟩ := ahead_of_peek hpeek
      exact hback [] (hback' [] (ahead_nil_of_peek hpeek)).1

/-- A text that a reader reads to its end has tokens that the reader follows. -/
theorem reads_of_source {scope : Scope} {reader : Parse (Option Expr)} {source : String} {e : Expr}
    {s : TokenStream}
    (h : Accepts reader fun n ts => Found (fun e rest =>
      Reads maxNesting n scope (.expression Precedence.lowest) ts [e] rest) ts)
    (hrun : complete reader (ofSource source) = .ok e s) :
    ∃ ts, Lexes source.toList ts ∧
      Reads maxNesting maxNesting scope (.expression Precedence.lowest) ts [e] [] :=
  reads_of_complete h hrun

/-- Expressions of an interpolated string are read from streams of their own. -/
theorem accepts_embedded {scope : Scope} {source : String} {location : Location}
    {reader : Parse (Option Expr)}
    (h : Accepts reader fun n ts => Found (fun e rest =>
      Reads maxNesting n scope (.expression Precedence.lowest) ts [e] rest) ts) :
    Accepts (Reading.embedded source location (complete reader)) fun _ ts e rest =>
      ts = rest ∧ ∃ tokens, Lexes source.toList tokens ∧
        Reads maxNesting maxNesting scope (.expression Precedence.lowest) tokens [e] [] := by
  refine (accepts_ofExcept _).imp ?_
  rintro _ ts e _ ⟨rfl, hembedded⟩
  unfold TokenStream.embedded at hembedded
  split at hembedded
  · next e' s hrun =>
    cases hembedded
    exact ⟨rfl, reads_of_source h hrun⟩
  · cases hembedded

theorem accepts_embed {p : Parse Expr} {P : Nat → List Token → Fragment → List Token → Prop}
    (hp : Accepts p fun n ts e rest => P n ts (.embedded e) rest) :
    Accepts (Fragment.embedded <$> p) P := by
  rw [map_eq_pure_bind]
  exact hp.bind fun e => .pure _ fun _ _ _ h => h

/-- One more piece in front of others. -/
theorem accepts_piece {scope : Scope} {piece : Piece} {pieces : List Piece} {p : Parse Fragment}
    {q : Parse (List Fragment)}
    (hp : Accepts p fun n ts fragment rest => ts = rest ∧ ∀ parts,
      Reads maxNesting n scope (.pieces pieces) ts [.interpolated parts] ts →
        Reads maxNesting n scope (.pieces (piece :: pieces)) ts
          [.interpolated (fragment :: parts)] ts)
    (hq : Accepts q fun n ts parts rest => ts = rest ∧
      Reads maxNesting n scope (.pieces pieces) ts [.interpolated parts] ts) :
    Accepts (do return (← p) :: (← q)) fun n ts parts rest => ts = rest ∧
      Reads maxNesting n scope (.pieces (piece :: pieces)) ts [.interpolated parts] ts := by
  refine hp.bind fun fragment => hq.bind fun parts => .pure _ ?_
  rintro n rest _ ⟨rfl, hparts⟩ _ ⟨rfl, hpiece⟩
  exact ⟨rfl, hpiece parts hparts⟩

/-- The pieces of an interpolated string are read one by one. -/
theorem SoundAt.fragments_succ {fuel : Nat} (ih : SoundAt fuel) (scope : Scope)
    (location : Location) (pieces : List Piece) :
    Accepts (Reader.fragments (fuel + 1) scope location pieces) fun n ts parts rest => ts = rest ∧
      Reads maxNesting n scope (.pieces pieces) ts [.interpolated parts] ts := by
  rw [Reader.fragments]
  induction pieces with
  | nil => exact .pure _ fun n ts => ⟨rfl, .noPiece⟩
  | cons piece pieces ihp =>
    rw [List.mapM_cons]
    cases piece with
    | text text => exact accepts_piece (.pure _ fun n ts => ⟨rfl, fun _ => .textPiece⟩) ihp
    | name name =>
      refine accepts_piece (accepts_embed (accepts_resolve.imp ?_)) ihp
      rintro n ts e _ ⟨rfl, hlookup⟩
      exact ⟨rfl, fun _ => .namePiece hlookup⟩
    | source source =>
      have hexpression := ih.expression scope Precedence.lowest
      refine accepts_piece (accepts_embed ((accepts_embedded hexpression).imp ?_)) ihp
      rintro n ts e _ ⟨rfl, tokens, hlexes, hreads⟩
      exact ⟨rfl, fun _ => .sourcePiece hlexes hreads⟩
    | unclosed => exact accepts_piece (.throw _) ihp

/-- **Every reader follows the grammar**, whatever its fuel. -/
theorem accepts_readers (fuel : Nat) : SoundAt fuel := by
  induction fuel with
  | zero =>
    refine ⟨fun _ _ => ?_, fun _ _ _ => ?_, fun _ => ?_, fun _ => ?_, fun _ _ => ?_, fun _ _ => ?_,
      fun _ _ _ => ?_⟩
    · rw [expression]; exact .throw _
    · rw [extend]; exact .throw _
    · rw [value]; exact .throw _
    · rw [inParens]; exact .throw _
    · rw [group]; exact .throw _
    · rw [elements]; exact .throw _
    · rw [fragments]; exact .throw _
  | succ fuel ih =>
    exact ⟨ih.expression_succ, ih.extend_succ, ih.value_succ, ih.inParens_succ, ih.group_succ,
      ih.elements_succ, ih.fragments_succ⟩

end Reader

/-- **What can be read is an expression of the grammar**, with all levels and no token left. -/
theorem reads_of_parseIn {scope : Scope} {source : String} {e : Expr}
    (h : parseIn scope source = .ok e) :
    ∃ ts, Lexes source.toList ts ∧
      Reads maxNesting maxNesting scope (.expression Precedence.lowest) ts [e] [] := by
  unfold parseIn at h
  split at h
  · next e' s hrun =>
    cases h
    exact Reader.reads_of_source ((Reader.accepts_readers _).expression scope _) hrun
  · cases h

end LazyExpr
