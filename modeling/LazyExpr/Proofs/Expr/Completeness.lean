import LazyExpr.Expr.Reader
import LazyExpr.Proofs.Expr.Grammar
import LazyExpr.Proofs.Expr.Holes
import LazyExpr.Proofs.Token.Scan

/-!
# What follows the grammar is read

A reader that has a phrase of the grammar ahead returns what the phrase stands for, unless it runs
into the bound on nesting.  Nothing else can go wrong: the fuel is never used up, and no look or
take fails.

* `ParseError.IsNestingLimit`: the error is the bound on nesting, or reports it for an embedded
  expression; `ParseError.IsTooDeep` is the former alone.
* `Reader.Takes limit n p s post rest`: from `s`, the step `p` returns on its own level something
  that satisfies `post`, with `rest` ahead, or fails at the bound on nesting; the latter only when
  `limit` or the `n` levels below `s` do not fit under the bound, and in an embedded expression only
  when `limit` does not.
* `weight_le_of_lexes`: the fuel that a text is given is enough for its tokens.
* `Reader.takes_of_reads`: **every reader finds every phrase**, by induction on the grammar.
* `parseIn_of_reads`: a text of the grammar is read, up to the bound on nesting.
-/

namespace LazyExpr

/-! ## 1. The bound on nesting -/

/-- The error says that expressions are nested too deeply, in the text or in an expression embedded
in one of its strings. -/
inductive ParseError.IsNestingLimit : ParseError → Prop where
  | tooDeep (limit : Nat) (place : Location) : IsNestingLimit (.nestingTooDeep limit place)
  | embedded {cause : ParseError} (h : IsNestingLimit cause) (place : Location) :
      IsNestingLimit (.invalidInterpolation cause.message place)

/-- The error says that expressions are nested too deeply in the text itself. -/
def ParseError.IsTooDeep (e : ParseError) : Prop := ∃ place, e = .nestingTooDeep maxNesting place

/-! ## 2. How much there is to read -/

/-- What a token adds to the work of reading: the body of an interpolated string is read again. -/
def Token.weight : Token → Nat
  | template body => body.length + 1
  | _ => 1

theorem Token.weight_pos (t : Token) : 0 < t.weight := by
  cases t <;> simp [weight]

/-- The weight of a row of tokens. -/
def weight (ts : List Token) : Nat := (ts.map Token.weight).sum

@[simp] theorem weight_nil : weight [] = 0 := rfl

@[simp] theorem weight_cons (t : Token) (ts : List Token) :
    weight (t :: ts) = t.weight + weight ts := rfl

@[simp] theorem weight_append (ts us : List Token) : weight (ts ++ us) = weight ts + weight us := by
  simp [weight]

theorem length_le_weight (ts : List Token) : ts.length ≤ weight ts := by
  induction ts with
  | nil => simp
  | cons t ts ih =>
    have := t.weight_pos
    simp only [weight_cons, List.length_cons]
    omega

/-- A string is not longer than what it is written with. -/
theorem Lexeme.length_scanBody {cs contents : List Char} {taken : Nat}
    (h : Lexeme.scanBody cs = (.ok contents, taken)) :
    contents.length + (cs.drop taken).length ≤ cs.length := by
  fun_induction scanBody cs generalizing contents taken with
  | case1 => cases h
  | case2 => cases h; simp
  | case3 => cases h
  | case4 => cases h
  | case5 => cases h
  | case6 c cs _ d _ result taken' hbody ih =>
    cases result with
    | error e => cases h
    | ok inner =>
      cases h
      have := ih hbody
      simp only [List.length_cons, List.drop_succ_cons]
      omega
  | case7 => cases h
  | case8 c cs _ _ _ _ _ result taken' hbody ih =>
    cases result with
    | error e => cases h
    | ok inner =>
      cases h
      have := ih hbody
      simp only [List.length_cons, List.drop_succ_cons]
      omega

theorem Lexeme.weight_of_mem_signs : ∀ t ∈ signs, t.weight = 1 := by decide

theorem Lexeme.weight_tokenOfWord (word : String) : (tokenOfWord word).weight = 1 := by
  have hreserved : ∀ t ∈ reserved, t.weight = 1 := by decide
  obtain hname | hword := tokenOfWord_cases word
  · rw [hname]
    rfl
  · exact hreserved _ hword

/-- A token takes at least as many characters as it weighs. -/
theorem Lexeme.Scans.weight_le {c : Char} {cs : List Char} {t : Token} {taken : Nat}
    (h : Scans c cs t taken) : t.weight + (cs.drop taken).length ≤ cs.length + 1 := by
  -- only an interpolated string weighs more than one
  have hlight : t.weight = 1 → t.weight + (cs.drop taken).length ≤ cs.length + 1 := by
    intro ht
    simp only [ht, List.length_drop]
    omega
  cases h with
  | str => exact hlight rfl
  | template hquote hbody =>
    obtain ⟨rest, rfl⟩ := List.head?_eq_some_iff.mp hquote
    have hlength := length_scanBody hbody
    simp only [List.tail_cons] at hlength
    simp only [Token.weight, String.length_ofList, Nat.add_comm 1, List.drop_succ_cons,
      List.length_cons]
    omega
  | integer => exact hlight rfl
  | decimal => exact hlight rfl
  | word => exact hlight (weight_tokenOfWord _)
  | sign ht => exact hlight (weight_of_mem_signs _ ht)

/-- **A text is at least as long as its tokens weigh.** -/
theorem weight_le_of_lexes {cs : List Char} {ts : List Token} (h : Lexes cs ts) :
    weight ts ≤ cs.length := by
  induction h with
  | nil => simp
  | pass _ _ _ ih =>
    simp only [List.length_drop] at ih
    simp only [List.length_cons]
    omega
  | token hscan _ ih =>
    have := (Lexeme.scans_of_scan hscan).weight_le
    simp only [weight_cons, List.length_cons]
    omega

/-- What is behind a phrase weighs less, except where the phrase may be empty. -/
def Phrase.leastWeight : Phrase → Nat
  | extension .. | pieces _ => 0
  | _ => 1

theorem Reads.weight_le {limit n scope phrase ts items rest}
    (h : Reads limit n scope phrase ts items rest) :
    weight rest + phrase.leastWeight ≤ weight ts := by
  have hone : ∀ (t : Token) (us : List Token), weight us + 1 ≤ weight (t :: us) := by
    intro t us
    have := t.weight_pos
    simp only [weight_cons]
    omega
  induction h with
  | literal | name | template | groupEnd => exact hone _ _
  | emptyList => exact Nat.le_trans (hone _ _) (Nat.le_of_succ_le (hone _ _))
  | _ =>
    simp only [weight_cons, weight_append, Phrase.leastWeight] at *
    omega

/-! ## 3. Steps of reading, seen from their start -/

namespace TokenStream

/-- The stream has looked at the first of the tokens ahead. -/
def Looked (s : TokenStream) (ts : List Token) : Prop :=
  s.Ahead ts ∧ s.pending.map Spanned.token = ts.head?

end TokenStream

/-- What was read stands for these expressions; only a group stands for more than one. -/
def Parsed.StandsFor (items : List Expr) : Parsed → Prop
  | .single e => items = [e]
  | .group all _ => items = all ∧ 2 ≤ all.length

namespace Reader

open TokenStream

/-- `Takes limit n p s post rest`: from `s`, the step `p` returns on its own level, with a result
that satisfies `post` and `rest` ahead, or fails at the bound on nesting; the latter only when
`limit` or `n` more levels are too many, and not in an embedded expression when `limit` is not. -/
def Takes {α : Type} (limit n : Nat) (p : Parse α) (s : TokenStream) (post : α → Prop)
    (rest : List Token) : Prop :=
  match p s with
  | .ok a s' => s'.nesting = s.nesting ∧ post a ∧ s'.Ahead rest
  | .error e _ => e.IsNestingLimit ∧ ¬(limit ≤ maxNesting ∧ s.nesting + n ≤ maxNesting) ∧
      (limit ≤ maxNesting → e.IsTooDeep)

namespace Takes

variable {α β : Type} {limit n : Nat} {p : Parse α} {s : TokenStream} {P P' : α → Prop}
  {Q : β → Prop} {ts mid rest : List Token}

theorem imp (hp : Takes limit n p s P rest) (h : ∀ a, P a → P' a) : Takes limit n p s P' rest := by
  unfold Takes at *
  split at hp
  · exact ⟨hp.1, h _ hp.2.1, hp.2.2⟩
  · exact hp

theorem pure {a : α} (ha : P a) (hs : s.Ahead rest) : Takes limit n (Pure.pure a) s P rest :=
  ⟨rfl, ha, hs⟩

theorem bind {f : α → Parse β} (hp : Takes limit n p s P mid)
    (hf : ∀ a s', P a → s'.Ahead mid → Takes limit n (f a) s' Q rest) :
    Takes limit n (p >>= f) s Q rest := by
  unfold Takes at hp ⊢
  simp only [Bind.bind, EStateM.bind]
  split at hp
  · next a s' hrun =>
    obtain ⟨hn, ha, hs'⟩ := hp
    have hrest := hf a s' ha hs'
    unfold Takes at hrest
    simp only [hrun]
    rw [hn] at hrest
    exact hrest
  · next e s' hrun =>
    simp only [hrun]
    exact hp

/-- Looking at a stream. -/
theorem look {f : Option Token → Parse β} (hs : s.Ahead ts)
    (hf : ∀ s', s'.Looked ts → Takes limit n (f ts.head?) s' Q rest) :
    Takes limit n (peekToken >>= f) s Q rest := by
  obtain ⟨s', hrun, hhead, hs', hn⟩ := peek_of_ahead hs
  have hrest := hf s' ⟨hs', hhead⟩
  unfold Takes at hrest ⊢
  simp only [peekToken, Reading.peek_stream, Bind.bind, EStateM.bind, hrun, Pure.pure, EStateM.pure,
    hhead]
  rw [hn] at hrest
  exact hrest

/-- Looking at a stream, with the place of the token. -/
theorem lookAt {f : Option Spanned → Parse β} {t : Token} (hs : s.Ahead (t :: ts))
    (hf : ∀ location s', s'.Looked (t :: ts) → Takes limit n (f (some ⟨t, location⟩)) s' Q rest) :
    Takes limit n (peek >>= f) s Q rest := by
  obtain ⟨s', hrun, hhead, hs', hn⟩ := peek_of_ahead hs
  obtain ⟨⟨t', location⟩, hpending, rfl⟩ := Option.map_eq_some_iff.mp hhead
  have hrest := hf location s' ⟨hs', hhead⟩
  unfold Takes at hrest ⊢
  simp only [Bind.bind, EStateM.bind, hrun, hpending]
  rw [hn] at hrest
  exact hrest

/-- Taking the token that was looked at. -/
theorem take {f : Spanned → Parse β} {t : Token} (hs : s.Looked (t :: ts))
    (hf : ∀ spanned s', s'.Ahead ts → Takes limit n (f spanned) s' Q rest) :
    Takes limit n (advance >>= f) s Q rest := by
  obtain ⟨spanned, hpending, -⟩ := Option.map_eq_some_iff.mp hs.2
  obtain ⟨s', hrun, -, hs', hn⟩ := advance_of_ahead hs.1 hpending
  have hrest := hf spanned s' hs'
  unfold Takes at hrest ⊢
  simp only [Bind.bind, EStateM.bind, hrun]
  rw [hn] at hrest
  exact hrest

/-- Taking a token that has to be there, and is. -/
theorem expect {f : Spanned → Parse β} {token : Token} {description : String}
    (htoken : ∀ d, token ≠ .decimal d) (hs : s.Ahead (token :: ts))
    (hf : ∀ spanned s', s'.Ahead ts → Takes limit n (f spanned) s' Q rest) :
    Takes limit n (expect token description >>= f) s Q rest := by
  have hagrees : token.agrees token = true := (Token.agrees_iff htoken).mpr rfl
  refine bind (P := fun _ => True) ?_ fun spanned s' _ hs' => hf spanned s' hs'
  unfold Reader.expect
  refine lookAt hs fun location s' hs' => ?_
  simp only [hagrees, if_true]
  rw [← bind_pure Reading.advance]
  exact take hs' fun spanned s'' hs'' => pure trivial hs''

/-- A level further down, in front of a token: there is one level less, and at the bound the reader
fails for that reason. -/
theorem deeper {t : Token} (hs : s.Ahead (t :: ts))
    (hp : ∀ s', s'.Ahead (t :: ts) → Takes limit n p s' P rest) :
    Takes limit (n + 1) (TokenStream.deeper p) s P rest := by
  unfold Takes TokenStream.deeper
  by_cases hlt : s.nesting < maxNesting
  · have hbody := hp { s with nesting := s.nesting + 1 } hs
    unfold Takes at hbody
    rw [descend_of_lt hlt]
    simp only
    revert hbody
    cases p { s with nesting := s.nesting + 1 } with
    | ok a s' =>
      rintro ⟨hn, ha, hs'⟩
      refine ⟨?_, ha, hs'⟩
      simp only [ascend, hn]
      omega
    | error e s' =>
      rintro ⟨hlimit, hnot, hown⟩
      refine ⟨hlimit, fun hfits => hnot ⟨hfits.1, ?_⟩, hown⟩
      have := hfits.2
      simp only
      omega
  · obtain ⟨l, s', hrun⟩ := descend_of_ge hs (Nat.not_lt.mp hlt)
    rw [hrun]
    refine ⟨.tooDeep _ _, fun hfits => ?_, fun _ => ⟨l, rfl⟩⟩
    have := hfits.2
    omega

end Takes

/-- `Reaches limit x a`: the outcome is `a`, or the bound on nesting, which lies below `limit`
then. -/
def Reaches {α : Type} (limit : Nat) (x : Except ParseError α) (a : α) : Prop :=
  match x with
  | .ok b => b = a
  | .error e => e.IsNestingLimit ∧ ¬limit ≤ maxNesting

/-! ## 4. Parts that need no recursion -/

section Parts

variable {limit n : Nat} {s : TokenStream} {ts rest : List Token}

theorem arguments_of_standsFor {parsed : Parsed} {items : List Expr} (h : parsed.StandsFor items) :
    parsed.arguments = items := by
  cases parsed with
  | single e => exact h.symm
  | group all comma => exact h.1.symm

theorem takes_toSingle {parsed : Parsed} {e : Expr} (h : parsed.StandsFor [e]) (hs : s.Ahead rest) :
    Takes limit n (toSingle parsed) s (· = e) rest := by
  cases parsed with
  | single e' =>
    cases h
    exact .pure rfl hs
  | group all comma =>
    obtain ⟨rfl, hlength⟩ := h
    exact absurd hlength (by simp)

theorem takes_required {description : String} {reader : Parse (Option Expr)} {e : Expr}
    (h : Takes limit n reader s (· = some e) rest) :
    Takes limit n (required description reader) s (· = e) rest := by
  refine h.bind fun o s' ho hs' => ?_
  subst ho
  exact .pure rfl hs'

theorem takes_ofExcept {α : Type} {x : Except ParseError α} {a : α} (h : Reaches limit x a)
    (hs : s.Ahead rest) : Takes limit n (MonadExcept.ofExcept x) s (· = a) rest := by
  cases x with
  | ok a' => exact .pure h hs
  | error e => exact ⟨h.1, fun hfits => h.2 hfits.1, fun hlimit => absurd hlimit h.2⟩

theorem takes_resolve {scope : Scope} {name : String} {location : Location} {e : Expr}
    (hlookup : scope.lookup name = some e) (hs : s.Ahead rest) :
    Takes limit n (Reading.resolve scope name location) s (· = e) rest := by
  refine takes_ofExcept (x := scope.resolve name location) ?_ hs
  simp only [Scope.resolve, hlookup]
  rfl

theorem takes_embed {reader : Parse Expr} {e : Expr} (h : Takes limit n reader s (· = e) rest) :
    Takes limit n (Fragment.embedded <$> reader) s (· = .embedded e) rest := by
  rw [map_eq_pure_bind]
  refine h.bind fun e' s' he' hs' => ?_
  subst he'
  exact .pure rfl hs'

/-- One more piece of an interpolated string in front of others. -/
theorem takes_piece {reader : Parse Fragment} {more : Parse (List Fragment)} {fragment : Fragment}
    {parts : List Fragment} (h : Takes limit n reader s (· = fragment) rest)
    (hmore : ∀ s', s'.Ahead rest → Takes limit n more s' (· = parts) rest) :
    Takes limit n (do return (← reader) :: (← more)) s (· = fragment :: parts) rest := by
  refine h.bind fun _ s' h' hs' => (hmore s' hs').bind fun _ s'' h'' hs'' => ?_
  subst h' h''
  exact .pure rfl hs''

/-- A whole text is read when its tokens are one expression, and nothing follows. -/
theorem takes_complete {reader : Parse (Option Expr)} {e : Expr}
    (h : Takes limit n reader s (· = some e) []) :
    Takes limit n (complete reader) s (· = e) [] := by
  refine h.bind fun o s' ho hs' => ?_
  subst ho
  obtain ⟨s'', hrun, hhead, hs'', hn⟩ := peek_of_ahead hs'
  have hnone : s''.pending = none := by simpa using hhead
  unfold Takes
  simp only [Reading.peek_stream, Bind.bind, EStateM.bind, hrun, hnone]
  exact ⟨hn, rfl, hs''⟩

theorem takes_operand {op : UnaryOp} {reader : Parse (Option Parsed)} {e : Expr} {t : Token}
    (hs : s.Ahead (t :: ts))
    (h : ∀ s', s'.Ahead (t :: ts) → Takes limit n reader s'
      (fun o => ∃ parsed, o = some parsed ∧ parsed.StandsFor [e]) rest) :
    Takes limit (n + 1) (operand op reader) s (· = .unary op e) rest := by
  refine (Takes.deeper hs h).bind fun o s' ho hs' => ?_
  obtain ⟨parsed, rfl, hparsed⟩ := ho
  refine (takes_toSingle hparsed hs').bind fun e' s'' he' hs'' => ?_
  subst he'
  exact .pure rfl hs''

theorem takes_parameters {inner : Scope} {depth fuel : Nat} {more names : List String}
    (hfuel : more.length < fuel) (hnames : names.reverse ++ more ≠ [])
    (hs : s.Ahead (more.map Token.identifier ++ .arrow :: rest)) :
    Takes limit n (parameters inner depth fuel names) s (· = names.reverse ++ more) rest := by
  induction more generalizing fuel names s with
  | nil =>
    obtain ⟨fuel, rfl⟩ : ∃ f, fuel = f + 1 := ⟨fuel - 1, by omega⟩
    unfold parameters
    refine .lookAt hs fun location s' hs' => ?_
    cases names with
    | nil => exact absurd rfl hnames
    | cons name names => exact .take hs' fun _ s'' hs'' => .pure (by simp) hs''
  | cons name more ih =>
    obtain ⟨fuel, rfl⟩ : ∃ f, fuel = f + 1 := ⟨fuel - 1, by omega⟩
    simp only [List.length_cons] at hfuel
    unfold parameters
    refine .lookAt hs fun location s' hs' => .take hs' fun _ s'' hs'' => ?_
    refine (ih (by omega) (by simp) hs'').imp fun all hall => ?_
    rw [hall, List.reverse_cons, List.append_assoc, List.singleton_append]

end Parts

/-! ## 5. The readers -/

/-- What the reader of a phrase does when it has the fuel that the tokens ahead ask for. -/
def Succeeds (limit n : Nat) (scope : Scope) (phrase : Phrase) (ts : List Token) (items : List Expr)
    (rest : List Token) : Prop :=
  match phrase with
  | .expression least => ∀ e, items = [e] → ∀ fuel, 3 * weight ts + 2 ≤ fuel → ∀ s, s.Ahead ts →
      Takes limit n (expression fuel scope least) s (· = some e) rest
  | .extension least left => ∀ e, items = [e] → ∀ fuel, 3 * weight ts + 2 ≤ fuel → ∀ s, s.Ahead ts →
      Takes limit n (extend fuel scope least left) s (· = e) rest
  | .value => ∀ fuel, 3 * weight ts + 1 ≤ fuel → ∀ s, s.Ahead ts →
      Takes limit n (value fuel scope) s
        (fun o => ∃ parsed, o = some parsed ∧ parsed.StandsFor items) rest
  | .parens => ∀ fuel, 3 * weight ts + 3 ≤ fuel → ∀ s, s.Ahead ts →
      Takes limit n (inParens fuel scope) s (Parsed.StandsFor items) rest
  | .group before => ∀ fuel, 3 * weight ts + 1 ≤ fuel → ∀ s, s.Ahead ts →
      Takes limit n (group fuel scope before) s (· = items) rest
  | .elements before => ∀ e, items = [e] → ∀ fuel, 3 * weight ts + 3 ≤ fuel → ∀ s, s.Ahead ts →
      Takes limit n (elements fuel scope before) s (· = e) rest
  | .pieces pieces => ∀ parts, items = [.interpolated parts] → ∀ fuel, 0 < fuel →
      (∀ source, .source source ∈ pieces → 3 * source.length + 3 ≤ fuel) → ∀ location s,
      s.Ahead ts → Takes limit n (fragments fuel scope location pieces) s (· = parts) rest

section Rules

variable {limit n : Nat} {scope : Scope} {ts mid rest : List Token}

theorem succeeds_expression {least : Nat} {first e : Expr} (hts : ts ≠ [])
    (hlight : weight mid + 1 ≤ weight ts) (hfirst : Succeeds limit n scope .value ts [first] mid)
    (hrest : Succeeds limit n scope (.extension least first) mid [e] rest) :
    Succeeds limit (n + 1) scope (.expression least) ts [e] rest := by
  rintro _ ⟨⟩ fuel hfuel s hs
  obtain ⟨fuel, rfl⟩ : ∃ f, fuel = f + 1 := ⟨fuel - 1, by omega⟩
  obtain ⟨t, ts, rfl⟩ := List.exists_cons_of_ne_nil hts
  rw [expression]
  refine .deeper hs fun s hs => ?_
  refine (hfirst fuel (by omega) s hs).bind fun o s ho hs => ?_
  obtain ⟨parsed, rfl, hparsed⟩ := ho
  refine (takes_toSingle hparsed hs).bind fun first' s hfirst' hs => ?_
  subst hfirst'
  refine (hrest e rfl fuel (by omega) s hs).bind fun e' s he' hs => ?_
  subst he'
  exact .pure rfl hs

/-- Where no value starts, none is found. -/
theorem takes_value_none {fuel : Nat} {s : TokenStream}
    (hstart : ts.head?.any Token.startsValue = false) (hs : s.Ahead ts) :
    Takes limit n (value (fuel + 1) scope) s (· = none) ts := by
  rw [value]
  refine .look hs fun s hs => ?_
  have hrest := hs.1
  clear hs
  generalize ts.head? = o at hstart ⊢
  cases o with
  | none => exact .pure rfl hrest
  | some t =>
    cases t with
    | operator op =>
      cases op with
      | sub => cases hstart
      | _ => exact .pure rfl hrest
    | thenWord | elseWord | arrow | rightParen | rightBracket | comma | dots | dollar =>
      exact .pure rfl hrest
    | _ => cases hstart

/-- Where no value starts, nothing more is read. -/
theorem takes_juxtapose_none {least fuel : Nat} {left : Expr} {s : TokenStream}
    (hstart : ts.head?.any Token.startsValue = false) (hs : s.Ahead ts) :
    Takes limit n (do
      match ← value (fuel + 1) scope with
      | none => return left
      | some parsed =>
        extend (fuel + 1) scope least (left.callAll parsed.arguments)) s (· = left) ts := by
  refine (takes_value_none hstart hs).bind fun o s ho hs => ?_
  subst ho
  exact .pure rfl hs

/-- A value that stands behind an expression is an argument. -/
theorem takes_juxtapose {least fuel : Nat} {left e : Expr} {items : List Expr} {s : TokenStream}
    (hfuel : 3 * weight ts + 1 ≤ fuel) (hlight : weight mid + 1 ≤ weight ts)
    (hvalue : Succeeds limit n scope .value ts items mid)
    (hrest : Succeeds limit n scope (.extension least (left.callAll items)) mid [e] rest)
    (hs : s.Ahead ts) :
    Takes limit n (do
      match ← value fuel scope with
      | none => return left
      | some parsed => extend fuel scope least (left.callAll parsed.arguments)) s (· = e) rest := by
  refine (hvalue fuel (by omega) s hs).bind fun o s ho hs => ?_
  obtain ⟨parsed, rfl, hparsed⟩ := ho
  simp only [arguments_of_standsFor hparsed]
  exact hrest e rfl fuel (by omega) s hs

theorem succeeds_stop {least : Nat} {left : Expr} (hstop : Token.StopsAt least ts.head?) :
    Succeeds limit n scope (.extension least left) ts [left] ts := by
  rintro _ ⟨⟩ fuel hfuel s hs
  obtain ⟨fuel, rfl⟩ : ∃ f, fuel = f + 1 := ⟨fuel - 1, by omega⟩
  rw [extend]
  refine .look hs fun s hs => ?_
  cases ts with
  | nil => exact .pure rfl hs.1
  | cons t ts =>
    obtain ⟨fuel, rfl⟩ : ∃ f, fuel = f + 1 :=
      ⟨fuel - 1, by have := t.weight_pos; simp only [weight_cons] at hfuel; omega⟩
    cases t with
    | operator op =>
      simp only [List.head?_cons, show op.precedence < least from hstop, if_true]
      exact .pure rfl hs.1
    | dollar =>
      simp only [List.head?_cons, show least ≠ Precedence.lowest from hstop, ne_eq,
        not_false_eq_true, if_true]
      exact .pure rfl hs.1
    | _ =>
      refine takes_juxtapose_none ?_ hs.1
      exact hstop

theorem succeeds_binary {least : Nat} {left right e : Expr} {op : BinaryOp}
    (hleast : least ≤ op.precedence)
    (hparen : least = Precedence.lowest → ts.head? ≠ some .rightParen)
    (hlight : weight mid ≤ weight ts)
    (hright : Succeeds limit n scope (.expression op.rightPrecedence) ts [right] mid)
    (hrest : Succeeds limit n scope (.extension least (.binary op left right)) mid [e] rest) :
    Succeeds limit n scope (.extension least left) (.operator op :: ts) [e] rest := by
  rintro _ ⟨⟩ fuel hfuel s hs
  obtain ⟨fuel, rfl⟩ : ∃ f, fuel = f + 1 := ⟨fuel - 1, by omega⟩
  simp only [weight_cons, Token.weight] at hfuel
  rw [extend]
  refine .look hs fun s hs => ?_
  simp only [List.head?_cons, Nat.not_lt.mpr hleast, if_false]
  refine .take hs fun _ s hs => ?_
  have hbinary : ∀ s, s.Ahead ts → Takes limit n (do
      let right ← required "an operand" (expression fuel scope op.rightPrecedence)
      extend fuel scope least (.binary op left right)) s (· = e) rest := by
    intro s hs
    refine (takes_required (hright right rfl fuel (by omega) s hs)).bind fun right' s h hs => ?_
    subst h
    exact hrest e rfl fuel (by omega) s hs
  by_cases hlowest : least = Precedence.lowest
  · simp only [hlowest, if_true]
    refine .look hs fun s hs => ?_
    simp only [hparen hlowest, if_false]
    exact hlowest ▸ hbinary s hs.1
  · simp only [hlowest, if_false]
    exact hbinary s hs

theorem succeeds_leftSection {left : Expr} {op : BinaryOp} :
    Succeeds limit n scope (.extension Precedence.lowest left) (.operator op :: .rightParen :: ts)
      [.leftSection op left] (.rightParen :: ts) := by
  rintro _ ⟨⟩ fuel hfuel s hs
  obtain ⟨fuel, rfl⟩ : ∃ f, fuel = f + 1 := ⟨fuel - 1, by omega⟩
  rw [extend]
  refine .look hs fun s hs => ?_
  simp only [List.head?_cons, Precedence.lowest, Nat.not_lt_zero, if_false]
  refine .take hs fun _ s hs => ?_
  simp only [if_true]
  refine .look hs fun s hs => ?_
  exact .pure rfl hs.1

theorem succeeds_dollar {left argument e : Expr} (hlight : weight mid ≤ weight ts)
    (hargument : Succeeds limit n scope (.expression Precedence.lowest) ts [argument] mid)
    (hrest : Succeeds limit n scope
      (.extension Precedence.lowest (.call left argument)) mid [e] rest) :
    Succeeds limit n scope (.extension Precedence.lowest left) (.dollar :: ts) [e] rest := by
  rintro _ ⟨⟩ fuel hfuel s hs
  obtain ⟨fuel, rfl⟩ : ∃ f, fuel = f + 1 := ⟨fuel - 1, by omega⟩
  simp only [weight_cons, Token.weight] at hfuel
  rw [extend]
  refine .look hs fun s hs => .take hs fun _ s hs => ?_
  refine (takes_required (hargument _ rfl fuel (by omega) s hs)).bind fun argument' s h hs => ?_
  subst h
  exact hrest e rfl fuel (by omega) s hs

theorem succeeds_juxtapose {least : Nat} {left e : Expr} {items : List Expr}
    (hop : ∀ op, ts.head? ≠ some (.operator op)) (hstart : ts.head?.any Token.startsValue = true)
    (hlight : weight mid + 1 ≤ weight ts)
    (hvalue : Succeeds limit n scope .value ts items mid)
    (hrest : Succeeds limit n scope (.extension least (left.callAll items)) mid [e] rest) :
    Succeeds limit n scope (.extension least left) ts [e] rest := by
  rintro _ ⟨⟩ fuel hfuel s hs
  obtain ⟨fuel, rfl⟩ : ∃ f, fuel = f + 1 := ⟨fuel - 1, by omega⟩
  rw [extend]
  refine .look hs fun s hs => ?_
  split
  · next hnil => simp [hnil] at hstart
  · next op hhead => exact absurd hhead (hop op)
  · next hhead => simp [hhead, Token.startsValue] at hstart
  · exact takes_juxtapose (by omega) hlight hvalue hrest hs.1

theorem succeeds_literal {t : Token} {e : Expr} (ht : t.literal? = some e) :
    Succeeds limit n scope .value (t :: ts) [e] ts := by
  intro fuel hfuel s hs
  obtain ⟨fuel, rfl⟩ : ∃ f, fuel = f + 1 := ⟨fuel - 1, by omega⟩
  rw [value]
  refine .look hs fun s hs => ?_
  cases t <;> cases ht <;> exact .take hs fun _ s hs => .pure ⟨_, rfl, rfl⟩ hs

theorem succeeds_name {name : String} {e : Expr} (hlookup : scope.lookup name = some e) :
    Succeeds limit n scope .value (.identifier name :: ts) [e] ts := by
  intro fuel hfuel s hs
  obtain ⟨fuel, rfl⟩ : ∃ f, fuel = f + 1 := ⟨fuel - 1, by omega⟩
  rw [value]
  refine .look hs fun s hs => .take hs fun spanned s hs => ?_
  refine (takes_resolve hlookup hs).bind fun _ s h hs => ?_
  subst h
  exact .pure ⟨_, rfl, rfl⟩ hs

theorem succeeds_template {body : String} {parts : List Fragment}
    (h : Succeeds limit n scope (.pieces (Piece.pieces body)) ts [.interpolated parts] ts) :
    Succeeds limit n scope .value (.template body :: ts) [.interpolated parts] ts := by
  intro fuel hfuel s hs
  obtain ⟨fuel, rfl⟩ : ∃ f, fuel = f + 1 := ⟨fuel - 1, by omega⟩
  simp only [weight_cons, Token.weight] at hfuel
  rw [value]
  refine .look hs fun s hs => .take hs fun spanned s hs => ?_
  obtain ⟨t, location⟩ := spanned
  have hpieces := h parts rfl fuel (by omega) (fun source hsource => by
    have := Piece.length_le_of_mem_cut hsource
    rw [String.length_toList] at this
    omega) location s hs
  refine hpieces.bind fun _ s h hs => ?_
  subst h
  exact .pure ⟨_, rfl, rfl⟩ hs

theorem succeeds_unary {op : UnaryOp} {operand : Expr} (hts : ts ≠ [])
    (h : Succeeds limit n scope .value ts [operand] rest) :
    Succeeds limit (n + 1) scope .value (UnaryOp.token op :: ts) [.unary op operand] rest := by
  intro fuel hfuel s hs
  obtain ⟨fuel, rfl⟩ : ∃ f, fuel = f + 1 := ⟨fuel - 1, by omega⟩
  have := (UnaryOp.token op).weight_pos
  simp only [weight_cons] at hfuel
  obtain ⟨t, ts, rfl⟩ := List.exists_cons_of_ne_nil hts
  rw [value]
  refine .look hs fun s hs => ?_
  cases op <;> refine .take hs fun _ s hs => ?_
  all_goals
    refine (takes_operand hs fun s hs => h fuel (by omega) s hs).bind fun e s he hs => ?_
    subst he
    exact .pure ⟨_, rfl, rfl⟩ hs

theorem succeeds_parens {items : List Expr} (h : Succeeds limit n scope .parens ts items rest) :
    Succeeds limit n scope .value (.leftParen :: ts) items rest := by
  intro fuel hfuel s hs
  obtain ⟨fuel, rfl⟩ : ∃ f, fuel = f + 1 := ⟨fuel - 1, by omega⟩
  simp only [weight_cons, Token.weight] at hfuel
  rw [value]
  refine .look hs fun s hs => .take hs fun _ s hs => ?_
  refine (h fuel (by omega) s hs).bind fun parsed s hparsed hs => ?_
  exact .pure ⟨_, rfl, hparsed⟩ hs

theorem succeeds_emptyList :
    Succeeds limit n scope .value (.leftBracket :: .rightBracket :: ts) [.literal []] ts := by
  intro fuel hfuel s hs
  obtain ⟨fuel, rfl⟩ : ∃ f, fuel = f + 1 := ⟨fuel - 1, by omega⟩
  rw [value]
  refine .look hs fun s hs => .take hs fun _ s hs => ?_
  refine .look hs fun s hs => .take hs fun _ s hs => ?_
  exact .pure ⟨_, rfl, rfl⟩ hs

theorem succeeds_list {e : Expr} (hopen : ts.head? ≠ some .rightBracket)
    (h : Succeeds limit n scope (.elements []) ts [e] rest) :
    Succeeds limit n scope .value (.leftBracket :: ts) [e] rest := by
  intro fuel hfuel s hs
  obtain ⟨fuel, rfl⟩ : ∃ f, fuel = f + 1 := ⟨fuel - 1, by omega⟩
  simp only [weight_cons, Token.weight] at hfuel
  rw [value]
  refine .look hs fun s hs => .take hs fun _ s hs => ?_
  refine .look hs fun s hs => ?_
  simp only [hopen, if_false]
  refine (h e rfl fuel (by omega) s hs.1).bind fun e' s he' hs => ?_
  subst he'
  exact .pure ⟨_, rfl, rfl⟩ hs

theorem succeeds_lambda {names : List String} {body : Expr} (hnames : names ≠ [])
    (h : Succeeds limit n (scope.inside names) (.expression Precedence.lowest) ts [body] rest) :
    Succeeds limit n scope .value (.backslash :: (names.map Token.identifier ++ .arrow :: ts))
      [.lambda (scope.depth + 1) names body] rest := by
  intro fuel hfuel s hs
  obtain ⟨fuel, rfl⟩ : ∃ f, fuel = f + 1 := ⟨fuel - 1, by omega⟩
  have hweight := length_le_weight (names.map Token.identifier)
  rw [List.length_map] at hweight
  simp only [weight_cons, weight_append, Token.weight] at hfuel
  rw [value]
  refine .look hs fun s hs => .take hs fun _ s hs => ?_
  refine (takes_parameters (by omega) (by simpa using hnames) hs).bind fun names' s₁ h' hs₁ => ?_
  obtain rfl : names' = names := h'
  refine (takes_required (h body rfl fuel (by omega) s₁ hs₁)).bind fun body' s₂ h' hs₂ => ?_
  subst h'
  exact .pure ⟨_, rfl, rfl⟩ hs₂

theorem succeeds_conditional {ts₁ ts₂ : List Token} {condition yes no : Expr}
    (hlight₁ : weight ts₁ ≤ weight ts) (hlight₂ : weight ts₂ ≤ weight ts₁)
    (hcondition : Succeeds limit n scope (.expression Precedence.lowest) ts [condition]
      (.thenWord :: ts₁))
    (hyes : Succeeds limit n scope (.expression Precedence.lowest) ts₁ [yes] (.elseWord :: ts₂))
    (hno : Succeeds limit n scope (.expression Precedence.lowest) ts₂ [no] rest) :
    Succeeds limit n scope .value (.ifWord :: ts) [.conditional condition yes no] rest := by
  intro fuel hfuel s hs
  obtain ⟨fuel, rfl⟩ : ∃ f, fuel = f + 1 := ⟨fuel - 1, by omega⟩
  simp only [weight_cons, Token.weight] at hfuel
  rw [value]
  refine .look hs fun s hs => .take hs fun _ s hs => ?_
  have hparts : Takes limit n (conditional (expression fuel scope Precedence.lowest)) s
      (· = .conditional condition yes no) rest := by
    refine (takes_required (hcondition _ rfl fuel (by omega) s hs)).bind fun _ s h hs => ?_
    subst h
    refine .expect (by simp) hs fun _ s hs => ?_
    refine (takes_required (hyes _ rfl fuel (by omega) s hs)).bind fun _ s h hs => ?_
    subst h
    refine .expect (by simp) hs fun _ s hs => ?_
    refine (takes_required (hno _ rfl fuel (by omega) s hs)).bind fun _ s h hs => ?_
    subst h
    exact .pure rfl hs
  refine hparts.bind fun e s he hs => ?_
  subst he
  exact .pure ⟨_, rfl, rfl⟩ hs

theorem succeeds_negation {operand e : Expr} (hts : ts ≠ []) (hlight : weight mid ≤ weight ts)
    (hoperand : Succeeds limit n scope .value ts [operand] mid)
    (hrest : Succeeds limit (n + 1) scope
      (.extension Precedence.lowest (.unary .negate operand)) mid [e] (.rightParen :: rest)) :
    Succeeds limit (n + 1) scope .parens (.operator .sub :: ts) [e] rest := by
  intro fuel hfuel s hs
  obtain ⟨fuel, rfl⟩ : ∃ f, fuel = f + 1 := ⟨fuel - 1, by omega⟩
  simp only [weight_cons, Token.weight] at hfuel
  obtain ⟨t, ts, rfl⟩ := List.exists_cons_of_ne_nil hts
  rw [inParens]
  refine .look hs fun s hs => .take hs fun _ s hs => ?_
  refine (takes_operand hs fun s hs => hoperand fuel (by omega) s hs).bind fun _ s h hs => ?_
  subst h
  refine (hrest e rfl fuel (by omega) s hs).bind fun _ s h hs => ?_
  subst h
  exact .expect (by simp) hs fun _ s hs => .pure rfl hs

theorem succeeds_rightSection {op : BinaryOp} {right : Expr} (hop : op ≠ .sub)
    (h : Succeeds limit n scope (.expression Precedence.lowest) ts [right] (.rightParen :: rest)) :
    Succeeds limit n scope .parens (.operator op :: ts) [.rightSection op right] rest := by
  intro fuel hfuel s hs
  obtain ⟨fuel, rfl⟩ : ∃ f, fuel = f + 1 := ⟨fuel - 1, by omega⟩
  simp only [weight_cons, Token.weight] at hfuel
  rw [inParens]
  refine .look hs fun s hs => ?_
  have hright : ∀ s, s.Looked (.operator op :: ts) → Takes limit n (do
      let _ ← advance
      let right ← required "an operand" (expression fuel scope Precedence.lowest)
      let _ ← Reader.expect .rightParen "')'"
      return .single (.rightSection op right)) s (Parsed.StandsFor
        [.rightSection op right]) rest := by
    intro s hs
    refine .take hs fun _ s hs => ?_
    refine (takes_required (h _ rfl fuel (by omega) s hs)).bind fun _ s h hs => ?_
    subst h
    exact .expect (by simp) hs fun _ s hs => .pure rfl hs
  cases op with
  | sub => exact absurd rfl hop
  | _ => exact hright s hs

/-- In front of a value that is no negation, a parenthesis encloses expressions. -/
theorem takes_inParens {fuel : Nat} {s : TokenStream} {items : List Expr} (hts : ts ≠ [])
    (hop : ∀ op, ts.head? ≠ some (.operator op)) (hs : s.Ahead ts)
    (h : ∀ s, s.Ahead ts → Takes limit n (do
      let first ← required "an expression" (expression fuel scope Precedence.lowest)
      match ← peek with
      | some ⟨.comma, comma⟩ => return Parsed.group (← group fuel scope [first]) comma
      | _ =>
        let _ ← Reader.expect .rightParen "')'"
        return Parsed.single first) s (Parsed.StandsFor items) rest) :
    Takes limit n (inParens (fuel + 1) scope) s (Parsed.StandsFor items) rest := by
  obtain ⟨t, ts, rfl⟩ := List.exists_cons_of_ne_nil hts
  rw [inParens]
  refine .look hs fun s hs => ?_
  cases t with
  | operator op => exact absurd rfl (hop op)
  | _ => exact h s hs.1

theorem succeeds_enclosed {e : Expr} (hts : ts ≠ []) (hop : ∀ op, ts.head? ≠ some (.operator op))
    (h : Succeeds limit n scope (.expression Precedence.lowest) ts [e] (.rightParen :: rest)) :
    Succeeds limit n scope .parens ts [e] rest := by
  intro fuel hfuel s hs
  obtain ⟨fuel, rfl⟩ : ∃ f, fuel = f + 1 := ⟨fuel - 1, by omega⟩
  refine takes_inParens hts hop hs fun s hs => ?_
  refine (takes_required (h e rfl fuel (by omega) s hs)).bind fun _ s h hs => ?_
  subst h
  refine .lookAt hs fun location s hs => ?_
  exact .expect (by simp) hs.1 fun _ s hs => .pure rfl hs

theorem succeeds_grouped {first : Expr} {items : List Expr} (hts : ts ≠ [])
    (hop : ∀ op, ts.head? ≠ some (.operator op)) (hitems : 2 ≤ items.length)
    (hlight : weight (.comma :: mid) ≤ weight ts)
    (hfirst : Succeeds limit n scope (.expression Precedence.lowest) ts [first] (.comma :: mid))
    (hrest : Succeeds limit n scope (.group [first]) (.comma :: mid) items rest) :
    Succeeds limit n scope .parens ts items rest := by
  intro fuel hfuel s hs
  obtain ⟨fuel, rfl⟩ : ∃ f, fuel = f + 1 := ⟨fuel - 1, by omega⟩
  refine takes_inParens hts hop hs fun s hs => ?_
  refine (takes_required (hfirst _ rfl fuel (by omega) s hs)).bind fun _ s h hs => ?_
  subst h
  refine .lookAt hs fun location s hs => ?_
  refine (hrest fuel (by omega) s hs.1).bind fun _ s h hs => ?_
  subst h
  exact .pure ⟨rfl, hitems⟩ hs

theorem succeeds_groupMore {before all : List Expr} {item : Expr} (hlight : weight mid ≤ weight ts)
    (hitem : Succeeds limit n scope (.expression Precedence.lowest) ts [item] mid)
    (hrest : Succeeds limit n scope (.group (item :: before)) mid all rest) :
    Succeeds limit n scope (.group before) (.comma :: ts) all rest := by
  intro fuel hfuel s hs
  obtain ⟨fuel, rfl⟩ : ∃ f, fuel = f + 1 := ⟨fuel - 1, by omega⟩
  simp only [weight_cons, Token.weight] at hfuel
  rw [group]
  refine .look hs fun s hs => .take hs fun _ s hs => ?_
  refine (takes_required (hitem _ rfl fuel (by omega) s hs)).bind fun _ s h hs => ?_
  subst h
  exact hrest fuel (by omega) s hs

theorem succeeds_groupEnd {before : List Expr} :
    Succeeds limit n scope (.group before) (.rightParen :: ts) before.reverse ts := by
  intro fuel hfuel s hs
  obtain ⟨fuel, rfl⟩ : ∃ f, fuel = f + 1 := ⟨fuel - 1, by omega⟩
  rw [group]
  refine .look hs fun s hs => ?_
  exact .expect (by simp) hs.1 fun _ s hs => .pure rfl hs

theorem succeeds_elementsMore {before : List Expr} {item e : Expr}
    (hlight : weight mid + 1 ≤ weight ts)
    (hitem : Succeeds limit n scope (.expression Precedence.lowest) ts [item] (.comma :: mid))
    (hrest : Succeeds limit n scope (.elements (item :: before)) mid [e] rest) :
    Succeeds limit n scope (.elements before) ts [e] rest := by
  rintro _ ⟨⟩ fuel hfuel s hs
  obtain ⟨fuel, rfl⟩ : ∃ f, fuel = f + 1 := ⟨fuel - 1, by omega⟩
  rw [elements]
  refine (takes_required (hitem _ rfl fuel (by omega) s hs)).bind fun _ s h hs => ?_
  subst h
  refine .lookAt hs fun location s hs => .take hs fun _ s hs => ?_
  exact hrest e rfl fuel (by omega) s hs

theorem succeeds_elementsEnd {before : List Expr} {item : Expr}
    (hitem : Succeeds limit n scope (.expression Precedence.lowest) ts [item]
      (.rightBracket :: rest)) :
    Succeeds limit n scope (.elements before) ts [.literal (item :: before).reverse] rest := by
  rintro _ ⟨⟩ fuel hfuel s hs
  obtain ⟨fuel, rfl⟩ : ∃ f, fuel = f + 1 := ⟨fuel - 1, by omega⟩
  rw [elements]
  refine (takes_required (hitem _ rfl fuel (by omega) s hs)).bind fun _ s h hs => ?_
  subst h
  exact .lookAt hs fun location s hs => .take hs fun _ s hs => .pure rfl hs

/-- The dots of a range, with what stands behind them read by `reader`. -/
theorem succeeds_dots {before : List Expr} {item e : Expr} {stop : Option Expr}
    (hrange : Expr.rangeOf? stop (item :: before).reverse = some e)
    (hitem : Succeeds limit n scope (.expression Precedence.lowest) ts [item] (.dots :: mid))
    (hstop : ∀ fuel, 3 * weight ts + 2 ≤ fuel → ∀ s, s.Ahead mid →
      Takes limit n (expression fuel scope Precedence.lowest) s (· = stop)
        (.rightBracket :: rest)) :
    Succeeds limit n scope (.elements before) ts [e] rest := by
  rintro _ ⟨⟩ fuel hfuel s hs
  obtain ⟨fuel, rfl⟩ : ∃ f, fuel = f + 1 := ⟨fuel - 1, by omega⟩
  rw [elements]
  refine (takes_required (hitem _ rfl fuel (by omega) s hs)).bind fun _ s h hs => ?_
  subst h
  refine .lookAt hs fun location s hs => ?_
  have hbound : ∀ items : List Expr, Expr.rangeOf? stop items = some e → items.length ≤ 2 := by
    intro items hitems
    match items with
    | [] | [_] | [_, _] => simp
    | _ :: _ :: _ :: _ => cases hitems
  have hlength := hbound _ hrange
  rw [List.length_reverse] at hlength
  simp only [Nat.not_lt.mpr hlength, if_false]
  refine .take hs fun _ s hs => ?_
  refine (hstop fuel (by omega) s hs).bind fun _ s h hs => ?_
  subst h
  refine .expect (by simp) hs fun _ s hs => ?_
  generalize (_ :: before).reverse = items at hrange
  match items with
  | [] => cases hrange
  | [start] =>
    cases hrange
    exact .pure rfl hs
  | [start, second] =>
    cases hrange
    exact .pure rfl hs
  | _ :: _ :: _ :: _ => cases hrange

theorem succeeds_rangeOpen {before : List Expr} {item e : Expr} (hn : 0 < n)
    (hts : 0 < weight ts)
    (hitem : Succeeds limit n scope (.expression Precedence.lowest) ts [item]
      (.dots :: .rightBracket :: rest))
    (hrange : Expr.rangeOf? none (item :: before).reverse = some e) :
    Succeeds limit n scope (.elements before) ts [e] rest := by
  refine succeeds_dots hrange hitem fun fuel hfuel s hs => ?_
  obtain ⟨n, rfl⟩ : ∃ m, n = m + 1 := ⟨n - 1, by omega⟩
  obtain ⟨fuel, rfl⟩ : ∃ f, fuel = f + 2 := ⟨fuel - 2, by omega⟩
  rw [expression]
  refine .deeper hs fun s hs => ?_
  refine (takes_value_none (by rfl) hs).bind fun _ s h hs => ?_
  subst h
  exact .pure rfl hs

theorem succeeds_rangeClosed {before : List Expr} {item stop e : Expr}
    (hlight : weight mid ≤ weight ts)
    (hitem : Succeeds limit n scope (.expression Precedence.lowest) ts [item] (.dots :: mid))
    (hstop : Succeeds limit n scope (.expression Precedence.lowest) mid [stop]
      (.rightBracket :: rest))
    (hrange : Expr.rangeOf? (some stop) (item :: before).reverse = some e) :
    Succeeds limit n scope (.elements before) ts [e] rest :=
  succeeds_dots hrange hitem fun fuel hfuel s hs => hstop stop rfl fuel (by omega) s hs

theorem succeeds_noPiece : Succeeds limit n scope (.pieces []) ts [.interpolated []] ts := by
  rintro _ ⟨⟩ fuel hfuel - location s hs
  obtain ⟨fuel, rfl⟩ : ∃ f, fuel = f + 1 := ⟨fuel - 1, by omega⟩
  rw [fragments]
  exact .pure rfl hs

theorem succeeds_textPiece {text : String} {pieces : List Piece} {parts : List Fragment}
    (h : Succeeds limit n scope (.pieces pieces) ts [.interpolated parts] ts) :
    Succeeds limit n scope (.pieces (.text text :: pieces)) ts [.interpolated (.text text :: parts)]
      ts := by
  rintro _ ⟨⟩ fuel hfuel hsources location s hs
  obtain ⟨fuel, rfl⟩ : ∃ f, fuel = f + 1 := ⟨fuel - 1, by omega⟩
  have hpieces := h parts rfl _ hfuel (fun source hsource => hsources source (by simp [hsource]))
    location
  rw [fragments] at hpieces ⊢
  rw [List.mapM_cons]
  exact takes_piece (.pure rfl hs) hpieces

theorem succeeds_namePiece {name : String} {e : Expr} {pieces : List Piece} {parts : List Fragment}
    (hlookup : scope.lookup name = some e)
    (h : Succeeds limit n scope (.pieces pieces) ts [.interpolated parts] ts) :
    Succeeds limit n scope (.pieces (.name name :: pieces)) ts
      [.interpolated (.embedded e :: parts)] ts := by
  rintro _ ⟨⟩ fuel hfuel hsources location s hs
  obtain ⟨fuel, rfl⟩ : ∃ f, fuel = f + 1 := ⟨fuel - 1, by omega⟩
  have hpieces := h parts rfl _ hfuel (fun source hsource => hsources source (by simp [hsource]))
    location
  rw [fragments] at hpieces ⊢
  rw [List.mapM_cons]
  exact takes_piece (takes_embed (takes_resolve hlookup hs)) hpieces

theorem succeeds_sourcePiece {source : String} {tokens : List Token} {e : Expr}
    {pieces : List Piece} {parts : List Fragment} (hlexes : Lexes source.toList tokens)
    (hsource : Succeeds limit limit scope (.expression Precedence.lowest) tokens [e] [])
    (h : Succeeds limit n scope (.pieces pieces) ts [.interpolated parts] ts) :
    Succeeds limit n scope (.pieces (.source source :: pieces)) ts
      [.interpolated (.embedded e :: parts)] ts := by
  rintro _ ⟨⟩ fuel hfuel hsources location s hs
  obtain ⟨fuel, rfl⟩ : ∃ f, fuel = f + 1 := ⟨fuel - 1, by omega⟩
  have hpieces := h parts rfl _ hfuel (fun source hsource => hsources source (by simp [hsource]))
    location
  have hembedded : Reaches limit (TokenStream.embedded source location
      (complete (expression fuel scope Precedence.lowest))) e := by
    have hfuel' := hsources source (by simp)
    have hweight := weight_le_of_lexes hlexes
    rw [String.length_toList] at hweight
    have hrun := takes_complete (hsource e rfl fuel (by omega) (ofSource source) hlexes)
    unfold Takes at hrun
    unfold TokenStream.embedded
    split at hrun
    · next e' s hrun' =>
      rw [hrun']
      exact hrun.2.1
    · next cause s hrun' =>
      rw [hrun']
      refine ⟨.embedded hrun.1 _, fun hfits => hrun.2.1 ⟨hfits, ?_⟩⟩
      simpa [ofSource] using hfits
  rw [fragments] at hpieces ⊢
  rw [List.mapM_cons]
  exact takes_piece (takes_embed (takes_ofExcept hembedded hs)) hpieces

end Rules

/-- **Every reader finds every phrase of the grammar**, up to the bound on nesting. -/
theorem takes_of_reads {limit n scope phrase ts items rest}
    (h : Reads limit n scope phrase ts items rest) :
    Succeeds limit n scope phrase ts items rest := by
  -- a phrase that takes a token has one ahead
  have hne : ∀ {n scope phrase ts items rest}, Reads limit n scope phrase ts items rest →
      phrase.leastWeight = 1 → ts ≠ [] := by
    rintro n scope phrase ts items rest hreads hleast rfl
    have := hreads.weight_le
    simp only [hleast, weight_nil] at this
    omega
  induction h with
  | expression hfirst _ ih₁ ih₂ =>
    exact succeeds_expression (hne hfirst rfl) hfirst.weight_le ih₁ ih₂
  | stop hstop => exact succeeds_stop hstop
  | binary hleast hparen hright _ ih₁ ih₂ =>
    exact succeeds_binary hleast hparen (Nat.le_of_succ_le hright.weight_le) ih₁ ih₂
  | leftSection => exact succeeds_leftSection
  | dollar hargument _ ih₁ ih₂ =>
    exact succeeds_dollar (Nat.le_of_succ_le hargument.weight_le) ih₁ ih₂
  | juxtapose hop hvalue _ ih₁ ih₂ =>
    exact succeeds_juxtapose hop hvalue.startsValue hvalue.weight_le ih₁ ih₂
  | literal ht => exact succeeds_literal ht
  | name hlookup => exact succeeds_name hlookup
  | template _ ih => exact succeeds_template ih
  | unary hoperand ih => exact succeeds_unary (hne hoperand rfl) ih
  | parens _ ih => exact succeeds_parens ih
  | emptyList => exact succeeds_emptyList
  | list hopen _ ih => exact succeeds_list hopen ih
  | lambda hnames _ ih => exact succeeds_lambda hnames ih
  | conditional hcondition hyes _ ih₁ ih₂ ih₃ =>
    have h₁ := hcondition.weight_le
    have h₂ := hyes.weight_le
    simp only [weight_cons] at h₁ h₂
    exact succeeds_conditional (by omega) (by omega) ih₁ ih₂ ih₃
  | negation hoperand _ ih₁ ih₂ =>
    exact succeeds_negation (hne hoperand rfl) (Nat.le_of_succ_le hoperand.weight_le) ih₁ ih₂
  | rightSection hop _ ih => exact succeeds_rightSection hop ih
  | enclosed hop hexpr ih => exact succeeds_enclosed (hne hexpr rfl) hop ih
  | grouped hop hfirst hrest ih₁ ih₂ =>
    have hlength : ∀ {first mid items rest n scope}, Reads limit n scope (.group [first])
        (.comma :: mid) items rest → 2 ≤ items.length := by
      intro first mid items rest n scope hgroup
      cases hgroup with
      | groupMore _ hmore => exact hmore.length_le_of_group
    exact succeeds_grouped (hne hfirst rfl) hop (hlength hrest)
      (Nat.le_of_succ_le hfirst.weight_le) ih₁ ih₂
  | groupMore hitem _ ih₁ ih₂ =>
    exact succeeds_groupMore (Nat.le_of_succ_le hitem.weight_le) ih₁ ih₂
  | groupEnd => exact succeeds_groupEnd
  | elementsMore hitem _ ih₁ ih₂ =>
    have hlight := hitem.weight_le
    simp only [weight_cons, Token.weight, Phrase.leastWeight] at hlight
    exact succeeds_elementsMore (by omega) ih₁ ih₂
  | elementsEnd _ ih => exact succeeds_elementsEnd ih
  | rangeOpen hitem hrange ih =>
    have hlight := hitem.weight_le
    simp only [Phrase.leastWeight] at hlight
    cases hitem with
    | expression => exact succeeds_rangeOpen (by omega) (by omega) ih hrange
  | rangeClosed hitem hstop hrange ih₁ ih₂ =>
    have hlight := hitem.weight_le
    simp only [weight_cons] at hlight
    exact succeeds_rangeClosed (by omega) ih₁ ih₂ hrange
  | noPiece => exact succeeds_noPiece
  | textPiece _ ih => exact succeeds_textPiece ih
  | namePiece hlookup _ ih => exact succeeds_namePiece hlookup ih
  | sourcePiece hlexes _ _ ih₁ ih₂ => exact succeeds_sourcePiece hlexes ih₁ ih₂

end Reader

/-! ## 6. Whole texts -/

/-- **A text of the grammar is read**, and gives what the grammar says, unless its levels, or those
of an expression in one of its strings, are more than the bound. -/
theorem parseIn_of_reads {limit n : Nat} {scope : Scope} {source : String}
    {ts : List Token} {e : Expr} (hlexes : Lexes source.toList ts)
    (hreads : Reads limit n scope (.expression Precedence.lowest) ts [e] []) :
    parseIn scope source = .ok e ∨
      ∃ error, parseIn scope source = .error error ∧ error.IsNestingLimit ∧
        ¬(limit ≤ maxNesting ∧ n ≤ maxNesting) ∧ (limit ≤ maxNesting → error.IsTooDeep) := by
  have hweight := weight_le_of_lexes hlexes
  rw [String.length_toList] at hweight
  have hrun := Reader.takes_complete (Reader.takes_of_reads hreads e rfl (readingFuel source)
    (by unfold readingFuel; omega) (.ofSource source) hlexes)
  unfold Reader.Takes at hrun
  unfold parseIn
  split at hrun
  · next e' s hrun' =>
    rw [hrun']
    exact .inl (congrArg _ hrun.2.1)
  · next error s hrun' =>
    rw [hrun']
    refine .inr ⟨error, rfl, hrun.1, fun hfits => hrun.2.1 ⟨hfits.1, ?_⟩, hrun.2.2⟩
    simpa [TokenStream.ofSource] using hfits.2

/-- Within the nesting limit, what the grammar reads is read. -/
theorem parseIn_eq_ok {limit n : Nat} {scope : Scope} {source : String} {ts : List Token} {e : Expr}
    (hlexes : Lexes source.toList ts)
    (hreads : Reads limit n scope (.expression Precedence.lowest) ts [e] [])
    (hlimit : limit ≤ maxNesting) (hn : n ≤ maxNesting) : parseIn scope source = .ok e :=
  (parseIn_of_reads hlexes hreads).resolve_right fun ⟨_, _, _, h, _⟩ => h ⟨hlimit, hn⟩

/-- Where the expressions in strings keep to the bound, the text itself is what exceeds it. -/
theorem parseIn_eq_ok_or_tooDeep {n : Nat} {scope : Scope} {source : String}
    {ts : List Token} {e : Expr} (hlexes : Lexes source.toList ts)
    (hreads : Reads maxNesting n scope (.expression Precedence.lowest) ts [e] []) :
    parseIn scope source = .ok e ∨
      ∃ error, parseIn scope source = .error error ∧ error.IsTooDeep ∧ maxNesting < n := by
  obtain hok | ⟨error, herror, -, hexceeds, hown⟩ := parseIn_of_reads hlexes hreads
  · exact .inl hok
  · exact .inr ⟨error, herror, hown le_rfl, Nat.not_le.mp fun hn => hexceeds ⟨le_rfl, hn⟩⟩

end LazyExpr
