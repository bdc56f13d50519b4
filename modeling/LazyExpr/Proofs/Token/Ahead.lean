import Mathlib
import LazyExpr.Token.Stream

/-!
# The tokens ahead

What a stream still has to give is a list of tokens, as long as no error lies ahead.  Readers are
compared with that list and never with points of the text.

* `Lexes cs ts`: the characters `cs` are the tokens `ts`, with white space and comments between
  them.
* `TokenStream.Ahead s ts`: the stream `s` will give `ts`, the token it has looked at included.
* `peek` and `advance` each have a lemma that says what they do to the tokens ahead
  (`peek_of_ahead`, `advance_of_ahead`) and one that reads a success backward (`ahead_of_peek`,
  `ahead_of_advance`).
-/

namespace LazyExpr

/-! ## 1. The tokens of a text -/

/-- `Lexes cs ts`: the characters are these tokens, and nothing in them is an error. -/
inductive Lexes : List Char → List Token → Prop where
  | nil : Lexes [] []
  /-- White space, a comment or a line feed is passed over. -/
  | pass {c : Char} {cs : List Char} {lexeme : Lexeme} {taken : Nat} {ts : List Token}
      (hscan : Lexeme.scan c cs = (lexeme, taken))
      (hpass : lexeme = .skipped ∨ lexeme = .lineFeed) (hrest : Lexes (cs.drop taken) ts) :
      Lexes (c :: cs) ts
  | token {c : Char} {cs : List Char} {t : Token} {taken : Nat} {ts : List Token}
      (hscan : Lexeme.scan c cs = (.token t, taken)) (hrest : Lexes (cs.drop taken) ts) :
      Lexes (c :: cs) (t :: ts)

/-- Passing over a lexeme leads to a point from which the same is next. -/
theorem Point.next_of_pass {p : Point} {c : Char} {cs : List Char} {lexeme : Lexeme} {taken : Nat}
    (hp : p.rest = c :: cs) (hscan : Lexeme.scan c cs = (lexeme, taken))
    (hpass : lexeme = .skipped ∨ lexeme = .lineFeed) :
    ∃ q : Point, q.rest = cs.drop taken ∧ p.next = q.next := by
  obtain ⟨rest, line, column, lineText⟩ := p
  subst hp
  let here : Point := ⟨c :: cs, line, column, lineText⟩
  rcases hpass with rfl | rfl
  · refine ⟨here.skip (c :: cs.take taken) (cs.drop taken), rfl, ?_⟩
    rw [Point.next, hscan]
  · refine ⟨here.newLine (cs.drop taken), rfl, ?_⟩
    rw [Point.next, hscan]

/-- A token at a point is next there. -/
theorem Point.next_of_token {p : Point} {c : Char} {cs : List Char} {t : Token} {taken : Nat}
    (hp : p.rest = c :: cs) (hscan : Lexeme.scan c cs = (.token t, taken)) :
    ∃ (l : Location) (q : Point), q.rest = cs.drop taken ∧ p.next = (.ok (some ⟨t, l⟩), q) := by
  obtain ⟨rest, line, column, lineText⟩ := p
  subst hp
  refine ⟨_, _, ?_, by rw [Point.next, hscan]⟩
  rfl

/-- At the end of the text nothing is next. -/
theorem Point.next_of_nil {p : Point} (hp : p.rest = []) : p.next = (.ok none, p) := by
  obtain ⟨rest, line, column, lineText⟩ := p
  subst hp
  rw [Point.next]

/-- A text without tokens has nothing next. -/
theorem Point.next_of_lexes_nil {p : Point} (h : Lexes p.rest []) :
    ∃ q : Point, q.rest = [] ∧ p.next = (.ok none, q) := by
  generalize hcs : p.rest = cs at h
  generalize hts : ([] : List Token) = ts at h
  induction h generalizing p with
  | nil => exact ⟨p, hcs, next_of_nil hcs⟩
  | pass hscan hpass _ ih =>
    obtain ⟨q, hq, hnext⟩ := next_of_pass hcs hscan hpass
    rw [hnext]
    exact ih hq hts
  | token => cases hts

/-- The first token of a text is next. -/
theorem Point.next_of_lexes_cons {p : Point} {t : Token} {ts : List Token}
    (h : Lexes p.rest (t :: ts)) :
    ∃ (l : Location) (q : Point), Lexes q.rest ts ∧ p.next = (.ok (some ⟨t, l⟩), q) := by
  generalize hcs : p.rest = cs at h
  generalize hts : t :: ts = us at h
  induction h generalizing p with
  | nil => cases hts
  | pass hscan hpass _ ih =>
    obtain ⟨q, hq, hnext⟩ := next_of_pass hcs hscan hpass
    rw [hnext]
    exact ih hq hts
  | token hscan hrest =>
    obtain ⟨rfl, rfl⟩ := List.cons.inj hts
    obtain ⟨l, q, hq, hnext⟩ := next_of_token hcs hscan
    exact ⟨l, q, hq ▸ hrest, hnext⟩

/-- Read backward: what is next at a point comes before the tokens behind it. -/
theorem Point.lexes_of_next {p q : Point} {o : Option Spanned} (h : p.next = (.ok o, q)) :
    match o with
    | none => Lexes p.rest [] ∧ q.rest = []
    | some spanned => ∀ ts, Lexes q.rest ts → Lexes p.rest (spanned.token :: ts) := by
  -- by strong induction on what is left of the text: a lexeme that is passed over shortens it
  generalize hn : p.rest.length = n
  induction n using Nat.strongRecOn generalizing p with
  | _ n ih =>
    match hp : p.rest with
    | [] =>
      rw [next_of_nil hp] at h
      cases h
      exact ⟨.nil, hp⟩
    | c :: cs =>
      rcases hscan : Lexeme.scan c cs with ⟨lexeme, taken⟩
      by_cases hpass : lexeme = .skipped ∨ lexeme = .lineFeed
      · obtain ⟨q', hq', hnext⟩ := next_of_pass hp hscan hpass
        rw [hnext] at h
        have hlt : q'.rest.length < n := by
          simp only [hp, List.length_cons] at hn
          simp only [hq', List.length_drop]
          omega
        have hrec := ih _ hlt h rfl
        cases o with
        | none => exact ⟨.pass hscan hpass (hq' ▸ hrec.1), hrec.2⟩
        | some => exact fun ts hts => .pass hscan hpass (hq' ▸ hrec ts hts)
      · cases lexeme with
        | skipped => exact absurd (Or.inl rfl) hpass
        | lineFeed => exact absurd (Or.inr rfl) hpass
        | token t =>
          obtain ⟨l, q', hq', hnext⟩ := next_of_token hp hscan
          rw [hnext] at h
          cases h
          exact fun ts hts => .token hscan (hq' ▸ hts)
        | error e =>
          obtain ⟨rest, line, column, lineText⟩ := p
          subst hp
          rw [Point.next, hscan] at h
          cases h

/-- Tokens other than decimals agree only with themselves. -/
theorem Token.agrees_iff {t token : Token} (htoken : ∀ d, token ≠ .decimal d) :
    t.agrees token = true ↔ t = token := by
  cases token with
  | decimal d => exact absurd rfl (htoken d)
  | _ => cases t <;> simp [Token.agrees]

/-! ## 2. The tokens ahead of a stream -/

namespace TokenStream

/-- `s.Ahead ts`: the stream will give the tokens `ts` and then end. -/
def Ahead (s : TokenStream) (ts : List Token) : Prop :=
  match s.pending with
  | some spanned => ∃ rest, ts = spanned.token :: rest ∧ Lexes s.point.rest rest
  | none => Lexes s.point.rest ts

theorem ahead_ofSource {source : String} {ts : List Token} :
    (ofSource source).Ahead ts ↔ Lexes source.toList ts := Iff.rfl

/-! ## 3. What the operations do to the tokens ahead -/

/-- Looking at a stream shows its first token and keeps what lies ahead. -/
theorem peek_of_ahead {s : TokenStream} {ts : List Token} (h : s.Ahead ts) :
    ∃ s' : TokenStream, peek s = .ok s'.pending s' ∧ s'.pending.map Spanned.token = ts.head? ∧
      s'.Ahead ts ∧ s'.nesting = s.nesting := by
  obtain ⟨source, point, pending, nesting⟩ := s
  cases pending with
  | some spanned =>
    obtain ⟨rest, rfl, hrest⟩ := h
    exact ⟨⟨source, point, some spanned, nesting⟩, rfl, rfl, ⟨rest, rfl, hrest⟩, rfl⟩
  | none =>
    cases ts with
    | nil =>
      obtain ⟨q, hq, hnext⟩ := Point.next_of_lexes_nil h
      refine ⟨⟨source, q, none, nesting⟩, by simp only [peek, hnext], rfl, ?_, rfl⟩
      simp only [Ahead, hq]
      exact .nil
    | cons t ts =>
      obtain ⟨l, q, hq, hnext⟩ := Point.next_of_lexes_cons h
      exact ⟨⟨source, q, some ⟨t, l⟩, nesting⟩, by simp only [peek, hnext], rfl, ⟨ts, rfl, hq⟩, rfl⟩

/-- Taking a token that was looked at leaves the tokens behind it. -/
theorem advance_of_ahead {s : TokenStream} {spanned : Spanned} {t : Token} {ts : List Token}
    (h : s.Ahead (t :: ts)) (hpending : s.pending = some spanned) :
    ∃ s' : TokenStream, advance s = .ok spanned s' ∧ spanned.token = t ∧ s'.Ahead ts ∧
      s'.nesting = s.nesting := by
  obtain ⟨source, point, pending, nesting⟩ := s
  obtain rfl : pending = some spanned := hpending
  obtain ⟨rest, hts, hrest⟩ := h
  obtain ⟨rfl, rfl⟩ := List.cons.inj hts
  exact ⟨_, rfl, rfl, hrest, rfl⟩

/-- Below the bound, the next level is entered. -/
theorem descend_of_lt {s : TokenStream} (h : s.nesting < maxNesting) :
    descend s = .ok () { s with nesting := s.nesting + 1 } := by
  simp only [descend, Bind.bind, EStateM.bind, get, getThe, MonadStateOf.get,
    EStateM.get, h, if_true, set, EStateM.set]

/-- At the bound, the token ahead is where the nesting is too deep. -/
theorem descend_of_ge {s : TokenStream} {t : Token} {ts : List Token} (hs : s.Ahead (t :: ts))
    (h : maxNesting ≤ s.nesting) :
    ∃ (l : Location) (s' : TokenStream), descend s = .error (.nestingTooDeep maxNesting l) s' := by
  obtain ⟨s', hrun, hhead, -, -⟩ := peek_of_ahead hs
  obtain ⟨spanned, hpending, -⟩ := Option.map_eq_some_iff.mp hhead
  refine ⟨spanned.location, s', ?_⟩
  simp only [descend, Bind.bind, EStateM.bind, get, getThe, MonadStateOf.get, EStateM.get,
    Nat.not_lt.mpr h, if_false, hrun, hpending]
  rfl

/-- Read backward: a look that succeeds shows the first token of what lies ahead. -/
theorem ahead_of_peek {s s' : TokenStream} {o : Option Spanned} (h : peek s = .ok o s') :
    s'.pending = o ∧ s'.nesting = s.nesting ∧
      ∀ ts, s'.Ahead ts → s.Ahead ts ∧ o.map Spanned.token = ts.head? := by
  obtain ⟨source, point, pending, nesting⟩ := s
  cases pending with
  | some spanned =>
    cases h
    refine ⟨rfl, rfl, fun ts hts => ⟨hts, ?_⟩⟩
    obtain ⟨rest, rfl, -⟩ := hts
    rfl
  | none =>
    simp only [peek] at h
    split at h
    · next next q hnext =>
      cases h
      refine ⟨rfl, rfl, fun ts hts => ?_⟩
      have hlex := Point.lexes_of_next hnext
      cases o with
      | none =>
        obtain ⟨hnil, hq⟩ := hlex
        simp only [Ahead, hq] at hts
        cases hts
        exact ⟨hnil, rfl⟩
      | some spanned =>
        obtain ⟨rest, rfl, hrest⟩ := hts
        exact ⟨hlex rest hrest, rfl⟩
    · cases h

/-- A look that shows no token stands at the end. -/
theorem ahead_nil_of_peek {s s' : TokenStream} (h : peek s = .ok none s') : s'.Ahead [] := by
  obtain ⟨source, point, pending, nesting⟩ := s
  cases pending with
  | some spanned => cases h
  | none =>
    simp only [peek] at h
    split at h
    · next next q hnext =>
      cases h
      obtain ⟨-, hq⟩ := Point.lexes_of_next hnext
      simp only [Ahead, hq]
      exact .nil
    · cases h

/-- Read backward: a level is entered only below the bound. -/
theorem lt_of_descend {s s' : TokenStream} (h : descend s = .ok () s') :
    s.nesting < maxNesting ∧ s' = { s with nesting := s.nesting + 1 } := by
  by_cases hlt : s.nesting < maxNesting
  · rw [descend_of_lt hlt] at h
    cases h
    exact ⟨hlt, rfl⟩
  · exfalso
    simp only [descend, Bind.bind, EStateM.bind, get, getThe, MonadStateOf.get, EStateM.get, hlt,
      if_false] at h
    split at h
    · next o _ _ => cases o <;> cases h
    · cases h

/-- Read backward: the token that was taken came first. -/
theorem ahead_of_advance {s s' : TokenStream} {spanned : Spanned}
    (h : advance s = .ok spanned s') :
    s.pending = some spanned ∧ s'.nesting = s.nesting ∧
      ∀ ts, s'.Ahead ts → s.Ahead (spanned.token :: ts) := by
  obtain ⟨source, point, pending, nesting⟩ := s
  cases pending with
  | some spanned' =>
    cases h
    exact ⟨rfl, rfl, fun ts hts => ⟨ts, rfl, hts⟩⟩
  | none => cases h

end TokenStream

end LazyExpr
