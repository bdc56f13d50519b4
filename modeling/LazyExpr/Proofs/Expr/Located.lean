import LazyExpr.Expr.Reader
import LazyExpr.Proofs.Token.Places

/-!
# Errors stand in the text

A reader may give up long after it has taken the token that it complains about: a comma is refused
when its group turns out to stand where a single value has to, and a string when one of its embedded
expressions cannot be read.  Still, every place that an error names is that of some characters of
the text.

* `Location.StandsIn`: the location is that of some characters of a text.
* `Reader.Blames`: what one step of reading preserves.  The places of the tokens that were looked
  at, or taken, go along with its result.
* `Reader.blamesAt`: all readers blame places in the text, by induction on the fuel.
* `standsIn_of_parseIn`: **the place of an error is a place in the text.**
-/

namespace LazyExpr

/-! ## 1. Places in a text -/

/-- The location is that of some characters of the text. -/
def Location.StandsIn (l : Location) (cs : List Char) : Prop :=
  ∃ before text behind, cs = before ++ text ++ behind ∧ l.Between before text behind

/-- If the error names a place, it is one in the text. -/
def ParseError.StandsIn (e : ParseError) (cs : List Char) : Prop := ∀ l ∈ e.location?, l.StandsIn cs

/-- A group remembers the place of its first comma. -/
def Parsed.StandsIn (parsed : Parsed) (cs : List Char) : Prop :=
  match parsed with
  | .single _ => True
  | .group _ comma => comma.StandsIn cs

variable {cs : List Char}

theorem ParseError.standsIn_of_location {e : ParseError} {l : Location} (he : e.location? = some l)
    (hl : l.StandsIn cs) : e.StandsIn cs := by
  intro l' hl'
  rw [he] at hl'
  cases hl'
  exact hl

namespace Point

/-- The point stands in the text, or has nothing left to read. -/
def Within (p : Point) (cs : List Char) : Prop :=
  p.rest = [] ∨ ∃ before, cs = before ++ p.rest ∧ p.At before

theorem within_ofSource (source : String) : (ofSource source).Within source.toList :=
  .inr ⟨[], rfl, at_ofSource source⟩

variable {p : Point}

/-- Where nothing is next, nothing is left. -/
theorem rest_of_next_none {q : Point} (h : p.next = (.ok none, q)) : q.rest = [] := by
  fun_induction Point.next p with
  | case1 =>
    cases h
    rfl
  | case2 _ _ _ _ _ _ _ _ _ _ ih => exact ih h
  | case3 _ _ _ _ _ _ _ _ _ ih => exact ih h
  | case4 => cases h
  | case5 => cases h

/-- What is next at a point of the text stands in the text, and so does the point behind it. -/
theorem Within.next (h : p.Within cs) : match p.next with
    | (.ok found, q) => q.Within cs ∧ ∀ spanned ∈ found, spanned.location.StandsIn cs
    | (.error e, _) => e.StandsIn cs := by
  rcases h with hrest | ⟨before, hcs, hat⟩
  · rw [next_of_nil hrest]
    exact ⟨.inl hrest, nofun⟩
  · have hfinds := finds_next hat
    generalize hnext : p.next = found at hfinds
    cases hfinds with
    | ended => exact ⟨.inl (rest_of_next_none hnext), nofun⟩
    | @item item l gap text q hrest _ hplace hl hq =>
      rw [hrest, ← List.append_assoc, ← List.append_assoc] at hcs
      have hstands : l.StandsIn cs := ⟨_, text, q.rest, hcs, hl⟩
      cases item with
      | ok spanned =>
        refine ⟨.inr ⟨_, hcs, hq⟩, ?_⟩
        rintro _ ⟨⟩
        exact Option.some.inj hplace ▸ hstands
      | error e => exact ParseError.standsIn_of_location hplace hstands

end Point

/-- The stream stands in the text, and so does the token that waits. -/
structure TokenStream.Within (s : TokenStream) (cs : List Char) : Prop where
  point : s.point.Within cs
  pending : ∀ spanned ∈ s.pending, spanned.location.StandsIn cs

theorem TokenStream.within_ofSource (source : String) : (ofSource source).Within source.toList :=
  ⟨Point.within_ofSource source, nofun⟩

namespace Reader

open TokenStream

/-! ## 2. Steps of reading -/

/-- `Blames cs p P`: from a stream in the text `cs`, `p` returns something with `P` and leaves the
stream in the text, or it fails with an error that stands in the text. -/
def Blames {α : Type} (cs : List Char) (p : Parse α) (P : α → Prop) : Prop :=
  ∀ s, s.Within cs → match p s with
    | .ok a s' => s'.Within cs ∧ P a
    | .error e _ => e.StandsIn cs

namespace Blames

variable {α β : Type} {p : Parse α} {P P' : α → Prop} {Q : β → Prop}

theorem pure {a : α} (h : P a) : Blames cs (Pure.pure a) P := fun _ hs => ⟨hs, h⟩

theorem throw {e : ParseError} (he : e.StandsIn cs) : Blames cs (MonadExcept.throw e : Parse α) P :=
  fun _ _ => he

/-- Giving up at a place in the text. -/
theorem throwAt {e : ParseError} {l : Location} (he : e.location? = some l) (hl : l.StandsIn cs) :
    Blames cs (MonadExcept.throw e : Parse α) P := .throw (ParseError.standsIn_of_location he hl)

theorem bind {f : α → Parse β} (hp : Blames cs p P) (hf : ∀ a, P a → Blames cs (f a) Q) :
    Blames cs (p >>= f) Q := by
  intro s hs
  have hfirst := hp s hs
  simp only [Bind.bind, EStateM.bind]
  cases hrun : p s with
  | ok a s' =>
    rw [hrun] at hfirst
    exact hf a hfirst.2 s' hfirst.1
  | error e s' =>
    rw [hrun] at hfirst
    exact hfirst

theorem imp (hp : Blames cs p P) (h : ∀ a, P a → P' a) : Blames cs p P' := by
  intro s hs
  have hrun := hp s hs
  split at hrun
  · exact ⟨hrun.1, h _ hrun.2⟩
  · exact hrun

/-- What comes next does not ask for what was returned. -/
theorem andThen {f : α → Parse β} (hp : Blames cs p P) (hf : ∀ a, Blames cs (f a) Q) :
    Blames cs (p >>= f) Q := hp.bind fun a _ => hf a

end Blames

section Operations

variable {α : Type} {P : α → Prop}

theorem blames_peek : Blames cs peek fun found =>
    ∀ spanned ∈ found, spanned.location.StandsIn cs := by
  intro s hs
  obtain ⟨source, point, pending, nesting⟩ := s
  cases pending with
  | some spanned => exact ⟨hs, hs.pending⟩
  | none =>
    have hnext := hs.point.next
    simp only [peek]
    rcases h : point.next with ⟨e | found, q⟩
    · simp only [h] at hnext
      exact hnext
    · simp only [h] at hnext
      exact ⟨⟨hnext.1, hnext.2⟩, hnext.2⟩

theorem blames_peekToken : Blames cs peekToken fun _ => True :=
  blames_peek.andThen fun _ => .pure trivial

theorem blames_advance : Blames cs advance fun spanned => spanned.location.StandsIn cs := by
  intro s hs
  obtain ⟨source, point, pending, nesting⟩ := s
  cases pending with
  | some spanned => exact ⟨⟨hs.point, nofun⟩, hs.pending spanned rfl⟩
  | none => exact nofun

theorem blames_missing {description : String} : Blames cs (missing description) P := by
  refine blames_peek.bind fun found hfound => ?_
  cases found with
  | none => exact .throw nofun
  | some spanned => exact .throwAt rfl (hfound spanned rfl)

theorem blames_expect {token : Token} {description : String} :
    Blames cs (expect token description) fun _ => True := by
  refine blames_peek.bind fun found hfound => ?_
  cases found with
  | none => exact .throw nofun
  | some spanned =>
    by_cases hagrees : spanned.token.agrees token = true
    · simp only [hagrees, if_true]
      exact blames_advance.imp fun _ _ => trivial
    · simp only [hagrees]
      exact .throwAt rfl (hfound spanned rfl)

theorem blames_ofExcept {x : Except ParseError α} (h : ∀ e, x = .error e → e.StandsIn cs) :
    Blames cs (MonadExcept.ofExcept x) fun _ => True := by
  cases x with
  | ok a => exact .pure trivial
  | error e => exact .throw (h e rfl)

theorem blames_descend : Blames cs descend fun _ => True := by
  intro s hs
  by_cases hlt : s.nesting < maxNesting
  · rw [descend_of_lt hlt]
    exact ⟨⟨hs.point, hs.pending⟩, trivial⟩
  · have hpeek := blames_peek s hs
    simp only [descend, Bind.bind, EStateM.bind, get, getThe, MonadStateOf.get,
      EStateM.get, hlt, if_false]
    cases hrun : peek s with
    | error e s' =>
      rw [hrun] at hpeek
      exact hpeek
    | ok found s' =>
      rw [hrun] at hpeek
      cases found with
      | none =>
        intro l hl
        cases hl
      | some spanned => exact ParseError.standsIn_of_location rfl (hpeek.2 spanned rfl)

theorem blames_deeper {body : Parse α} (h : Blames cs body P) : Blames cs (deeper body) P := by
  intro s hs
  have hdescend := blames_descend s hs
  unfold deeper
  cases hrun : descend s with
  | error e s' =>
    rw [hrun] at hdescend
    exact hdescend
  | ok _ s' =>
    rw [hrun] at hdescend
    have hbody := h s' hdescend.1
    cases hrun' : body s' with
    | error e s'' =>
      rw [hrun'] at hbody
      simpa only [hrun'] using hbody
    | ok a s'' =>
      rw [hrun'] at hbody
      simp only [hrun']
      exact ⟨⟨hbody.1.point, hbody.1.pending⟩, hbody.2⟩

end Operations

/-! ## 3. Parts of the readers -/

/-- A value that may be missing. -/
def FoundIn (cs : List Char) (found : Option Parsed) : Prop := ∀ parsed ∈ found, parsed.StandsIn cs

section Parts

variable {reader : Parse (Option Expr)} {description : String}

theorem blames_toSingle {parsed : Parsed} (h : parsed.StandsIn cs) :
    Blames cs (toSingle parsed) fun _ => True := by
  cases parsed with
  | single e => exact .pure trivial
  | group items comma => exact .throwAt rfl h

theorem blames_required (h : Blames cs reader fun _ => True) :
    Blames cs (required description reader) fun _ => True := by
  refine h.andThen fun found => ?_
  cases found with
  | none => exact blames_missing
  | some e => exact .pure trivial

theorem blames_complete (h : Blames cs reader fun _ => True) :
    Blames cs (complete reader) fun _ => True := by
  refine h.andThen fun found => ?_
  cases found with
  | none =>
    refine blames_peek.bind fun next hnext => ?_
    cases next with
    | none => exact .throw nofun
    | some spanned => exact .throwAt rfl (hnext spanned rfl)
  | some e =>
    refine blames_peek.bind fun next hnext => ?_
    cases next with
    | none => exact .pure trivial
    | some spanned => exact .throwAt rfl (hnext spanned rfl)

theorem blames_operand {op : UnaryOp} {reader : Parse (Option Parsed)}
    (h : Blames cs reader (FoundIn cs)) : Blames cs (operand op reader) fun _ => True := by
  refine (blames_deeper h).bind fun found hfound => ?_
  cases found with
  | none => exact blames_missing
  | some parsed => exact (blames_toSingle (hfound parsed rfl)).andThen fun _ => .pure trivial

theorem blames_conditional (h : Blames cs reader fun _ => True) :
    Blames cs (conditional reader) fun _ => True := by
  refine (blames_required h).andThen fun condition => blames_expect.andThen fun _ => ?_
  refine (blames_required h).andThen fun yes => blames_expect.andThen fun _ => ?_
  exact (blames_required h).andThen fun no => .pure trivial

theorem blames_parameters (inner : Scope) (depth fuel : Nat) (names : List String) :
    Blames cs (parameters inner depth fuel names) fun _ => True := by
  induction fuel generalizing names with
  | zero => exact .throw nofun
  | succ fuel ih =>
    unfold parameters
    refine blames_peek.bind fun found hfound => ?_
    split
    · exact blames_advance.andThen fun _ => ih _
    · next location =>
      cases names with
      | nil => exact .throwAt rfl (hfound _ rfl)
      | cons name names => exact blames_advance.andThen fun _ => .pure trivial
    · exact blames_missing

theorem blames_range {items : List Expr} (h : Blames cs reader fun _ => True) :
    Blames cs (range items reader) fun _ => True := by
  refine h.andThen fun stop => blames_expect.andThen fun _ => ?_
  split
  · exact .pure trivial
  · exact .pure trivial
  · exact .throw nofun

theorem blames_resolve {scope : Scope} {name : String} {l : Location} (hl : l.StandsIn cs) :
    Blames cs (Reading.resolve scope name l) fun _ => True := by
  refine blames_ofExcept fun e h => ?_
  unfold Scope.resolve at h
  split at h
  · cases h
  · cases h
    exact ParseError.standsIn_of_location rfl hl

theorem blames_embedded {source : String} {l : Location} {reader : Parse Expr}
    (hl : l.StandsIn cs) : Blames cs (Reading.embedded source l reader) fun _ => True := by
  refine blames_ofExcept fun e h => ?_
  unfold TokenStream.embedded at h
  split at h
  · cases h
  · cases h
    exact ParseError.standsIn_of_location rfl hl

theorem blames_mapM {α β : Type} {f : α → Parse β} (h : ∀ a, Blames cs (f a) fun _ => True)
    (xs : List α) : Blames cs (xs.mapM f) fun _ => True := by
  induction xs with
  | nil => exact .pure trivial
  | cons x xs ih =>
    rw [List.mapM_cons]
    exact (h x).andThen fun _ => ih.andThen fun _ => .pure trivial

theorem blames_embed {reader : Parse Expr} (h : Blames cs reader fun _ => True) :
    Blames cs (Fragment.embedded <$> reader) fun _ => True := by
  rw [map_eq_pure_bind]
  exact h.andThen fun _ => .pure trivial

/-- The pieces of an interpolated string are blamed on the string: an embedded text has places of
its own. -/
theorem blames_fragments {scope : Scope} {l : Location} (hl : l.StandsIn cs) (fuel : Nat)
    (pieces : List Piece) : Blames cs (fragments fuel scope l pieces) fun _ => True := by
  cases fuel with
  | zero => exact .throw nofun
  | succ fuel =>
    rw [fragments]
    refine blames_mapM (fun piece => ?_) pieces
    cases piece with
    | text text => exact .pure trivial
    | name name => exact blames_embed (blames_resolve hl)
    | source source => exact blames_embed (blames_embedded hl)
    | unclosed => exact .throwAt rfl hl

end Parts

/-! ## 4. The readers -/

/-- With so much fuel, all readers blame places in the text. -/
structure BlamesAt (cs : List Char) (fuel : Nat) : Prop where
  expression (scope : Scope) (least : Nat) : Blames cs (expression fuel scope least) fun _ => True
  extend (scope : Scope) (least : Nat) (left : Expr) :
    Blames cs (extend fuel scope least left) fun _ => True
  value (scope : Scope) : Blames cs (value fuel scope) (FoundIn cs)
  inParens (scope : Scope) : Blames cs (inParens fuel scope) (Parsed.StandsIn · cs)
  group (scope : Scope) (items : List Expr) : Blames cs (group fuel scope items) fun _ => True
  elements (scope : Scope) (items : List Expr) : Blames cs (elements fuel scope items) fun _ => True

theorem blames_some {p : Parse Parsed} (h : Blames cs p (Parsed.StandsIn · cs)) :
    Blames cs (do return some (← p)) (FoundIn cs) := by
  refine h.bind fun parsed hparsed => .pure ?_
  rintro _ ⟨⟩
  exact hparsed

/-- A single value has no place that could be blamed. -/
theorem foundIn_single (e : Expr) : FoundIn cs (some (.single e)) := by
  rintro _ ⟨⟩
  exact trivial

theorem blames_single {p : Parse Expr} (h : Blames cs p fun _ => True) :
    Blames cs (do return some (.single (← p))) (FoundIn cs) :=
  h.andThen fun e => .pure (foundIn_single e)

/-- What stands in parentheses is there once they are closed. -/
theorem blames_closing {α : Type} {P : α → Prop} {a : α} (h : P a) :
    Blames cs (do let _ ← expect .rightParen "')'"; return a) P :=
  blames_expect.andThen fun _ => .pure h

section Step

variable {fuel : Nat} (ih : BlamesAt cs fuel)
include ih

theorem BlamesAt.expression_succ (scope : Scope) (least : Nat) :
    Blames cs (Reader.expression (fuel + 1) scope least) fun _ => True := by
  rw [Reader.expression]
  refine blames_deeper ((ih.value scope).bind fun found hfound => ?_)
  cases found with
  | none => exact .pure trivial
  | some parsed =>
    refine (blames_toSingle (hfound parsed rfl)).andThen fun first => ?_
    exact (ih.extend scope least first).andThen fun e => .pure trivial

theorem BlamesAt.extend_succ (scope : Scope) (least : Nat) (left : Expr) :
    Blames cs (Reader.extend (fuel + 1) scope least left) fun _ => True := by
  rw [Reader.extend]
  refine blames_peekToken.andThen fun token => ?_
  split
  · exact .pure trivial
  · next op =>
    have hbinary : Blames cs (do
        let right ← required "an operand" (Reader.expression fuel scope op.rightPrecedence)
        Reader.extend fuel scope least (.binary op left right)) fun _ => True :=
      (blames_required (ih.expression scope _)).andThen fun right => ih.extend scope least _
    split
    · exact .pure trivial
    · refine blames_advance.andThen fun _ => ?_
      split
      · refine blames_peekToken.andThen fun next => ?_
        split
        · exact .pure trivial
        · exact hbinary
      · exact hbinary
  · split
    · exact .pure trivial
    · refine blames_advance.andThen fun _ => ?_
      exact (blames_required (ih.expression scope _)).andThen fun argument =>
        ih.extend scope least _
  · refine (ih.value scope).andThen fun found => ?_
    cases found with
    | none => exact .pure trivial
    | some parsed => exact ih.extend scope least _

theorem BlamesAt.value_succ (scope : Scope) :
    Blames cs (Reader.value (fuel + 1) scope) (FoundIn cs) := by
  rw [Reader.value]
  have hliteral : ∀ e : Expr, Blames cs (do let _ ← advance; return some (Parsed.single e))
    (FoundIn cs) :=
    fun e => blames_advance.andThen fun _ => .pure (foundIn_single e)
  refine blames_peekToken.andThen fun token => ?_
  split
  · exact hliteral _
  · exact hliteral _
  · exact hliteral _
  · exact hliteral _
  · exact hliteral _
  · refine blames_advance.bind fun spanned hl => ?_
    refine (blames_fragments hl _ _).andThen fun fragments => ?_
    exact .pure (foundIn_single _)
  · refine blames_advance.bind fun spanned hl => ?_
    exact blames_single (blames_resolve hl)
  · exact blames_advance.andThen fun _ => blames_single (blames_operand (ih.value scope))
  · exact blames_advance.andThen fun _ => blames_single (blames_operand (ih.value scope))
  · exact blames_advance.andThen fun _ => blames_some (ih.inParens scope)
  · refine blames_advance.andThen fun _ => blames_peekToken.andThen fun next => ?_
    split
    · exact hliteral _
    · exact blames_single (ih.elements scope [])
  · refine blames_advance.andThen fun _ => (blames_parameters _ _ fuel []).andThen fun names => ?_
    refine (blames_required (ih.expression _ _)).andThen fun body => ?_
    exact .pure (foundIn_single _)
  · exact blames_advance.andThen fun _ => blames_single (blames_conditional (ih.expression scope _))
  all_goals exact .pure nofun

theorem BlamesAt.inParens_succ (scope : Scope) :
    Blames cs (Reader.inParens (fuel + 1) scope) (Parsed.StandsIn · cs) := by
  rw [Reader.inParens]
  refine blames_peekToken.andThen fun token => ?_
  split
  · exact .throw nofun
  · refine blames_advance.andThen fun _ =>
      (blames_operand (ih.value scope)).andThen fun negated => ?_
    exact (ih.extend scope _ _).andThen fun e => blames_closing trivial
  · refine blames_advance.andThen fun _ => ?_
    exact (blames_required (ih.expression scope _)).andThen fun right => blames_closing trivial
  · refine (blames_required (ih.expression scope _)).andThen fun first => ?_
    refine blames_peek.bind fun found hfound => ?_
    split
    · exact (ih.group scope _).andThen fun items => .pure (hfound _ rfl)
    · exact blames_closing trivial

theorem BlamesAt.group_succ (scope : Scope) (items : List Expr) :
    Blames cs (Reader.group (fuel + 1) scope items) fun _ => True := by
  rw [Reader.group]
  refine blames_peekToken.andThen fun token => ?_
  split
  · refine blames_advance.andThen fun _ => ?_
    exact (blames_required (ih.expression scope _)).andThen fun item => ih.group scope _
  · exact blames_closing trivial

theorem BlamesAt.elements_succ (scope : Scope) (items : List Expr) :
    Blames cs (Reader.elements (fuel + 1) scope items) fun _ => True := by
  rw [Reader.elements]
  refine (blames_required (ih.expression scope _)).andThen fun item => ?_
  refine blames_peek.bind fun found hfound => ?_
  split
  · exact blames_advance.andThen fun _ => ih.elements scope _
  · exact blames_advance.andThen fun _ => .pure trivial
  · have hrange : Blames cs (do
        let _ ← advance
        range (item :: items).reverse
          (Reader.expression fuel scope Precedence.lowest)) fun _ => True :=
      blames_advance.andThen fun _ => blames_range (ih.expression scope _)
    split
    · exact .throwAt rfl (hfound _ rfl)
    · exact hrange
  · exact blames_missing

end Step

/-- **All readers blame places in the text**, whatever their fuel. -/
theorem blamesAt (cs : List Char) (fuel : Nat) : BlamesAt cs fuel := by
  induction fuel with
  | zero =>
    exact {
      expression := fun _ _ => .throw nofun
      extend := fun _ _ _ => .throw nofun
      value := fun _ => .throw nofun
      inParens := fun _ => .throw nofun
      group := fun _ _ => .throw nofun
      elements := fun _ _ => .throw nofun }
  | succ fuel ih =>
    exact {
      expression := ih.expression_succ
      extend := ih.extend_succ
      value := ih.value_succ
      inParens := ih.inParens_succ
      group := ih.group_succ
      elements := ih.elements_succ }

end Reader

/-- **The place of an error is a place in the text.** -/
theorem standsIn_of_parseIn {scope : Scope} {source : String} {e : ParseError}
    (h : parseIn scope source = .error e) : e.StandsIn source.toList := by
  have hblames := Reader.blames_complete
    ((Reader.blamesAt source.toList (readingFuel source)).expression scope Precedence.lowest)
    (.ofSource source) (TokenStream.within_ofSource source)
  unfold parseIn at h
  split at h
  · cases h
  · next hrun =>
    cases h
    rw [hrun] at hblames
    exact hblames

end LazyExpr
