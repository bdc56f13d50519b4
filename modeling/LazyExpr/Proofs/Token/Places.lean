import Mathlib
import LazyExpr.Proofs.Token.Lines
import LazyExpr.Proofs.Token.Spelling

/-!
# Where tokens stand

A stream is read to its end by looking at what is next and taking it, again and again; an error is
left behind by looking further.  What comes out are tokens and errors, each with the stretch of text
that it stands for, and nothing of the source is left out but white space and comments.

Lines are counted where a line feed is passed over, and columns wherever characters are.  That both
stay right is the invariant of a point (`Point.At`): it says what the line, the column and the text
of the line are behind given characters, and is kept by every lexeme, because only a line feed has a
line feed in it (`scan_oneLine`).

* `Gap rest gap`: the characters `gap`, in front of `rest`, are white space and comments.
* `Location.Between`: what a location says of a text and of what stands before and behind it.
* `Point.finds_next` — from a point on, a gap and then a token or an error at its place come next.
* `places_cover` — **the places are exact, and they cover the source** up to gaps.
-/

namespace LazyExpr

/-! ## 1. Reading to the end -/

namespace TokenStream

/-- What looking and taking give until nothing is next: tokens and errors, as they stand in the
text. -/
inductive Gives : TokenStream → List (Except ParseError Spanned) → Prop where
  | ended {s s' : TokenStream} (hpeek : peek s = .ok none s') : Gives s []
  | token {s s' s'' : TokenStream} {next taken : Spanned} {items : List (Except ParseError Spanned)}
      (hpeek : peek s = .ok (some next) s') (hadvance : advance s' = .ok taken s'')
      (hrest : Gives s'' items) : Gives s (.ok taken :: items)
  | error {s s' : TokenStream} {e : ParseError} {items : List (Except ParseError Spanned)}
      (hpeek : peek s = .error e s') (hrest : Gives s' items) : Gives s (.error e :: items)

/-- A stream gives one row of tokens and errors. -/
theorem Gives.unique {s : TokenStream} {items items' : List (Except ParseError Spanned)}
    (h : s.Gives items) (h' : s.Gives items') : items' = items := by
  induction h generalizing items' with
  | ended hpeek =>
    cases h' with
    | ended => rfl
    | token hpeek' => cases hpeek.symm.trans hpeek'
    | error hpeek' => cases hpeek.symm.trans hpeek'
  | token hpeek hadvance _ ih =>
    cases h' with
    | ended hpeek' => cases hpeek.symm.trans hpeek'
    | token hpeek' hadvance' hrest =>
      cases hpeek.symm.trans hpeek'
      cases hadvance.symm.trans hadvance'
      rw [ih hrest]
    | error hpeek' => cases hpeek.symm.trans hpeek'
  | error hpeek _ ih =>
    cases h' with
    | ended hpeek' => cases hpeek.symm.trans hpeek'
    | token hpeek' => cases hpeek.symm.trans hpeek'
    | error hpeek' hrest =>
      cases hpeek.symm.trans hpeek'
      rw [ih hrest]

end TokenStream

/-- The place of a token or an error. -/
def placeOf : Except ParseError Spanned → Option Location
  | .ok spanned => some spanned.location
  | .error e => e.location?

/-! ## 2. Gaps -/

/-- `Gap rest gap`: the characters `gap` in front of `rest` are white space and comments. A comment
goes on to the end of its line. -/
inductive Gap (rest : List Char) : List Char → Prop where
  | nil : Gap rest []
  | blank {c : Char} {gap : List Char} (hc : c ∈ blanks) (hgap : Gap rest gap) : Gap rest (c :: gap)
  | comment {text gap : List Char} (htext : '\n' ∉ text)
      (hend : (gap ++ rest).head? = none ∨ (gap ++ rest).head? = some '\n') (hgap : Gap rest gap) :
      Gap rest ('-' :: '-' :: (text ++ gap))

theorem Gap.append {rest gap gap' : List Char} (h : Gap (gap' ++ rest) gap) (h' : Gap rest gap') :
    Gap rest (gap ++ gap') := by
  induction h with
  | nil => exact h'
  | blank hc _ ih => exact .blank hc ih
  | comment htext hend _ ih =>
    rw [List.cons_append, List.cons_append, List.append_assoc]
    exact .comment htext (by rwa [List.append_assoc]) ih

theorem gap_of_blanks {rest spaces : List Char} (h : ∀ c ∈ spaces, c ∈ blanks) :
    Gap rest spaces := by
  induction spaces with
  | nil => exact .nil
  | cons c spaces ih => exact .blank (h c (by simp)) (ih fun d hd => h d (by simp [hd]))

/-! ## 3. What is passed over -/

namespace Lexeme

/-- Whether a lexeme is no token and no error. -/
def isPassed : Lexeme → Bool
  | skipped | lineFeed => true
  | token _ | error _ => false

theorem isPassed_scanString (make : String → Token) (opened : Nat) (cs : List Char) :
    (scanString make opened cs).1.isPassed = false := by
  unfold scanString
  split <;> rfl

theorem isPassed_integerOfDigits (digits : List Char) :
    (integerOfDigits digits).isPassed = false := by
  unfold integerOfDigits
  split <;> rfl

theorem isPassed_decimalOfDigits (whole fraction : List Char) :
    (decimalOfDigits whole fraction).isPassed = false := by
  unfold decimalOfDigits
  split <;> rfl

theorem isPassed_scanNumber (c : Char) (cs : List Char) : (scanNumber c cs).1.isPassed = false := by
  unfold scanNumber
  split
  · simp only
    split
    · exact isPassed_integerOfDigits _
    · exact isPassed_decimalOfDigits _ _
  · exact isPassed_integerOfDigits _

theorem isPassed_scanSign (c : Char) (cs : List Char) : (scanSign c cs).1.isPassed = false := by
  unfold scanSign
  split
  · rfl
  · split <;> rfl

/-- `Passes c cs lexeme taken`: the white space or the comment that starts with `c`. -/
inductive Passes (c : Char) (cs : List Char) : Lexeme → Nat → Prop where
  | lineFeed (hc : c = '\n') : Passes c cs .lineFeed 0
  | spaces (hc : isSpace c = true) : Passes c cs .skipped (cs.takeWhile isSpace).length
  | comment (hc : c = '-') (hnext : cs.head? = some '-') :
      Passes c cs .skipped (cs.takeWhile (· ≠ '\n')).length

/-- **All that a scan passes over.** -/
theorem passes_of_scan {c : Char} {cs : List Char} {lexeme : Lexeme} {taken : Nat}
    (h : scan c cs = (lexeme, taken)) (hpassed : lexeme.isPassed = true) :
    Passes c cs lexeme taken := by
  -- no other scanner passes over anything
  have hno : ∀ {r : Lexeme × Nat}, r.1.isPassed = false → r = (lexeme, taken) →
    Passes c cs lexeme taken := by
    rintro _ hr rfl
    rw [hpassed] at hr
    cases hr
  unfold scan at h
  split at h
  · next hc =>
    cases h
    exact .lineFeed hc
  split at h
  · next hc =>
    cases h
    exact .spaces hc
  split at h
  · next hc =>
    cases h
    exact .comment hc.1 hc.2
  split at h
  · exact hno (isPassed_scanString _ _ _) h
  split at h
  · exact hno (isPassed_scanString _ _ _) h
  split at h
  · exact hno (isPassed_scanNumber _ _) h
  split at h
  · exact hno rfl h
  · exact hno (isPassed_scanSign _ _) h

theorem mem_blanks_of_isSpace {c : Char} (h : isSpace c = true) : c ∈ blanks := by
  simp only [isSpace, Bool.or_eq_true, decide_eq_true_eq] at h
  rcases h with ((rfl | rfl) | rfl) | rfl <;> decide

/-- What is passed over is a gap. -/
theorem Passes.gap {c : Char} {cs : List Char} {lexeme : Lexeme} {taken : Nat}
    (h : Passes c cs lexeme taken) : Gap (cs.drop taken) (c :: cs.take taken) := by
  cases h with
  | lineFeed hc =>
    subst hc
    exact .blank (by decide) .nil
  | spaces hc =>
    rw [take_length_takeWhile]
    refine .blank (mem_blanks_of_isSpace hc) (gap_of_blanks fun d hd => ?_)
    exact mem_blanks_of_isSpace (List.mem_takeWhile_imp hd)
  | comment hc hnext =>
    subst hc
    obtain ⟨text, rfl⟩ := List.head?_eq_some_iff.mp hnext
    rw [take_length_takeWhile, drop_length_takeWhile, List.takeWhile_cons_of_pos (by decide),
      List.dropWhile_cons_of_pos (by decide)]
    have hend := List.head?_dropWhile_not (· ≠ '\n') text
    rw [← List.append_nil (text.takeWhile (· ≠ '\n'))]
    refine .comment (fun hmem => ?_) ?_ .nil
    · simpa using List.mem_takeWhile_imp hmem
    · rw [List.nil_append]
      cases hhead : (text.dropWhile (· ≠ '\n')).head? with
      | none => exact .inl rfl
      | some d =>
        rw [hhead] at hend
        simpa using hend

/-- **Only a line feed has a line feed in it.** -/
theorem scan_oneLine {c : Char} {cs : List Char} {lexeme : Lexeme} {taken : Nat}
    (h : scan c cs = (lexeme, taken)) (hlexeme : lexeme ≠ .lineFeed) :
    '\n' ∉ c :: cs.take taken := by
  have hc : c ≠ '\n' := by
    rintro rfl
    cases h
    exact hlexeme rfl
  have hcs : '\n' ∉ cs.take taken := by
    intro hmem
    -- the lexeme is the same without what is behind the first line feed, and ends there
    obtain ⟨line, rest, rfl, hline⟩ := List.eq_append_cons_of_mem (List.mem_of_mem_take hmem)
    rw [scan_newline] at h
    have hle := scan_le c line
    rw [h] at hle
    rw [List.take_append_of_le_length hle] at hmem
    exact hline (List.mem_of_mem_take hmem)
  simp [hc.symm, hcs]

end Lexeme

/-! ## 4. Lines and columns -/

theorem foldl_utf8Size (cs : List Char) (bytes : Nat) :
    cs.foldl (fun bytes c => bytes + c.utf8Size) bytes = bytes + byteLength cs := by
  unfold byteLength
  induction cs generalizing bytes with
  | nil => rfl
  | cons c cs ih =>
    rw [List.foldl_cons, List.foldl_cons, ih, ih (0 + c.utf8Size), Nat.zero_add, Nat.add_assoc]

@[simp] theorem byteLength_append (cs ds : List Char) :
    byteLength (cs ++ ds) = byteLength cs + byteLength ds := by
  rw [byteLength, List.foldl_append, foldl_utf8Size ds]
  rfl

theorem byteLength_cons (c : Char) (cs : List Char) :
    byteLength (c :: cs) = c.utf8Size + byteLength cs := by
  rw [byteLength, List.foldl_cons, foldl_utf8Size, Nat.zero_add]

theorem utf8ByteSize_ofList (cs : List Char) : (String.ofList cs).utf8ByteSize = byteLength cs := by
  induction cs with
  | nil => rfl
  | cons c cs ih =>
    rw [String.ofList_cons, String.utf8ByteSize_append, String.utf8ByteSize_singleton, ih,
      byteLength_cons]

/-- The characters up to the last line feed, with it. -/
def linesOf (cs : List Char) : List Char := (cs.reverse.dropWhile (· ≠ '\n')).reverse

/-- The characters behind the last line feed. -/
def lastLine (cs : List Char) : List Char := (cs.reverse.takeWhile (· ≠ '\n')).reverse

theorem linesOf_append_lastLine (cs : List Char) : linesOf cs ++ lastLine cs = cs := by
  rw [linesOf, lastLine, ← List.reverse_append, List.takeWhile_append_dropWhile,
    List.reverse_reverse]

/-- The last line takes up the bytes that the lines before it leave. -/
theorem byteLength_lastLine (cs : List Char) :
    byteLength cs - byteLength (linesOf cs) = byteLength (lastLine cs) := by
  have hsplit := congrArg byteLength (linesOf_append_lastLine cs)
  rw [byteLength_append] at hsplit
  rw [← hsplit, Nat.add_sub_cancel_left]

/-- No character of one line is a line feed, in the form that `takeWhile` and `dropWhile` ask
for. -/
theorem decide_ne_lineFeed {text : List Char} (h : '\n' ∉ text) :
    ∀ c ∈ text, decide (c ≠ '\n') = true :=
  fun _ hc => decide_eq_true fun heq => h (heq ▸ hc)

theorem lastLine_append {cs text : List Char} (h : '\n' ∉ text) :
    lastLine (cs ++ text) = lastLine cs ++ text := by
  have htext : '\n' ∉ text.reverse := by rwa [List.mem_reverse]
  rw [lastLine, List.reverse_append, List.takeWhile_append_of_pos (decide_ne_lineFeed htext),
    List.reverse_append, List.reverse_reverse]
  rfl

theorem lastLine_newline (cs : List Char) : lastLine (cs ++ ['\n']) = [] := by
  simp [lastLine]

/-- What a location says of a text that has these characters before and behind it. -/
structure Location.Between (l : Location) (before text behind : List Char) : Prop where
  nonempty : text ≠ []
  oneLine : '\n' ∉ text
  text_eq : l.text = String.ofList text
  length_eq : l.length = byteLength text
  line_eq : l.line = 1 + before.count '\n'
  column_eq : l.column = byteLength before - byteLength (linesOf before) + 1
  lineText_eq : l.lineText = String.ofList (lastLine before ++ text ++ behind.takeWhile (· ≠ '\n'))

namespace Point

variable {p : Point} {before text rest : List Char}

/-- The point stands behind these characters. -/
structure At (p : Point) (before : List Char) : Prop where
  line : p.line = 1 + before.count '\n'
  column : p.column = byteLength (lastLine before) + 1
  lineText : p.lineText = String.ofList (lastLine before ++ p.rest.takeWhile (· ≠ '\n'))

theorem at_ofSource (source : String) : (ofSource source).At [] := ⟨rfl, rfl, rfl⟩

/-- Characters of one line move the point along the line. -/
theorem At.skip (h : p.At before) (hrest : p.rest = text ++ rest) (htext : '\n' ∉ text) :
    (p.skip text rest).At (before ++ text) := by
  refine ⟨?_, ?_, ?_⟩
  · rw [List.count_append, List.count_eq_zero_of_not_mem htext, Nat.add_zero]
    exact h.line
  · rw [lastLine_append htext, byteLength_append, Nat.add_right_comm, ← h.column]
    rfl
  · rw [lastLine_append htext, List.append_assoc, ← List.takeWhile_append_of_pos
      (decide_ne_lineFeed htext)]
    exact hrest ▸ h.lineText

/-- A line feed moves the point to the start of the next line. -/
theorem At.newLine (h : p.At before) (rest : List Char) :
    (p.newLine rest).At (before ++ ['\n']) := by
  refine ⟨?_, ?_, ?_⟩
  · rw [List.count_append, List.count_singleton_self, ← Nat.add_assoc, ← h.line]
    rfl
  · rw [lastLine_newline]
    rfl
  · rw [lastLine_newline]
    rfl

/-- Characters of one line are located where they stand. -/
theorem At.locate (h : p.At before) (hrest : p.rest = text ++ rest) (htext : '\n' ∉ text)
    (hne : text ≠ []) : (p.locate text).Between before text rest where
  nonempty := hne
  oneLine := htext
  text_eq := rfl
  length_eq := utf8ByteSize_ofList text
  line_eq := h.line
  column_eq := by
    rw [byteLength_lastLine]
    exact h.column
  lineText_eq := by
    rw [List.append_assoc, ← List.takeWhile_append_of_pos (decide_ne_lineFeed htext), ← hrest]
    exact h.lineText

/-! ## 5. What is next at a point -/

section Next

variable {q : Point} {c : Char} {cs : List Char} {taken : Nat}

/-- What is passed over moves the point, along the line or to the next one. -/
theorem next_of_passes {lexeme : Lexeme} (hp : p.rest = c :: cs)
    (hscan : Lexeme.scan c cs = (lexeme, taken)) (hpassed : lexeme.isPassed = true)
    (h : p.At before) :
    ∃ q : Point, q.rest = cs.drop taken ∧ q.At (before ++ c :: cs.take taken) ∧
    p.next = q.next := by
  have hrest : p.rest = (c :: cs.take taken) ++ cs.drop taken := by
    rw [hp, List.cons_append, List.take_append_drop]
  cases lexeme with
  | token t => cases hpassed
  | error e => cases hpassed
  | skipped =>
    refine ⟨p.skip (c :: cs.take taken) (cs.drop taken), rfl,
      h.skip hrest (Lexeme.scan_oneLine hscan (by simp)), ?_⟩
    obtain ⟨_, line, column, lineText⟩ := p
    subst hp
    rw [Point.next, hscan]
  | lineFeed =>
    cases Lexeme.passes_of_scan hscan hpassed with
    | lineFeed hc =>
      subst hc
      refine ⟨p.newLine cs, rfl, h.newLine cs, ?_⟩
      obtain ⟨_, line, column, lineText⟩ := p
      subst hp
      rw [Point.next, hscan]
      rfl

/-- The text of an error is located where it stands. -/
theorem location?_toParseError (e : LexError) (first : Char) (l : Location) :
    (e.toParseError first l).location? = some l := by
  cases e <;> rfl

/-- What is not passed over is next where it stands, and the point moves behind it. -/
theorem next_of_not_isPassed {lexeme : Lexeme} (hp : p.rest = c :: cs)
    (hscan : Lexeme.scan c cs = (lexeme, taken)) (hpassed : lexeme.isPassed = false) :
    ∃ item : Except ParseError Spanned, placeOf item = some (p.locate (c :: cs.take taken)) ∧
      p.next = (item.map some, p.skip (c :: cs.take taken) (cs.drop taken)) := by
  obtain ⟨_, line, column, lineText⟩ := p
  subst hp
  cases lexeme with
  | skipped => cases hpassed
  | lineFeed => cases hpassed
  | token t =>
    refine ⟨.ok ⟨t, _⟩, rfl, ?_⟩
    rw [Point.next, hscan]
    rfl
  | error e =>
    refine ⟨.error (e.toParseError c _), location?_toParseError e c _, ?_⟩
    rw [Point.next, hscan]
    rfl

/-- What is next at a point behind the characters `before`: nothing but a gap, or a gap and then a
token or an error at its place, with the point behind its text. -/
inductive Finds (p : Point) (before : List Char) :
    Except ParseError (Option Spanned) × Point → Prop where
  | ended {q : Point} (hgap : Gap [] p.rest) : Finds p before (.ok none, q)
  | item {item : Except ParseError Spanned} {l : Location} {gap text : List Char} {q : Point}
      (hrest : p.rest = gap ++ (text ++ q.rest)) (hgap : Gap (text ++ q.rest) gap)
      (hplace : placeOf item = some l) (hl : l.Between (before ++ gap) text q.rest)
      (hq : q.At (before ++ gap ++ text)) : Finds p before (item.map some, q)

/-- A gap in front changes nothing. -/
theorem Finds.behind {found : Except ParseError (Option Spanned) × Point} {gap : List Char}
    (h : q.Finds (before ++ gap) found) (hp : p.rest = gap ++ q.rest) (hgap : Gap q.rest gap) :
    p.Finds before found := by
  cases h with
  | ended hend =>
    refine .ended ?_
    rw [hp]
    refine Gap.append ?_ hend
    rwa [List.append_nil]
  | item hrest hgap' hplace hl hat =>
    rw [List.append_assoc before] at hl hat
    refine .item ?_ (Gap.append ?_ hgap') hplace hl hat
    · rw [hp, hrest, List.append_assoc gap]
    · rwa [← hrest]

/-- **What is next at a point comes behind a gap, at its place, and moves the point behind its
text.** -/
theorem finds_next (h : p.At before) : p.Finds before p.next := by
  -- by strong induction on what is left of the text, which every lexeme shortens
  generalize hn : p.rest.length = n
  induction n using Nat.strongRecOn generalizing p before with
  | _ n ih =>
    match hp : p.rest with
    | [] =>
      rw [next_of_nil hp]
      refine .ended ?_
      rw [hp]
      exact .nil
    | c :: cs =>
      rcases hscan : Lexeme.scan c cs with ⟨lexeme, taken⟩
      have hrest : p.rest = (c :: cs.take taken) ++ cs.drop taken := by
        rw [hp, List.cons_append, List.take_append_drop]
      cases hpassed : lexeme.isPassed with
      | true =>
        obtain ⟨q, hq, hat, hnext⟩ := next_of_passes hp hscan hpassed h
        have hlt : q.rest.length < n := by
          rw [← hn, hp, hq, List.length_drop, List.length_cons]
          omega
        rw [← hq] at hrest
        rw [hnext]
        refine (ih _ hlt hat rfl).behind hrest ?_
        rw [hq]
        exact (Lexeme.passes_of_scan hscan hpassed).gap
      | false =>
        obtain ⟨item, hplace, hnext⟩ := next_of_not_isPassed hp hscan hpassed
        have hline : '\n' ∉ c :: cs.take taken := by
          refine Lexeme.scan_oneLine hscan ?_
          rintro rfl
          cases hpassed
        have hgap : Gap (c :: cs.take taken ++ cs.drop taken) [] := .nil
        have hl := h.locate hrest hline (List.cons_ne_nil _ _)
        have hat := h.skip hrest hline
        rw [← List.append_nil before] at hl hat
        rw [hnext]
        exact .item hrest hgap hplace hl hat

end Next

end Point

/-! ## 6. The whole source -/

/-- `Covered before cs places`: the characters `cs`, with `before` in front of them, are the texts
of these places in their order, with gaps between them and at both ends. -/
inductive Covered : List Char → List Char → List Location → Prop where
  | gap {before cs : List Char} (hgap : Gap [] cs) : Covered before cs []
  | text {before gap text rest : List Char} {l : Location} {places : List Location}
      (hgap : Gap (text ++ rest) gap) (hl : l.Between (before ++ gap) text rest)
      (hrest : Covered (before ++ gap ++ text) rest places) :
      Covered before (gap ++ (text ++ rest)) (l :: places)

/-- From a point on, a stream gives tokens and errors whose places cover what is left. -/
theorem TokenStream.gives_of_at {source : String} {p : Point} {before : List Char} {nesting : Nat}
    (h : p.At before) :
    ∃ items places, (⟨source, p, none, nesting⟩ : TokenStream).Gives items ∧
      items.map placeOf = places.map some ∧ Covered before p.rest places := by
  generalize hn : p.rest.length = n
  induction n using Nat.strongRecOn generalizing p before with
  | _ n ih =>
    have hfinds := Point.finds_next h
    generalize hfound : p.next = found at hfinds
    cases hfinds with
    | @ended q hgap =>
      have hpeek : peek ⟨source, p, none, nesting⟩ = .ok none ⟨source, q, none, nesting⟩ := by
        simp only [peek, hfound]
      exact ⟨[], [], .ended hpeek, rfl, .gap hgap⟩
    | @item item l gap text q hrest hgap hplace hl hq =>
      have hlt : q.rest.length < n := by
        have htext := List.length_pos_of_ne_nil hl.nonempty
        rw [← hn, hrest, List.length_append, List.length_append]
        omega
      obtain ⟨items, places, hgives, hplaces, hcovered⟩ := ih _ hlt hq rfl
      refine ⟨item :: items, l :: places, ?_, ?_, ?_⟩
      · cases item with
        | ok spanned =>
          have hpeek : peek ⟨source, p, none, nesting⟩ =
              .ok (some spanned) ⟨source, q, some spanned, nesting⟩ := by
            simp only [peek, hfound]
            rfl
          exact .token hpeek rfl hgives
        | error e =>
          have hpeek : peek ⟨source, p, none, nesting⟩ = .error e ⟨source, q, none, nesting⟩ := by
            simp only [peek, hfound]
            rfl
          exact .error hpeek hgives
      · rw [List.map_cons, List.map_cons, hplace, hplaces]
      · rw [hrest]
        exact .text hgap hl hcovered

/-- **Every token and every error of a source stands at its exact place, and the places cover the
source** up to white space and comments. -/
theorem places_cover (source : String) :
    ∃ items places, (∀ items', (TokenStream.ofSource source).Gives items' ↔ items' = items) ∧
      items.map placeOf = places.map some ∧ Covered [] source.toList places := by
  obtain ⟨items, places, hgives, hplaces, hcovered⟩ : ∃ items places,
      (TokenStream.ofSource source).Gives items ∧ items.map placeOf = places.map some ∧
        Covered [] (Point.ofSource source).rest places :=
    TokenStream.gives_of_at (Point.at_ofSource source)
  refine ⟨items, places, fun items' => ⟨fun h => hgives.unique h, fun h => ?_⟩, hplaces, hcovered⟩
  rw [h]
  exact hgives

end LazyExpr
