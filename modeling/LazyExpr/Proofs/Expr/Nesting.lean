import LazyExpr.Proofs.Expr.Completeness
import LazyExpr.Proofs.Expr.Holes
import LazyExpr.Proofs.Expr.Readable
import LazyExpr.Proofs.Token.Spelling

/-!
# How deep expressions are nested

The reader counts how many expressions it is inside of, and refuses to go deeper than a limit.  An
expression that is embedded in a string is a text of its own, with a counter of its own, so what the
limit bounds is the nesting of each text and not that of the whole: the nesting of a string adds to
that of the expression it stands in.

* `Expr.nest` — how many levels an expression has, those within strings included; `Expr.strings` —
  how many strings stand inside each other.
* `nest_of_reads` — what the grammar reads within some levels has no more of them, apart from those
  that its strings add.
* `nest_of_parse` — **an expression that was read stays within the limit once for its text and once
  more for each string around the deepest part**; without embedded expressions it is below the
  limit.
* `parse_bangsText` — strings do add up: two texts within the limit make one expression beyond it.
-/

namespace LazyExpr

/-! ## 1. Levels and strings -/

mutual

/-- How deep the parts of an expression as written stand inside each other, where a level counts
`level` and an embedding in a string counts `string`.  An operator's right operand is a level deeper
than the operator, its left operand is not. -/
def Expr.nesting (level string : Nat) : Expr → Nat
  | .number _ | .bool _ | .str _ | .null | .function _ | .argument _ => 0
  | .list l => l.nesting level string
  | .range start second stop =>
    max (start.nesting level string + level)
      (max (boundNesting level string second) (boundNesting level string stop))
  | .call function argument => max (function.nesting level string) (argument.nesting level string)
  | .lambda _ _ body => body.nesting level string + level
  | .unary _ operand => operand.nesting level string + level
  | .binary _ left right => max (left.nesting level string) (right.nesting level string + level)
  | .leftSection _ left => left.nesting level string
  | .rightSection _ right => right.nesting level string + level
  | .conditional condition yes no =>
    max (condition.nesting level string)
      (max (yes.nesting level string) (no.nesting level string)) + level
  | .interpolated fragments => fragmentsNesting level string fragments
  | .closure .. | .applied .. => 0

/-- The nesting of a list literal; other lists are not written. -/
def LazyList.nesting (level string : Nat) : LazyList → Nat
  | .items elements _ _ => elementsNesting level string elements
  | _ => 0

/-- The nesting of elements, which stand a level deeper than their list. -/
def elementsNesting (level string : Nat) : List Expr → Nat
  | [] => 0
  | e :: es => max (e.nesting level string + level) (elementsNesting level string es)

/-- The nesting of a bound that a range may have. -/
def boundNesting (level string : Nat) : Option Expr → Nat
  | none => 0
  | some e => e.nesting level string + level

/-- The nesting of the fragments of a string. -/
def fragmentsNesting (level string : Nat) : List Fragment → Nat
  | [] => 0
  | .text _ :: fragments => fragmentsNesting level string fragments
  | .embedded e :: fragments =>
    max (e.nesting level string + string) (fragmentsNesting level string fragments)

end

section Equations

variable (level string : Nat)

@[simp] theorem nesting_bool (b : Bool) : (Expr.bool b).nesting level string = 0 := rfl
@[simp] theorem nesting_function (f : Function) : (Expr.function f).nesting level string = 0 := rfl
@[simp] theorem nesting_argument (slot : Slot) :
    (Expr.argument slot).nesting level string = 0 := rfl

@[simp] theorem nesting_literal_nil : (Expr.literal []).nesting level string = 0 := rfl

@[simp] theorem nesting_literal_cons (e : Expr) (es : List Expr) :
    (Expr.literal (e :: es)).nesting level string =
      max (e.nesting level string + level) ((Expr.literal es).nesting level string) := rfl

@[simp] theorem nesting_range (start : Expr) (second stop : Option Expr) :
    (Expr.range start second stop).nesting level string =
      max (start.nesting level string + level)
        (max (boundNesting level string second) (boundNesting level string stop)) := rfl

@[simp] theorem boundNesting_none : boundNesting level string none = 0 := rfl

@[simp] theorem boundNesting_some (e : Expr) :
    boundNesting level string (some e) = e.nesting level string + level := rfl

@[simp] theorem nesting_call (function argument : Expr) :
    (Expr.call function argument).nesting level string =
      max (function.nesting level string) (argument.nesting level string) := rfl

@[simp] theorem nesting_lambda (depth : Nat) (parameters : List String) (body : Expr) :
    (Expr.lambda depth parameters body).nesting level string = body.nesting level string + level :=
  rfl

@[simp] theorem nesting_unary (op : UnaryOp) (operand : Expr) :
    (Expr.unary op operand).nesting level string = operand.nesting level string + level := rfl

@[simp] theorem nesting_binary (op : BinaryOp) (left right : Expr) :
    (Expr.binary op left right).nesting level string =
      max (left.nesting level string) (right.nesting level string + level) := rfl

@[simp] theorem nesting_rightSection (op : BinaryOp) (right : Expr) :
    (Expr.rightSection op right).nesting level string = right.nesting level string + level := rfl

@[simp] theorem nesting_conditional (condition yes no : Expr) :
    (Expr.conditional condition yes no).nesting level string =
      max (condition.nesting level string)
        (max (yes.nesting level string) (no.nesting level string)) + level := rfl

@[simp] theorem nesting_interpolated_nil : (Expr.interpolated []).nesting level string = 0 := rfl

@[simp] theorem nesting_interpolated_embedded (e : Expr) (fragments : List Fragment) :
    (Expr.interpolated (.embedded e :: fragments)).nesting level string =
      max (e.nesting level string + string) ((Expr.interpolated fragments).nesting level string) :=
  rfl

end Equations

/-- How many levels an expression has, through its strings. -/
def Expr.nest (e : Expr) : Nat := e.nesting 1 0

/-- How many strings an expression has inside each other. -/
def Expr.strings (e : Expr) : Nat := e.nesting 0 1

/-! ## 2. What fits into some levels -/

/-- An expression has no more levels than `n`, apart from those that each string around a part of it
allows for. -/
def Fits (n : Nat) (e : Expr) : Prop := e.nest ≤ n + (maxNesting - 1) * e.strings

section Fits

variable {n m : Nat} {e : Expr} {es : List Expr}

theorem Fits.mono (h : Fits n e) (hnm : n ≤ m) : Fits m e := by
  unfold Fits at h ⊢
  omega

/-- Names and literals fit anywhere. -/
theorem fits_of_flat (h : ∀ level string, e.nesting level string = 0) : Fits n e := by
  unfold Fits Expr.nest
  rw [h]
  exact Nat.zero_le _

theorem Fits.unary (op : UnaryOp) (h : Fits n e) : Fits (n + 1) (.unary op e) := by
  simp only [Fits, Expr.nest, Expr.strings, nesting_unary, maxNesting] at h ⊢
  omega

theorem Fits.lambda (depth : Nat) (parameters : List String) (h : Fits n e) :
    Fits (n + 1) (.lambda depth parameters e) := by
  simp only [Fits, Expr.nest, Expr.strings, nesting_lambda, maxNesting] at h ⊢
  omega

theorem Fits.rightSection (op : BinaryOp) (h : Fits n e) : Fits (n + 1) (.rightSection op e) := by
  simp only [Fits, Expr.nest, Expr.strings, nesting_rightSection, maxNesting] at h ⊢
  omega

theorem Fits.leftSection (op : BinaryOp) (h : Fits n e) : Fits n (.leftSection op e) := h

theorem Fits.binary (op : BinaryOp) {left right : Expr} (hleft : Fits (n + 1) left)
    (hright : Fits n right) : Fits (n + 1) (.binary op left right) := by
  simp only [Fits, Expr.nest, Expr.strings, nesting_binary, maxNesting] at hleft hright ⊢
  omega

theorem Fits.conditional {condition yes no : Expr} (hcondition : Fits n condition)
    (hyes : Fits n yes) (hno : Fits n no) : Fits (n + 1) (.conditional condition yes no) := by
  simp only [Fits, Expr.nest, Expr.strings, nesting_conditional, maxNesting]
    at hcondition hyes hno ⊢
  omega

theorem Fits.call {function argument : Expr} (hfunction : Fits n function)
    (hargument : Fits n argument) : Fits n (.call function argument) := by
  simp only [Fits, Expr.nest, Expr.strings, nesting_call, maxNesting] at hfunction hargument ⊢
  omega

theorem Fits.callAll {function : Expr} (hfunction : Fits n function) (h : ∀ e ∈ es, Fits n e) :
    Fits n (function.callAll es) := by
  unfold Expr.callAll
  induction es generalizing function with
  | nil => exact hfunction
  | cons e es ih =>
    exact ih (hfunction.call (h e List.mem_cons_self)) fun e he => h e (List.mem_cons_of_mem _ he)

theorem fits_literal (h : ∀ e ∈ es, Fits n e) : Fits (n + 1) (.literal es) := by
  induction es with
  | nil => exact fits_of_flat nesting_literal_nil
  | cons e es ih =>
    have he := h e List.mem_cons_self
    have hes := ih fun e he => h e (List.mem_cons_of_mem _ he)
    simp only [Fits, Expr.nest, Expr.strings, nesting_literal_cons, maxNesting] at he hes ⊢
    omega

theorem fits_rangeOf? {stop : Option Expr} {range : Expr} (h : ∀ e ∈ es, Fits n e)
    (hstop : ∀ e ∈ stop, Fits n e) (hrange : Expr.rangeOf? stop es = some range) :
    Fits (n + 1) range := by
  have hbound : boundNesting 1 0 stop ≤ n + 1 + (maxNesting - 1) * boundNesting 0 1 stop := by
    cases stop with
    | none => exact Nat.zero_le _
    | some e =>
      have he := hstop e rfl
      simp only [Fits, Expr.nest, Expr.strings, boundNesting_some, maxNesting] at he ⊢
      omega
  match es, hrange with
  | [start], rfl =>
    have hstart := h start (by simp)
    simp only [Fits, Expr.nest, Expr.strings, nesting_range, boundNesting_none, maxNesting]
      at hstart hbound ⊢
    omega
  | [start, second], rfl =>
    have hstart := h start (by simp)
    have hsecond := h second (by simp)
    simp only [Fits, Expr.nest, Expr.strings, nesting_range, boundNesting_some, maxNesting]
      at hstart hsecond hbound ⊢
    omega

/-- An embedded expression has all levels of the limit but one, and its string allows for them. -/
theorem Fits.embedded {fragments : List Fragment} (he : Fits (maxNesting - 1) e)
    (h : Fits 0 (.interpolated fragments)) : Fits 0 (.interpolated (.embedded e :: fragments)) := by
  simp only [Fits, Expr.nest, Expr.strings, nesting_interpolated_embedded, maxNesting] at he h ⊢
  omega

end Fits

/-! ## 3. What is read fits -/

/-- The names of the scope stand for expressions without levels. -/
def Scope.Flat (scope : Scope) : Prop :=
  ∀ name e, scope.lookup name = some e → ∀ level string, e.nesting level string = 0

theorem Scope.flat_inside {scope : Scope} (h : scope.Flat) (names : List String) :
    (scope.inside names).Flat := by
  intro name e hlookup level string
  simp only [inside, lookup] at hlookup
  rcases Option.or_eq_some_iff.mp hlookup with hlookup | ⟨-, hlookup⟩
  · obtain ⟨_, -, rfl⟩ := lookup_parameterBindings hlookup
    exact nesting_argument level string _
  · exact h name e hlookup level string

theorem Scope.flat_standard : Scope.standard.Flat := by
  intro name e hlookup level string
  obtain ⟨b, -, rfl⟩ := lookup_standard hlookup
  exact nesting_function level string _

/-- What was read before the phrase fits. -/
def Phrase.Leaves (n : Nat) : Phrase → Prop
  | extension _ left => Fits n left
  | group before | elements before => ∀ e ∈ before, Fits (n - 1) e
  | _ => True

/-- What the phrase stands for fits: a whole expression into one level less than there was, a string
into none. -/
def Phrase.Keeps (n : Nat) (phrase : Phrase) (items : List Expr) : Prop :=
  match phrase with
  | .expression _ => ∀ e ∈ items, Fits (n - 1) e
  | .pieces _ => ∀ e ∈ items, Fits 0 e
  | _ => ∀ e ∈ items, Fits n e

/-- An expression takes a level. -/
theorem Reads.levels_pos {limit n scope least ts items rest}
    (h : Reads limit n scope (.expression least) ts items rest) : 0 < n := by
  cases h
  exact Nat.succ_pos _

theorem flat_of_literal? {t : Token} {e : Expr} (h : t.literal? = some e) (level string : Nat) :
    e.nesting level string = 0 := by
  cases t <;> cases h <;> rfl

/-- **What the grammar reads within some levels fits into them.** -/
theorem nest_of_reads {n scope phrase ts items rest}
    (h : Reads maxNesting n scope phrase ts items rest) (hscope : scope.Flat)
    (hleaves : phrase.Leaves n) : phrase.Keeps n items := by
  have hsingle : ∀ {n : Nat} {e : Expr}, Fits n e → ∀ e' ∈ [e], Fits n e' := by
    intro n e he e' he'
    rwa [List.mem_singleton.mp he']
  have hmore : ∀ {n : Nat} {e : Expr} {es : List Expr}, Fits n e → (∀ e ∈ es, Fits n e) →
      ∀ e' ∈ (e :: es).reverse, Fits n e' := by
    intro n e es he hes e' he'
    rw [List.mem_reverse, List.mem_cons] at he'
    rcases he' with rfl | he'
    · exact he
    · exact hes e' he'
  -- a part that is an expression was read with one level more than it fits into
  have hpart : ∀ {n scope least ts e rest},
      Reads maxNesting n scope (.expression least) ts [e] rest →
      (scope.Flat → Phrase.Leaves n (.expression least) → Phrase.Keeps n (.expression least) [e]) →
      scope.Flat → ∃ m, n = m + 1 ∧ Fits m e := by
    intro n scope least ts e rest hreads ih hscope
    obtain ⟨m, rfl⟩ : ∃ m, n = m + 1 := ⟨n - 1, by have := hreads.levels_pos; omega⟩
    exact ⟨m, rfl, ih hscope trivial e List.mem_cons_self⟩
  induction h with
  | expression _ _ ih₁ ih₂ => exact ih₂ hscope (ih₁ hscope trivial _ List.mem_cons_self)
  | stop => exact hsingle hleaves
  | binary _ _ hright _ ih₁ ih₂ =>
    obtain ⟨m, rfl, hr⟩ := hpart hright ih₁ hscope
    exact ih₂ hscope (hleaves.binary _ hr)
  | leftSection => exact hsingle (hleaves.leftSection _)
  | dollar hargument _ ih₁ ih₂ =>
    obtain ⟨m, rfl, ha⟩ := hpart hargument ih₁ hscope
    exact ih₂ hscope (hleaves.call (ha.mono (Nat.le_succ m)))
  | juxtapose _ _ _ ih₁ ih₂ => exact ih₂ hscope (hleaves.callAll (ih₁ hscope trivial))
  | literal ht => exact hsingle (fits_of_flat (flat_of_literal? ht))
  | name hlookup => exact hsingle (fits_of_flat (hscope _ _ hlookup))
  | template _ ih => exact fun e he => (ih hscope trivial e he).mono (Nat.zero_le _)
  | unary _ ih => exact hsingle (.unary _ (ih hscope trivial _ List.mem_cons_self))
  | parens _ ih => exact ih hscope trivial
  | emptyList => exact hsingle (fits_of_flat nesting_literal_nil)
  | list _ _ ih => exact ih hscope (by simp [Phrase.Leaves])
  | lambda _ hbody ih =>
    obtain ⟨m, rfl, hb⟩ := hpart hbody ih (Scope.flat_inside hscope _)
    exact hsingle (.lambda _ _ hb)
  | conditional hcondition hyes hno ih₁ ih₂ ih₃ =>
    obtain ⟨m, rfl, hc⟩ := hpart hcondition ih₁ hscope
    exact hsingle (.conditional hc (ih₂ hscope trivial _ List.mem_cons_self)
      (ih₃ hscope trivial _ List.mem_cons_self))
  | negation _ _ ih₁ ih₂ =>
    exact ih₂ hscope (.unary _ (ih₁ hscope trivial _ List.mem_cons_self))
  | rightSection _ hright ih =>
    obtain ⟨m, rfl, hr⟩ := hpart hright ih hscope
    exact hsingle (.rightSection _ hr)
  | enclosed _ hinner ih =>
    obtain ⟨m, rfl, he⟩ := hpart hinner ih hscope
    exact hsingle (he.mono (Nat.le_succ m))
  | grouped _ _ _ ih₁ ih₂ => exact ih₂ hscope (ih₁ hscope trivial)
  | groupMore hitem _ ih₁ ih₂ =>
    have hi := ih₁ hscope trivial _ List.mem_cons_self
    exact ih₂ hscope fun e he => hmore hi hleaves e (List.mem_reverse.mpr he)
  | groupEnd => exact fun e he => (hleaves e (List.mem_reverse.mp he)).mono (Nat.sub_le _ 1)
  | elementsMore hitem _ ih₁ ih₂ =>
    have hi := ih₁ hscope trivial _ List.mem_cons_self
    exact ih₂ hscope fun e he => hmore hi hleaves e (List.mem_reverse.mpr he)
  | elementsEnd hitem ih =>
    obtain ⟨m, rfl, hi⟩ := hpart hitem ih hscope
    exact hsingle (fits_literal (hmore hi hleaves))
  | rangeOpen hitem hrange ih =>
    obtain ⟨m, rfl, hi⟩ := hpart hitem ih hscope
    exact hsingle (fits_rangeOf? (hmore hi hleaves) (by simp) hrange)
  | rangeClosed hitem _ hrange ih₁ ih₂ =>
    obtain ⟨m, rfl, hi⟩ := hpart hitem ih₁ hscope
    have hs := ih₂ hscope trivial _ List.mem_cons_self
    exact hsingle (fits_rangeOf? (hmore hi hleaves) (by simpa using hs) hrange)
  | noPiece => exact hsingle (fits_of_flat nesting_interpolated_nil)
  | @textPiece _ _ _ _ fragments _ _ ih =>
    exact hsingle (ih hscope trivial (.interpolated fragments) List.mem_cons_self)
  | namePiece hlookup _ ih =>
    exact hsingle (.embedded (fits_of_flat (hscope _ _ hlookup))
      (ih hscope trivial _ List.mem_cons_self))
  | sourcePiece _ _ _ ih₁ ih₂ =>
    exact hsingle (.embedded (ih₁ hscope trivial _ List.mem_cons_self)
      (ih₂ hscope trivial _ List.mem_cons_self))

/-- **An expression that was read stays within the limit**, once for its own text and once for each
string around a part of it.  Without embedded expressions it has fewer levels than the limit. -/
theorem nest_of_parse {source : String} {e : Expr} (h : parse source = .ok e) :
    e.nest ≤ (maxNesting - 1) * (e.strings + 1) := by
  obtain ⟨ts, -, hreads⟩ := reads_of_parseIn h
  have hfits := nest_of_reads hreads Scope.flat_standard trivial e List.mem_cons_self
  unfold Fits at hfits
  rw [Nat.mul_succ]
  omega

/-! ## 4. Strings add up -/

/-- A value behind so many prefix operators. -/
def Expr.notTimes (e : Expr) : Nat → Expr
  | 0 => e
  | n + 1 => .unary .not (e.notTimes n)

theorem nesting_notTimes (level string : Nat) (e : Expr) (n : Nat) :
    (e.notTimes n).nesting level string = e.nesting level string + n * level := by
  induction n with
  | zero => simp [Expr.notTimes]
  | succ n ih => rw [Expr.notTimes, nesting_unary, ih, Nat.succ_mul, Nat.add_assoc]

/-- So many exclamation marks. -/
def bangs (n : Nat) : List Char := List.replicate n '!'

theorem lexes_bangs {rest : List Char} {us : List Token} (hhead : ∀ c ∈ rest.head?, c ≠ '=')
    (hrest : Lexes rest us) (n : Nat) : Lexes (bangs n ++ rest) (List.replicate n .bang ++ us) := by
  induction n with
  | zero => exact hrest
  | succ n ih =>
    have hnext : ∀ c ∈ (bangs n ++ rest).head?, c ≠ '=' := by
      cases n with
      | zero => exact hhead
      | succ n =>
        rintro c ⟨⟩
        decide
    exact lexes_bang hnext ih

theorem reads_bangs {limit k : Nat} {scope : Scope} {ts rest : List Token} {e : Expr}
    (h : Reads limit k scope .value ts [e] rest) (n : Nat) :
    Reads limit (k + n) scope .value (List.replicate n .bang ++ ts) [e.notTimes n] rest := by
  induction n with
  | zero => exact h
  | succ n ih => exact @Reads.unary _ _ _ .not _ _ _ ih

/-- The body of a string that embeds an expression with prefix operators. -/
def bangsBody (inner : Nat) : String :=
  String.ofList ('$' :: '\x7b' :: (bangs inner ++ "true\x7d".toList))

/-- Prefix operators in front of such a string. -/
def bangsText (outer inner : Nat) : String :=
  String.ofList (bangs outer) ++ ("p\"" ++ bangsBody inner ++ "\"")

/-- A character that is neither a quote nor a backslash nor the end of a line stands for itself. -/
theorem escape_eq_self {text : String}
    (h : ∀ c ∈ text.toList, Text.escapeChar c = [c]) : Text.escape text = text := by
  unfold Text.escape
  rw [List.flatMap_congr h, List.flatMap_singleton', String.ofList_toList]

theorem lexes_bangsText (outer inner : Nat) :
    Lexes (bangsText outer inner).toList
      (List.replicate outer .bang ++ [.template (bangsBody inner)]) := by
  have hescape : Text.escape (bangsBody inner) = bangsBody inner := by
    refine escape_eq_self fun c hc => ?_
    have hchars : c = '$' ∨ c = '\x7b' ∨ c ∈ bangs inner ∨ c ∈ ['t', 'r', 'u', 'e', '\x7d'] := by
      simpa [bangsBody] using hc
    rcases hchars with rfl | rfl | hbang | hend
    · rfl
    · rfl
    · rw [List.eq_of_mem_replicate hbang]
      rfl
    · fin_cases hend <;> rfl
  have htemplate := spells_template (bangsBody inner) [] [] (.inl rfl) .nil
  rw [hescape] at htemplate
  unfold bangsText
  rw [String.toList_append, String.toList_ofList]
  refine lexes_bangs ?_ (by simpa using htemplate) outer
  simp

theorem pieces_bangsBody (inner : Nat) :
    Piece.pieces (bangsBody inner) = [.source (String.ofList (bangs inner ++ "true".toList))] := by
  have hplain : Enclosed (String.ofList (bangs inner ++ "true".toList)).toList := by
    refine enclosed_of_plain ?_
    simp [bangs, isPlain]
  have hcut := cut_source hplain [] []
  simpa [Piece.pieces, bangsBody, Piece.raw, Piece.ofGathered, Piece.cut] using hcut

/-- **The levels of a string add to those of the text around it**: each of the two has all levels of
the limit for itself. -/
theorem parse_bangsText {outer inner : Nat} (houter : outer < maxNesting)
    (hinner : inner < maxNesting) :
    parse (bangsText outer inner) =
      .ok ((Expr.interpolated [.embedded ((Expr.bool true).notTimes inner)]).notTimes outer) := by
  have hsource : Lexes (bangs inner ++ "true".toList)
    (List.replicate inner .bang ++ [.bool true]) :=
    lexes_bangs (by rintro c ⟨⟩; decide) (lexes_token 't' "rue".toList rfl .nil) inner
  have hembedded : Reads maxNesting (inner + 1) .standard (.expression Precedence.lowest)
      (List.replicate inner .bang ++ [.bool true]) [(Expr.bool true).notTimes inner] [] := by
    have hliteral : Reads maxNesting 0 .standard .value [.bool true] [.bool true] [] := .literal rfl
    have hvalue := reads_bangs hliteral inner
    rw [Nat.zero_add] at hvalue
    exact .expression hvalue (.stop trivial)
  have hstring : Reads maxNesting 0 .standard .value [.template (bangsBody inner)]
      [.interpolated [.embedded ((Expr.bool true).notTimes inner)]] [] := by
    refine .template ?_
    rw [pieces_bangsBody]
    refine .sourcePiece (by simpa using hsource) (hembedded.mono le_rfl hinner) .noPiece
  have hvalue := reads_bangs hstring outer
  rw [Nat.zero_add] at hvalue
  exact parseIn_eq_ok (lexes_bangsText outer inner)
    (.expression hvalue (.stop trivial)) le_rfl houter

/-- The bound is reached with one string, where all levels of both texts are used. -/
theorem nest_of_parse_bangsText :
    let e := (Expr.interpolated [.embedded ((Expr.bool true).notTimes 127)]).notTimes 127
    parse (bangsText 127 127) = .ok e ∧ e.nest = 254 ∧
    e.nest ≤ (maxNesting - 1) * (e.strings + 1) := by
  have hlimit : 127 < maxNesting := by decide
  have h := parse_bangsText hlimit hlimit
  refine ⟨h, ?_, nest_of_parse h⟩
  simp [Expr.nest, nesting_notTimes]

/-- Two texts within the limit make one expression that reaches it. -/
theorem nest_reaches_limit :
    ∃ e, parse (bangsText 64 64) = .ok e ∧ ¬e.nest < maxNesting := by
  have hlimit : 64 < maxNesting := by decide
  refine ⟨_, parse_bangsText hlimit hlimit, ?_⟩
  simp [Expr.nest, nesting_notTimes, maxNesting]

end LazyExpr
