import LazyExpr.Proofs.Expr.Located

/-!
# Carets point at the text

An error is shown with the source line that it stands on, without the blanks on either side, and
with a line of carets below.  The column of the error counts bytes from the start of the line, while
carets are set by characters of what is shown; in front of the text may stand indentation and
characters of several bytes, and behind it blanks.

* `charsWithin?_append`: so many bytes as some characters take up are those characters.
* `Text.trim_append_cons`: trimming around a character that is not blank.
* `Drawing`: how a place of a source is drawn.  `Drawing.lines`: the two lines.
* `pretty_points`: **the carets stand under the text that the error is about.**
-/

namespace LazyExpr

/-! ## 1. Characters by their bytes -/

/-- **So many bytes as some characters take up are those characters.** -/
theorem charsWithin?_append (cs ds : List Char) :
    charsWithin? (byteLength cs) (cs ++ ds) = some cs := by
  induction cs with
  | nil => rw [byteLength, List.foldl_nil, charsWithin?]
  | cons c cs ih =>
    have hpos := c.utf8Size_pos
    obtain ⟨bytes, hbytes⟩ : ∃ bytes, byteLength (c :: cs) = bytes + 1 := by
      rw [byteLength_cons]
      exact ⟨c.utf8Size + byteLength cs - 1, by omega⟩
    have hrest : bytes + 1 - c.utf8Size = byteLength cs := by
      rw [← hbytes, byteLength_cons, Nat.add_sub_cancel_left]
    have hle : c.utf8Size ≤ bytes + 1 := by
      rw [← hbytes, byteLength_cons]
      exact Nat.le_add_right _ _
    rw [hbytes, List.cons_append, charsWithin?, if_pos hle, hrest, ih]
    rfl

/-! ## 2. Trimming around a character -/

namespace Text

variable {c : Char}

theorem trimLeft_append_cons (hc : isBlank c = false) (cs ds : List Char) :
    trimLeft (cs ++ c :: ds) = trimLeft cs ++ c :: ds := by
  induction cs with
  | nil => exact (trimLeft_cons c ds).trans (if_neg (Bool.eq_false_iff.mp hc))
  | cons d cs ih =>
    rw [List.cons_append, trimLeft_cons, trimLeft_cons, ih]
    split <;> rfl

theorem trimRight_append_cons (hc : isBlank c = false) (cs ds : List Char) :
    trimRight (cs ++ c :: ds) = cs ++ c :: trimRight ds := by
  have hreverse : (cs ++ c :: ds).reverse = ds.reverse ++ c :: cs.reverse := by simp
  rw [trimRight, hreverse, trimLeft_append_cons hc, List.reverse_append, List.reverse_cons,
    List.reverse_reverse, List.append_assoc]
  rfl

/-- A character that is not blank, and what is in front of it without the blanks and behind it. -/
theorem trim_append_cons (hc : isBlank c = false) (cs ds : List Char) :
    trim (cs ++ c :: ds) = trimLeft cs ++ c :: trimRight ds := by
  rw [trim, trimRight_append_cons hc, trimLeft_append_cons hc]

theorem head?_trimLeft (cs : List Char) : ∀ d ∈ (trimLeft cs).head?, isBlank d = false := by
  intro d hd
  have hhead := List.head?_dropWhile_not isBlank cs
  rw [show (cs.dropWhile isBlank).head? = some d from hd] at hhead
  exact hhead

/-- Trimmed characters neither start with a blank nor end with one. -/
theorem ends_of_trimmed (hc : isBlank c = false) (cs ds : List Char) :
    (∀ d ∈ (trimLeft cs ++ c :: trimRight ds).head?, isBlank d = false) ∧
      ∀ d ∈ (trimLeft cs ++ c :: trimRight ds).getLast?, isBlank d = false := by
  constructor
  · rw [← trimLeft_append_cons hc]
    exact head?_trimLeft _
  · have hreverse : (trimLeft cs ++ c :: trimRight ds).reverse =
        trimLeft (ds.reverse ++ c :: (trimLeft cs).reverse) := by
      rw [trimLeft_append_cons hc]
      simp [trimRight]
    rw [List.getLast?_eq_head?_reverse, hreverse]
    exact head?_trimLeft _

/-- The blanks in front of some characters. -/
def blanksLeft (cs : List Char) : List Char := cs.takeWhile isBlank

/-- The blanks behind some characters. -/
def blanksRight (cs : List Char) : List Char := (blanksLeft cs.reverse).reverse

theorem blanksLeft_append_trimLeft (cs : List Char) : blanksLeft cs ++ trimLeft cs = cs :=
  List.takeWhile_append_dropWhile

theorem trimRight_append_blanksRight (cs : List Char) : trimRight cs ++ blanksRight cs = cs := by
  rw [trimRight, blanksRight, ← List.reverse_append, blanksLeft_append_trimLeft,
    List.reverse_reverse]

theorem isBlank_of_mem_blanksLeft {cs : List Char} : ∀ d ∈ blanksLeft cs, isBlank d = true :=
  fun _ hd => List.mem_takeWhile_imp hd

theorem isBlank_of_mem_blanksRight {cs : List Char} : ∀ d ∈ blanksRight cs, isBlank d = true :=
  fun d hd => isBlank_of_mem_blanksLeft d (List.mem_reverse.mp hd)

end Text

/-! ## 3. Drawings -/

namespace Location

variable {l : Location}

/-- The column counts the bytes in front of the text on its line. -/
theorem Between.column_lastLine {before text behind : List Char}
    (h : l.Between before text behind) :
    l.column = byteLength (lastLine before) + 1 := by
  rw [h.column_eq, byteLength_lastLine]

variable {c : Char} {front rest : List Char} (hc : Text.isBlank c = false)
  (hline : l.lineText = String.ofList (front ++ c :: rest))
include hc hline

theorem shownLine_eq : l.shownLine = Text.trimLeft front ++ c :: Text.trimRight rest := by
  rw [shownLine, hline, String.toList_ofList, Text.trim_append_cons hc]

/-- The carets are set off by the characters that are shown in front. -/
theorem shownOffset_eq (hcolumn : l.column = byteLength front + 1) :
    l.shownOffset = (Text.trimLeft front).length := by
  have hbytes := congrArg byteLength (Text.blanksLeft_append_trimLeft front)
  rw [byteLength_append] at hbytes
  have hright : Text.trimRight l.lineText.toList = front ++ c :: Text.trimRight rest := by
    rw [hline, String.toList_ofList, Text.trimRight_append_cons hc]
  -- the blanks that are cut off in front take up the bytes of the indentation
  have hcut : byteLength (front ++ c :: Text.trimRight rest) -
      byteLength (Text.trimLeft front ++ c :: Text.trimRight rest) =
        byteLength (Text.blanksLeft front) := by
    rw [byteLength_append, byteLength_append]
    omega
  have hlead : l.column - 1 - byteLength (Text.blanksLeft front) =
    byteLength (Text.trimLeft front) := by omega
  simp only [shownOffset, shownLine_eq hc hline, hright, hcut]
  rw [if_neg (by omega), hlead, charsWithin?_append]
  rfl

end Location

/-- How a place of a source is drawn: the line of its text is cut into the blanks on either side and
what is shown, and of that again `lead` stands in front of the text. -/
structure Drawing (source : List Char) (l : Location) where
  before : List Char
  text : List Char
  behind : List Char
  source_eq : source = before ++ text ++ behind
  place : l.Between before text behind
  indent : List Char
  lead : List Char
  lead_eq : lastLine before = indent ++ lead
  shown : List Char
  trailing : List Char
  line_eq : lastLine before ++ text ++ behind.takeWhile (· ≠ '\n') = indent ++ shown ++ trailing
  indent_blank : ∀ c ∈ indent, Text.isBlank c = true
  trailing_blank : ∀ c ∈ trailing, Text.isBlank c = true
  starts : ∀ c ∈ shown.head?, Text.isBlank c = false
  ends : ∀ c ∈ shown.getLast?, Text.isBlank c = false
  /-- The first character of the text is shown where the carets start. -/
  points : shown[lead.length]? = text.head?

/-- The shown line, and as many carets as the text has characters, below the text. -/
def Drawing.lines {source : List Char} {l : Location} (d : Drawing source l) : String :=
  String.ofList ("    ".toList ++ d.shown ++ '\n' :: "    ".toList ++
    List.replicate d.lead.length ' ' ++ List.replicate d.text.length '^')

section Drawn

variable {l : Location} {c : Char} {before more behind : List Char}

/-- What is behind the first character of a text on its line. -/
def lineRest (more behind : List Char) : List Char := more ++ behind.takeWhile (· ≠ '\n')

/-- The drawing of a text that does not start with a blank. -/
def Location.Between.drawing (h : l.Between before (c :: more) behind)
    (hc : Text.isBlank c = false) :
    Drawing (before ++ c :: more ++ behind) l where
  before
  text := c :: more
  behind
  source_eq := rfl
  place := h
  indent := Text.blanksLeft (lastLine before)
  lead := Text.trimLeft (lastLine before)
  lead_eq := (Text.blanksLeft_append_trimLeft _).symm
  shown := Text.trimLeft (lastLine before) ++ c :: Text.trimRight (lineRest more behind)
  trailing := Text.blanksRight (lineRest more behind)
  line_eq := by
    rw [← List.append_assoc, Text.blanksLeft_append_trimLeft, List.append_assoc, List.append_assoc,
      List.cons_append, List.cons_append, Text.trimRight_append_blanksRight]
    rfl
  indent_blank := Text.isBlank_of_mem_blanksLeft
  trailing_blank := Text.isBlank_of_mem_blanksRight
  starts := (Text.ends_of_trimmed hc _ _).1
  ends := (Text.ends_of_trimmed hc _ _).2
  points := by simp

/-- **The marker of a place draws its text**, if that does not start with a blank. -/
theorem Location.Between.marker_eq (h : l.Between before (c :: more) behind)
    (hc : Text.isBlank c = false) :
    l.marker = (h.drawing hc).lines := by
  have hline : l.lineText = String.ofList (lastLine before ++ c :: lineRest more behind) := by
    rw [h.lineText_eq, List.append_assoc]
    rfl
  have hlength : max l.text.length 1 = (c :: more).length := by
    rw [h.text_eq, String.length_ofList]
    exact Nat.max_eq_left (Nat.succ_pos _)
  have hshown := shownLine_eq hc hline
  have hoffset := shownOffset_eq hc hline h.column_lastLine
  unfold Location.marker Drawing.lines Location.Between.drawing
  simp only [hshown, hoffset, hlength]

end Drawn

/-- **The carets stand under the text that the error is about.** Whatever the source and the scope:
an error that names a place, the text of which does not start with a blank, is shown with the line
of that place without the blanks on either side.  Below are as many carets as the text has
characters, and in front of them as many spaces as there are characters from the first one that is
shown to the first one of the text. -/
theorem pretty_points {scope : Scope} {source : String} {e : ParseError} {l : Location}
    (h : parseIn scope source = .error e) (hl : e.location? = some l)
    (hfirst : ∀ c ∈ l.text.toList.head?, Text.isBlank c = false) :
    ∃ d : Drawing source.toList l, e.pretty = e.message ++ "\n" ++ d.lines := by
  obtain ⟨before, text, behind, hsource, hplace⟩ := standsIn_of_parseIn h l hl
  obtain ⟨c, more, rfl⟩ := List.exists_cons_of_ne_nil hplace.nonempty
  have hc : Text.isBlank c = false := hfirst c (by rw [hplace.text_eq]; simp)
  rw [hsource]
  refine ⟨hplace.drawing hc, ?_⟩
  simp only [ParseError.pretty, hl]
  rw [hplace.marker_eq hc]

/-- A name that is bound nowhere, behind blanks and behind a character of two bytes, in the second
line. -/
theorem pretty_points_undefined :
    let source := "1 ==\n \t\"é\" ++ missing  \n"
    let l : Location := ⟨2, 11, "missing", " \t\"é\" ++ missing  "⟩
    let e : ParseError := .undefinedIdentifier "missing" l
    parse source = .error e ∧ e.location? = some l ∧
      (∀ c ∈ l.text.toList.head?, Text.isBlank c = false) ∧
      (∃ d : Drawing source.toList l, e.pretty = e.message ++ "\n" ++ d.lines) ∧
      e.pretty = "Error on line 2: Undefined identifier 'missing'.\n" ++
        "    \"é\" ++ missing\n           ^^^^^^^" := by
  intro source l e
  have hparse : parse source = .error e := by cbv
  have hfirst : ∀ c ∈ l.text.toList.head?, Text.isBlank c = false := by
    have hhead : l.text.toList.head? = some 'm' := by cbv
    rw [hhead]
    rintro _ ⟨⟩
    decide
  exact ⟨hparse, rfl, hfirst, pretty_points hparse rfl hfirst, by decide +kernel⟩

end LazyExpr
