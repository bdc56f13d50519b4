import LazyExpr.Expr
import LazyExpr.Expr.Interpolation
import LazyExpr.Text.Escape

/-!
# Texts and holes

A body is cut into texts and holes.  The texts that a cut gives have no hole in them, none of them
is empty and no two of them stand side by side; and texts like that, with expressions in braces
between them, are cut back where they were put together.

* `HoleFree cs`: no dollar sign in `cs` opens a hole.
* `SplitTexts shapes`: texts (`some`) and holes (`none`) as a cut gives them, `splitTexts_cut`; no
  expression is longer than the body it is cut from, `Piece.length_le_of_mem_cut`.
* `Enclosed cs`: a search for a closing brace passes over `cs`; it holds of string literals whatever
  is in them (`enclosed_quoted`).
* `cut_rawBody`: **a body put together from such parts is cut into these parts.**
-/

namespace LazyExpr

/-! ## 1. Texts without holes -/

/-- `OpensHole c d`: a dollar sign `c` in front of `d` is the start of a hole. -/
def OpensHole (c d : Char) : Prop := c = '$' ∧ (d = '\x7b' ∨ Lexeme.isWordStart d = true)

/-- No dollar sign opens a hole inside these characters; a last one may. -/
def HoleFree : List Char → Prop
  | [] => True
  | [_] => True
  | c :: d :: cs => ¬OpensHole c d ∧ HoleFree (d :: cs)

theorem HoleFree.tail {c : Char} {cs : List Char} (h : HoleFree (c :: cs)) : HoleFree cs := by
  cases cs with
  | nil => trivial
  | cons d cs => exact h.2

theorem HoleFree.of_append {cs ds : List Char} (h : HoleFree (cs ++ ds)) : HoleFree cs := by
  induction cs with
  | nil => trivial
  | cons c cs ih =>
    cases cs with
    | nil => trivial
    | cons d cs => exact ⟨h.1, ih h.2⟩

theorem holeFree_take_one (cs : List Char) : HoleFree (cs.take 1) := by
  cases cs <;> trivial

/-- One more character behind a text without holes. -/
theorem HoleFree.append_pair {cs : List Char} {c d : Char} (h : HoleFree (cs ++ [c]))
    (hcd : ¬OpensHole c d) : HoleFree (cs ++ [c, d]) := by
  induction cs with
  | nil => exact ⟨hcd, trivial⟩
  | cons b cs ih =>
    cases cs with
    | nil => exact ⟨h.1, hcd, trivial⟩
    | cons b' cs => exact ⟨h.1, ih h.2⟩

/-- Texts (`some`) and holes (`none`): no text is empty, contains a hole or stands beside
another. -/
def SplitTexts : List (Option String) → Prop
  | [] => True
  | none :: shapes => SplitTexts shapes
  | some text :: shapes =>
    text ≠ "" ∧ HoleFree text.toList ∧ (∀ t, shapes.head? ≠ some (some t)) ∧ SplitTexts shapes

/-- The text of a piece, if it is one. -/
def Piece.text? : Piece → Option String
  | text t => some t
  | _ => none

/-- The text of a fragment, if it is one. -/
def Fragment.text? : Fragment → Option String
  | text t => some t
  | embedded _ => none

theorem splitTexts_ofGathered {gathered : List Char} {shapes : List (Option String)}
    (hfree : HoleFree gathered.reverse) (hhead : ∀ t, shapes.head? ≠ some (some t))
    (hshapes : SplitTexts shapes) :
    SplitTexts ((Piece.ofGathered gathered).map Piece.text? ++ shapes) := by
  unfold Piece.ofGathered
  split
  · exact hshapes
  · next hne =>
    refine ⟨?_, by simpa using hfree, hhead, hshapes⟩
    intro hempty
    refine hne ?_
    have := congrArg String.toList hempty
    simpa using this

/-- **A cut leaves no hole in a text**, and no two texts side by side. -/
theorem splitTexts_cut {gathered cs : List Char} (h : HoleFree (gathered.reverse ++ cs.take 1)) :
    SplitTexts ((Piece.cut gathered cs).map Piece.text?) := by
  fun_induction Piece.cut gathered cs with
  | case1 gathered =>
    have := splitTexts_ofGathered h.of_append (by simp) (show SplitTexts [] from trivial)
    simpa using this
  | case2 gathered rest hclose =>
    rw [List.map_append]
    exact splitTexts_ofGathered h.of_append (by simp [Piece.text?]) trivial
  | case3 gathered rest n hclose ih =>
    rw [List.map_append]
    exact splitTexts_ofGathered h.of_append (by simp [Piece.text?]) (ih (holeFree_take_one _))
  | case4 gathered c rest _ hstart tail ih =>
    rw [List.map_append]
    exact splitTexts_ofGathered h.of_append (by simp [Piece.text?]) (ih (holeFree_take_one _))
  | case5 gathered c rest hbrace hstart ih =>
    refine ih ?_
    rw [List.reverse_cons, List.append_assoc]
    refine h.append_pair ?_
    rintro ⟨-, rfl | hword⟩
    · exact hbrace rfl
    · exact hstart hword
  | case6 gathered c rest hbrace hpair ih =>
    refine ih ?_
    rw [List.reverse_cons, List.append_assoc]
    cases rest with
    | nil => exact h
    | cons d rest =>
      refine h.append_pair ?_
      rintro ⟨rfl, -⟩
      exact hpair d rest rfl rfl

theorem splitTexts_pieces (body : String) : SplitTexts ((Piece.pieces body).map Piece.text?) :=
  splitTexts_cut (holeFree_take_one _)

/-- An expression cut out of a body is not longer than the body. -/
theorem Piece.length_le_of_mem_cut {gathered cs : List Char} {source : String}
    (h : .source source ∈ cut gathered cs) : source.length ≤ cs.length := by
  have hgathered : ∀ gathered, Piece.source source ∉ ofGathered gathered := by
    intro gathered hmem
    unfold ofGathered at hmem
    split at hmem
    · cases hmem
    · cases List.mem_singleton.mp hmem
  fun_induction cut gathered cs with
  | case1 gathered => exact absurd h (hgathered gathered)
  | case2 gathered rest hclose =>
    rcases List.mem_append.mp h with h | h
    · exact absurd h (hgathered gathered)
    · cases List.mem_singleton.mp h
  | case3 gathered rest n hclose ih =>
    rcases List.mem_append.mp h with h | h
    · exact absurd h (hgathered gathered)
    · rcases List.mem_cons.mp h with h | h
      · cases h
        simp only [String.length_ofList, List.length_take, List.length_cons]
        omega
      · have := ih h
        simp only [List.length_drop] at this
        simp only [List.length_cons]
        omega
  | case4 gathered c rest _ hstart tail ih =>
    rcases List.mem_append.mp h with h | h
    · exact absurd h (hgathered gathered)
    · rcases List.mem_cons.mp h with h | h
      · cases h
      · have := ih h
        simp only [List.length_drop] at this
        simp only [List.length_cons]
        omega
  | case5 gathered c rest _ hstart ih =>
    have := ih h
    simp only [List.length_cons] at this ⊢
    omega
  | case6 gathered c rest _ _ ih =>
    have := ih h
    simp only [List.length_cons]
    omega

/-! ## 2. Passing over enclosed characters -/

open Piece (closingBrace? Region)

/-- A search for the closing brace that is outside of strings in front of these characters is
outside of strings, with as many braces open, behind them. -/
def Enclosed (cs : List Char) : Prop :=
  ∀ depth rest, closingBrace? depth .code (cs ++ rest) =
    (closingBrace? depth .code rest).map (· + cs.length)

theorem Enclosed.nil : Enclosed [] := by
  intro depth rest
  simp

theorem Enclosed.append {cs ds : List Char} (hc : Enclosed cs) (hd : Enclosed ds) :
    Enclosed (cs ++ ds) := by
  intro depth rest
  rw [List.append_assoc, hc, hd, Option.map_map]
  congr 1
  funext n
  simp only [Function.comp_apply, List.length_append]
  omega

theorem Enclosed.toList_append {a b : String} (ha : Enclosed a.toList) (hb : Enclosed b.toList) :
    Enclosed (a ++ b).toList := by
  rw [String.toList_append]
  exact ha.append hb

/-- Whether a character is neither a quote nor a brace. -/
def isPlain (c : Char) : Bool := c != '"' && c != '\x7b' && c != '\x7d'

/-- Characters that are neither quotes nor braces are passed over. -/
theorem enclosed_of_plain {cs : List Char} (h : cs.all isPlain = true) : Enclosed cs := by
  induction cs with
  | nil => exact .nil
  | cons c cs ih =>
    rw [List.all_cons, Bool.and_eq_true] at h
    obtain ⟨hc, hcs⟩ := h
    simp only [isPlain, Bool.and_eq_true, bne_iff_ne] at hc
    obtain ⟨⟨hquote, hopen⟩, hclose⟩ := hc
    have hcs := ih hcs
    intro depth rest
    rw [List.cons_append, closingBrace?]
    simp only [hquote, hopen, hclose, if_false]
    rw [hcs, Option.map_map]
    rfl

/-- Inside a string, the escaped form of any text is passed over. -/
theorem closingBrace?_escaped (text rest : List Char) (depth : Nat) :
    closingBrace? depth .string (text.flatMap Text.escapeChar ++ rest) =
      (closingBrace? depth .string rest).map (· + (text.flatMap Text.escapeChar).length) := by
  induction text with
  | nil => simp
  | cons c text ih =>
    rw [List.flatMap_cons, List.append_assoc]
    obtain ⟨d, -, hescape, -⟩ | ⟨hescape, hslash, hquote, -⟩ := Text.escapeChar_cases c
    · -- a backslash, and whatever is behind it
      rw [hescape, List.cons_append, List.singleton_append, closingBrace?]
      simp only [if_true]
      rw [closingBrace?, ih, Option.map_map, Option.map_map]
      rfl
    · rw [hescape, List.singleton_append, closingBrace?]
      simp only [hslash, hquote, if_false]
      rw [ih, Option.map_map]
      rfl

/-- **A string literal is passed over**, whatever it contains. -/
theorem enclosed_quoted (text : String) :
    Enclosed ('"' :: ((Text.escape text).toList ++ ['"'])) := by
  intro depth rest
  rw [List.cons_append, List.append_assoc, closingBrace?, Text.toList_escape]
  simp only [if_true]
  rw [closingBrace?_escaped, List.singleton_append, closingBrace?]
  simp only [if_true]
  rw [if_neg (by decide), Option.map_map, Option.map_map]
  congr 1
  funext n
  simp only [Function.comp_apply, List.length_append, List.length_cons, List.length_nil]
  omega

/-! ## 3. Putting a body together -/

/-- A part of a body: text, or the source text of an expression in braces. -/
def Piece.raw : Piece → List Char
  | text t => t.toList
  | source s => '$' :: '\x7b' :: (s.toList ++ ['\x7d'])
  | _ => []

/-- The end of a body, or a hole with braces. -/
def EndsText (rest : List Char) : Prop := rest = [] ∨ ∃ rest', rest = '$' :: '\x7b' :: rest'

/-- Text that was gathered in front of a hole is a piece of its own. -/
theorem cut_gathered {rest : List Char} (hrest : EndsText rest) (gathered : List Char) :
    Piece.cut gathered rest = Piece.ofGathered gathered ++ Piece.cut [] rest := by
  have hnone : Piece.ofGathered [] = [] := rfl
  obtain rfl | ⟨rest', rfl⟩ := hrest
  · simp [Piece.cut, hnone]
  · rw [Piece.cut, Piece.cut, hnone]
    split <;> rfl

/-- Text without holes is gathered up to the end or to the next hole. -/
theorem cut_text {text : List Char} (hfree : HoleFree text) (gathered : List Char)
    {rest : List Char} (hrest : EndsText rest) :
    Piece.cut gathered (text ++ rest) = Piece.cut (text.reverse ++ gathered) rest := by
  induction text generalizing gathered with
  | nil => rfl
  | cons c text ih =>
    have hstep : Piece.cut gathered (c :: (text ++ rest)) =
      Piece.cut (c :: gathered) (text ++ rest) := by
      by_cases hc : c = '$'
      · subst hc
        -- what follows the dollar sign opens no hole with it
        have hnext : text ++ rest = [] ∨ ∃ d ds, text ++ rest = d :: ds ∧ ¬OpensHole '$' d := by
          cases text with
          | cons d text => exact .inr ⟨d, text ++ rest, rfl, hfree.1⟩
          | nil =>
            obtain rfl | ⟨rest', rfl⟩ := hrest
            · exact .inl rfl
            · exact .inr ⟨'$', _, rfl, by simp [OpensHole]; decide⟩
        obtain hnil | ⟨d, ds, hcons, hopen⟩ := hnext
        · rw [hnil]
          simp [Piece.cut]
        · rw [hcons, Piece.cut, if_neg fun hword => hopen ⟨rfl, .inr hword⟩]
          rintro rfl
          exact hopen ⟨rfl, .inl rfl⟩
      · rw [Piece.cut]
        · rintro _ rfl
          exact absurd rfl hc
        · rintro _ _ rfl
          exact absurd rfl hc
    rw [List.cons_append, hstep, ih hfree.tail, List.reverse_cons, List.append_assoc,
      List.singleton_append]

/-- An expression in braces is cut out whole. -/
theorem cut_source {source : String} (hsource : Enclosed source.toList)
    (gathered rest : List Char) :
    Piece.cut gathered ((Piece.source source).raw ++ rest) =
      Piece.ofGathered gathered ++ .source source :: Piece.cut [] rest := by
  have hclose : closingBrace? 0 .code (source.toList ++ '\x7d' :: rest) =
    some source.toList.length := by
    rw [hsource, closingBrace?]
    simp
  simp only [Piece.raw, List.cons_append, List.append_assoc, List.nil_append]
  rw [Piece.cut, hclose]
  simp

/-- **A body is cut where it was put together**, if its texts and sources can be told apart. -/
theorem cut_rawBody {pieces : List Piece} (hsplit : SplitTexts (pieces.map Piece.text?))
    (hkinds : ∀ piece ∈ pieces, (∃ text, piece = .text text) ∨
      ∃ source, piece = .source source ∧ Enclosed source.toList) :
    Piece.cut [] (pieces.flatMap Piece.raw) = pieces := by
  induction pieces with
  | nil => simp [Piece.cut, Piece.ofGathered]
  | cons piece pieces ih =>
    have hmore : ∀ piece ∈ pieces, (∃ text, piece = .text text) ∨
        ∃ source, piece = .source source ∧ Enclosed source.toList :=
      fun piece hpiece => hkinds piece (by simp [hpiece])
    rw [List.flatMap_cons]
    obtain ⟨text, rfl⟩ | ⟨source, rfl, hsource⟩ := hkinds piece (by simp)
    · obtain ⟨hne, hfree, hhead, hsplit⟩ := hsplit
      have hrest : EndsText (pieces.flatMap Piece.raw) := by
        cases pieces with
        | nil => exact .inl rfl
        | cons next pieces =>
          obtain ⟨text', rfl⟩ | ⟨source, rfl, -⟩ := hmore next (by simp)
          · exact absurd rfl (hhead text')
          · exact .inr ⟨_, rfl⟩
      have hgathered : Piece.ofGathered (text.toList.reverse ++ []) = [.text text] := by
        simp [Piece.ofGathered, hne]
      rw [Piece.raw, cut_text hfree [] hrest, cut_gathered hrest, hgathered, ih hsplit hmore]
      rfl
    · rw [cut_source hsource, ih hsplit hmore]
      rfl

end LazyExpr
