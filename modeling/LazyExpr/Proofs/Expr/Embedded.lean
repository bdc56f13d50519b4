import Mathlib
import LazyExpr.Proofs.Expr.RoundTrip
import LazyExpr.Proofs.Token.Places

/-!
# Embedded expressions

The brace that closes an expression in a string is searched for before the expression is read, by a
search that knows about quotes, backslashes and braces and nothing else.  It finds the right brace
as long as there is no comment: braces are no part of any token but strings, and where a string ends
the search and the lexer agree, whatever escapes and strings are inside of it.

* `hasComment cs`: a lexer finds a comment in these characters; comments inside of strings do not
  count.
* `enclosed_of_scanBody`: the search leaves a string literal where the lexer does.
* `enclosed_of_lexes` — a search for a closing brace passes over a text without comments that has
  tokens.
* `parse_embedded` — **an expression in a string is read as it is read alone.**
-/

namespace LazyExpr

open Lexeme

/-! ## 1. Comments -/

/-- Whether there is a comment among the lexemes of a text. -/
def hasComment : List Char → Bool
  | [] => false
  | c :: cs => (c = '-' && cs.head? = some '-') || hasComment (cs.drop (scan c cs).2)
termination_by cs => cs.length
decreasing_by
  simp only [List.length_drop, List.length_cons]
  omega

theorem hasComment_cons_eq_false {c : Char} {cs : List Char} :
    hasComment (c :: cs) = false ↔
      ¬(c = '-' ∧ cs.head? = some '-') ∧ hasComment (cs.drop (scan c cs).2) = false := by
  rw [hasComment]
  simp

/-! ## 2. Where strings end -/

open Piece (closingBrace?)

/-- A search inside of a string comes out of it behind the quote that ends it for the lexer. -/
theorem closingBrace?_of_scanBody {cs contents : List Char} {taken : Nat}
    (h : scanBody cs = (.ok contents, taken)) (depth : Nat) (rest : List Char) :
    closingBrace? depth .string (cs ++ rest) =
      (closingBrace? depth .code (cs.drop taken ++ rest)).map (· + taken) := by
  fun_induction scanBody cs generalizing contents taken with
  | case1 => cases h
  | case2 =>
    cases h
    simp [closingBrace?]
  | case3 => cases h
  | case4 => cases h
  | case5 => cases h
  | case6 c cs hc d hd result n hbody ih =>
    cases result with
    | error => cases h
    | ok inner =>
      cases h
      -- the search passes over the backslash and over whatever is behind it
      simp only [List.cons_append, closingBrace?, if_true, ih hbody, Option.map_map]
      rfl
  | case7 => cases h
  | case8 c cs hquote hfeed hend hline hescape result n hbody ih =>
    have hslash : c ≠ '\\' := by
      intro hc
      cases cs with
      | nil => exact hend hc rfl
      | cons d cs => exact hescape d cs hc rfl
    cases result with
    | error => cases h
    | ok inner =>
      cases h
      simp only [List.cons_append, closingBrace?, hslash, if_neg hquote, if_false, ih hbody,
        Option.map_map]
      rfl

/-- **A search leaves a string literal where the lexer does.** -/
theorem enclosed_of_scanBody {cs contents : List Char} {taken : Nat}
    (h : scanBody cs = (.ok contents, taken)) (hrest : Enclosed (cs.drop taken)) :
    Enclosed ('"' :: cs) := by
  intro depth rest
  have hle := scanBody_le cs
  rw [h] at hle
  rw [List.cons_append, closingBrace?]
  simp only [if_true]
  rw [closingBrace?_of_scanBody h, hrest, Option.map_map, Option.map_map]
  congr 1
  funext n
  simp only [Function.comp_apply, List.length_drop, List.length_cons]
  omega

/-! ## 3. Passing over tokens -/

/-- What a number takes are digits and a point. -/
theorem all_take_scanNumber (c : Char) (cs : List Char) :
    (cs.take (scanNumber c cs).2).all (fun d => d.isDigit || d = '.') = true := by
  have hdigits : ∀ ds : List Char,
    (ds.takeWhile Char.isDigit).all (fun d => d.isDigit || d = '.') = true :=
    fun ds => List.all_eq_true.mpr fun d hd => by simp [List.mem_takeWhile_imp hd]
  have hsplit := List.takeWhile_append_dropWhile (p := Char.isDigit) (l := cs)
  unfold scanNumber
  split
  · next rest hrest =>
    simp only
    split
    · rw [take_length_takeWhile]
      exact hdigits cs
    · -- the digits in front of the point, the point, and the digits behind it
      have hall := hdigits cs
      rw [hrest] at hsplit
      generalize cs.takeWhile Char.isDigit = whole at hall hsplit
      subst hsplit
      rw [Nat.add_assoc, List.take_length_add_append, Nat.add_comm, List.take_succ_cons,
        take_length_takeWhile, List.all_append, List.all_cons, hall, hdigits]
      rfl
  · rw [take_length_takeWhile]
    exact hdigits cs

/-- What a sign takes is neither a quote nor a brace. -/
theorem all_take_scanSign {c : Char} {cs : List Char} {t : Token} {taken : Nat}
    (h : scanSign c cs = (.token t, taken)) : (c :: cs.take taken).all isPlain = true := by
  have hpairs : ∀ entry ∈ pairs, isPlain entry.1.1 = true ∧ isPlain entry.1.2 = true := by decide
  have hsingles : ∀ entry ∈ singles, isPlain entry.1 = true := by decide
  unfold scanSign at h
  split at h
  · next sign hpair =>
    cases h
    obtain ⟨d, hhead, hlookup⟩ := Option.bind_eq_some_iff.mp hpair
    obtain ⟨cs, rfl⟩ := List.head?_eq_some_iff.mp hhead
    obtain ⟨before, behind, hentries, -⟩ := List.lookup_eq_some_iff.mp hlookup
    have hentry := hpairs ((c, d), t) (by rw [hentries]; simp)
    simp [hentry.1, hentry.2]
  · split at h
    · next sign hsingle =>
      cases h
      obtain ⟨before, behind, hentries, -⟩ := List.lookup_eq_some_iff.mp hsingle
      have hentry := hsingles (c, t) (by rw [hentries]; simp)
      simp [hentry]
    · cases h

/-- A search passes over a token. -/
theorem enclosed_of_scan {c : Char} {cs : List Char} {t : Token} {taken : Nat}
    (h : scan c cs = (.token t, taken)) (hrest : Enclosed (cs.drop taken)) :
    Enclosed (c :: cs) := by
  have hclass : ∀ {n : Nat} (q : Char → Bool), q '"' = false ∧ q '\x7b' = false ∧ q '\x7d' = false →
      (c :: cs.take n).all q = true → n = taken → Enclosed (c :: cs) := by
    rintro _ q hq hall rfl
    have happend := (enclosed_of_class q hq hall).append hrest
    rwa [List.cons_append, List.take_append_drop] at happend
  unfold scan at h
  split at h
  · cases h
  split at h
  · cases h
  split at h
  · cases h
  split at h
  · next hquote =>
    subst hquote
    obtain ⟨contents, n, hbody, -, rfl⟩ := scanString_eq_token h
    rw [Nat.zero_add] at hrest
    exact enclosed_of_scanBody hbody hrest
  split at h
  · next hp =>
    obtain ⟨rfl, hquote⟩ := hp
    obtain ⟨cs, rfl⟩ := List.head?_eq_some_iff.mp hquote
    obtain ⟨contents, n, hbody, -, rfl⟩ := scanString_eq_token h
    rw [Nat.add_comm, List.drop_succ_cons] at hrest
    have hp : Enclosed ['p'] := enclosed_of_plain rfl
    exact hp.append (enclosed_of_scanBody hbody hrest)
  split at h
  · next hdigit =>
    refine hclass (fun d => d.isDigit || d = '.') (by decide) ?_ (congrArg Prod.snd h)
    rw [List.all_cons, all_take_scanNumber, hdigit]
    rfl
  split at h
  · next hstart =>
    refine hclass (fun d => isWordStart d || isWordPart d) (by decide) ?_ (congrArg Prod.snd h)
    rw [scanWord, take_length_takeWhile, List.all_cons, hstart]
    exact List.all_eq_true.mpr fun d hd => by simp [List.mem_takeWhile_imp hd]
  · exact hclass isPlain (by decide) (all_take_scanSign h) rfl

/-- A search passes over white space. -/
theorem enclosed_of_passes {c : Char} {cs : List Char} {lexeme : Lexeme} {taken : Nat}
    (h : Passes c cs lexeme taken) (hcomment : ¬(c = '-' ∧ cs.head? = some '-'))
    (hrest : Enclosed (cs.drop taken)) : Enclosed (c :: cs) := by
  cases h with
  | lineFeed hc =>
    subst hc
    have hfeed : Enclosed ['\n'] := enclosed_of_plain rfl
    exact hfeed.append hrest
  | spaces hc =>
    rw [drop_length_takeWhile] at hrest
    have hspaces : (c :: cs.takeWhile isSpace).all isSpace = true := by
      rw [List.all_cons, hc, List.all_takeWhile]
      rfl
    have happend := (enclosed_of_class isSpace (by decide) hspaces).append hrest
    rwa [List.cons_append, List.takeWhile_append_dropWhile] at happend
  | comment hc hnext => exact absurd ⟨hc, hnext⟩ hcomment

/-- **A search for a closing brace passes over a text without comments**, strings and braces in them
included. -/
theorem enclosed_of_lexes {cs : List Char} {ts : List Token} (h : Lexes cs ts)
    (hcomment : hasComment cs = false) : Enclosed cs := by
  induction h with
  | nil => exact .nil
  | @pass _ _ lexeme _ _ hscan hpass _ ih =>
    obtain ⟨hhere, hbehind⟩ := hasComment_cons_eq_false.mp hcomment
    rw [hscan] at hbehind
    have hpassed : lexeme.isPassed = true := by rcases hpass with rfl | rfl <;> rfl
    exact enclosed_of_passes (passes_of_scan hscan hpassed) hhere (ih hbehind)
  | token hscan _ ih =>
    obtain ⟨-, hbehind⟩ := hasComment_cons_eq_false.mp hcomment
    rw [hscan] at hbehind
    exact enclosed_of_scan hscan (ih hbehind)

/-! ## 4. An expression between two texts -/

/-- A text as a fragment of a string, where it is not empty. -/
def Fragment.ofText (text : String) : List Fragment := if text = "" then [] else [.text text]

theorem flatMap_raw_ofText (text : String) :
    ((Fragment.ofText text).map Fragment.piece).flatMap Piece.raw = text.toList := by
  unfold Fragment.ofText
  split
  · next hempty => simp [hempty]
  · simp [Fragment.piece, Piece.raw]

theorem holeFree_of_not_mem {cs : List Char} (h : '$' ∉ cs) : HoleFree cs := by
  induction cs with
  | nil => trivial
  | cons c cs ih =>
    rw [List.mem_cons, not_or] at h
    cases cs with
    | nil => trivial
    | cons d cs => exact ⟨fun hopen => h.1 hopen.1.symm, ih h.2⟩

/-- A text without dollar signs stands in front of anything but a text. -/
theorem splitTexts_ofText {text : String} {shapes : List (Option String)}
    (htext : '$' ∉ text.toList)
    (hhead : ∀ t, shapes.head? ≠ some (some t)) (hshapes : SplitTexts shapes) :
    SplitTexts (((Fragment.ofText text).map Fragment.piece).map Piece.text? ++ shapes) := by
  unfold Fragment.ofText
  split
  · exact hshapes
  · next hne => exact ⟨hne, holeFree_of_not_mem htext, hhead, hshapes⟩

variable {before after source : String}

/-- The body is cut into the texts and the expression between them. -/
theorem pieces_embedded (hsource : Enclosed source.toList) (hbefore : '$' ∉ before.toList)
    (hafter : '$' ∉ after.toList) :
    Piece.pieces (before ++ "$\x7b" ++ source ++ "\x7d" ++ after) =
      (Fragment.ofText before).map Fragment.piece ++
        .source source :: (Fragment.ofText after).map Fragment.piece := by
  have hraw : (before ++ "$\x7b" ++ source ++ "\x7d" ++ after).toList =
      ((Fragment.ofText before).map Fragment.piece ++
        .source source :: (Fragment.ofText after).map Fragment.piece).flatMap Piece.raw := by
    rw [List.flatMap_append, List.flatMap_cons, flatMap_raw_ofText, flatMap_raw_ofText]
    simp [Piece.raw]
  have htexts : ∀ text : String, ∀ piece ∈ (Fragment.ofText text).map Fragment.piece,
      ∃ t, piece = .text t := by
    intro text piece hpiece
    unfold Fragment.ofText at hpiece
    split at hpiece
    · cases hpiece
    · exact ⟨text, List.mem_singleton.mp hpiece⟩
  rw [Piece.pieces, hraw]
  refine cut_rawBody ?_ fun piece hpiece => ?_
  · have hend : SplitTexts (((Fragment.ofText after).map Fragment.piece).map Piece.text?) := by
      rw [← List.append_nil (List.map _ _)]
      exact splitTexts_ofText hafter (by simp) trivial
    rw [List.map_append, List.map_cons]
    exact splitTexts_ofText hbefore (by simp [Piece.text?]) hend
  · rcases List.mem_append.mp hpiece with hpiece | hpiece
    · exact .inl (htexts before piece hpiece)
    · rcases List.mem_cons.mp hpiece with rfl | hpiece
      · exact .inr ⟨source, rfl, hsource⟩
      · exact .inl (htexts after piece hpiece)

theorem Reads.ofText {limit n : Nat} {scope : Scope} {pieces : List Piece}
    {fragments : List Fragment}
    {ts : List Token} (h : Reads limit n scope (.pieces pieces) ts [.interpolated fragments] ts)
    (text : String) :
    Reads limit n scope (.pieces ((Fragment.ofText text).map Fragment.piece ++ pieces)) ts
      [.interpolated (Fragment.ofText text ++ fragments)] ts := by
  unfold Fragment.ofText
  split
  · exact h
  · exact .textPiece h

/-- **An expression in a string is read as it is read alone**: whatever is read from a text without
comments is embedded where the text stands between braces, and the texts around it are kept. -/
theorem parse_embedded {scope : Scope} {x : Expr} (h : parseIn scope source = .ok x)
    (hcomment : hasComment source.toList = false) (hbefore : '$' ∉ before.toList)
    (hafter : '$' ∉ after.toList) :
    parseIn scope ("p\"" ++ Text.escape before ++ "$\x7b" ++ Text.escape source ++ "\x7d" ++
        Text.escape after ++ "\"") =
      .ok (.interpolated (Fragment.ofText before ++ .embedded x :: Fragment.ofText after)) := by
  obtain ⟨ts, hlexes, hreads⟩ := reads_of_parseIn h
  have hpieces := pieces_embedded (enclosed_of_lexes hlexes hcomment) hbefore hafter
  have hwritten : "p\"" ++ Text.escape before ++ "$\x7b" ++ Text.escape source ++ "\x7d" ++
      Text.escape after ++ "\"" =
      "p\"" ++ Text.escape (before ++ "$\x7b" ++ source ++ "\x7d" ++ after) ++ "\"" := by
    refine String.toList_injective ?_
    simp [Text.toList_escape, Text.escapeChar]
  generalize before ++ "$\x7b" ++ source ++ "\x7d" ++ after = body at hpieces hwritten
  have hnothing : Reads maxNesting 0 scope (.pieces []) [] [.interpolated []] [] := .noPiece
  have hend := hnothing.ofText after
  rw [List.append_nil, List.append_nil] at hend
  have hall := Reads.ofText (.sourcePiece hlexes hreads hend) before
  rw [← hpieces] at hall
  have htokens := spells_template body [] [] (.inl rfl) .nil
  rw [List.append_nil] at htokens
  rw [hwritten]
  exact parseIn_eq_ok htokens (.expression (.template hall) (.stop trivial)) le_rfl (by decide)

/-- The expression has braces in a string and in a string within a string. -/
theorem parse_embedded_strings :
    let source := "\"\x7d\" ++ p\"$\x7b\\\"\x7d\\\"\x7d\""
    let x := Expr.binary .concat (.str "\x7d") (.interpolated [.embedded (.str "\x7d")])
    parseIn .standard source = .ok x ∧ hasComment source.toList = false ∧
      parseIn .standard ("p\"" ++ Text.escape "\"\x7b" ++ "$\x7b" ++ Text.escape source ++ "\x7d" ++
          Text.escape "" ++ "\"") =
        .ok (.interpolated [.text "\"\x7b", .embedded x]) := by
  intro source x
  have hparse : parseIn .standard source = .ok x := by cbv
  have hcomment : hasComment source.toList = false := by cbv
  exact ⟨hparse, hcomment, parse_embedded hparse hcomment (by decide) (by decide)⟩

end LazyExpr
