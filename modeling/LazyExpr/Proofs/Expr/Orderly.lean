import LazyExpr.Proofs.Expr.Completeness
import LazyExpr.Proofs.Expr.Holes
import LazyExpr.Proofs.Expr.Watched
import LazyExpr.Proofs.Token.Spelling

/-!
# Readers keep order

A dozen readers share one token that waits and one count of levels, and each of them may stop at any
point with an error.  Here all of them are run on a stream and on a watched one, both in good
order: both end in the same way, and leave a stream in good order on which the same readings are
open.

The induction is on the fuel.  What pays for it is the text: between two calls a token is taken, or
three calls at most go by before one is, and a text that is embedded in a token is shorter than the
token.

* `ParseError.IsInternal` — the errors of a reader that trips over itself.
* `Watched.Keeps` — **what one step preserves**, and `Watched.Keeps.bind` puts steps together.
* `Watched.agreeAt` — what every reader preserves, with the fuel that each of them needs.
* `parseIn_orderly` — **reading a text ends in good order, with no error of the reader's own.**
-/

namespace LazyExpr

/-! ## 1. Errors that nobody should see

What goes wrong in an embedded text is reported by its message alone.  So it has to be shown that no
other error reads like an internal one: a message begins with the line, or with a text of its own,
and says the same only where the errors are the same. -/

namespace ParseError

/-- The error says that the reader tripped over itself: it took a token that it had not looked at,
or found no start for a range that it had read the start of; or it reports that of an embedded
expression. -/
inductive IsInternal : ParseError → Prop where
  | nothingPeeked : IsInternal .nothingPeeked
  | rangeStart : IsInternal (.unexpectedEnd "a range start")
  | embedded {cause : ParseError} (h : IsInternal cause) (place : Location) :
      IsInternal (.invalidInterpolation cause.message place)

theorem toList_onLine (l : Location) (text : String) : (onLine l text).toList =
    "Error on line ".toList ++ ((toString l.line).toList ++ (": ".toList ++ text.toList)) := by
  unfold onLine
  rw [String.toList_append, String.toList_append, String.toList_append, List.append_assoc,
    List.append_assoc]

/-- Messages that name a line are equal behind it. -/
theorem onLine_inj {l l' : Location} {text text' : String} (h : onLine l text = onLine l' text') :
    text = text' := by
  have hdigits : ∀ n : Nat, ∀ c ∈ (toString n).toList, c.isDigit = true := by
    intro n
    rw [Nat.toString_eq_ofList_toDigits, String.toList_ofList]
    exact List.all_eq_true.mp (all_isDigit_toDigits n)
  have hlist := congrArg String.toList h
  rw [toList_onLine, toList_onLine] at hlist
  have hrest := congrArg (List.dropWhile Char.isDigit) (List.append_cancel_left hlist)
  rw [List.dropWhile_append_of_pos (hdigits _), List.dropWhile_append_of_pos (hdigits _)] at hrest
  have hsame : text.toList = text'.toList := by simpa using hrest
  exact String.toList_inj.mp hsame

/-- Texts that begin differently are different. -/
theorem ne_of_take {a b : String} (n : Nat) (h : a.toList.take n ≠ b.toList.take n) : a ≠ b := by
  rintro rfl
  exact h rfl

/-- A message on a line begins like no other. -/
theorem onLine_ne {l : Location} {text other : String} (h : other.toList.take 2 ≠ ['E', 'r']) :
    onLine l text ≠ other := by
  have hstart : (onLine l text).toList.take 2 = ['E', 'r'] := by
    rw [toList_onLine]
    rfl
  exact ne_of_take 2 fun heq => h (heq.symm.trans hstart)

/-- The only message that reads like the report of an embedded error is such a report. -/
theorem eq_of_message_embedded {e : ParseError} {reason : String} {l : Location}
    (h : e.message = onLine l ("Invalid interpolation: " ++ reason)) :
    ∃ l', e = .invalidInterpolation reason l' := by
  cases e with
  | invalidInterpolation reason' l' =>
    have htext := onLine_inj h
    have hlist := congrArg String.toList htext
    simp only [String.toList_append] at hlist
    exact ⟨l', by rw [String.toList_inj.mp (List.append_cancel_left hlist)]⟩
  | unexpectedEnd | nestingTooDeep | nothingPeeked =>
    unfold message at h
    refine absurd h.symm (onLine_ne ?_)
    simp
  | _ =>
    unfold message at h
    refine absurd (onLine_inj h) (ne_of_take 9 ?_)
    simp

/-- **An error that reads like an internal one is internal.** -/
theorem IsInternal.of_message {e cause : ParseError} (hcause : cause.IsInternal)
    (h : e.message = cause.message) : e.IsInternal := by
  cases hcause with
  | nothingPeeked =>
    cases e with
    | nothingPeeked => exact .nothingPeeked
    | unexpectedEnd | nestingTooDeep =>
      unfold message at h
      refine absurd h (ne_of_take 1 ?_)
      simp
    | _ =>
      unfold message at h
      refine absurd h (onLine_ne ?_)
      simp
  | rangeStart =>
    cases e with
    | unexpectedEnd expected =>
      have hlist := congrArg String.toList h
      unfold message at hlist
      simp only [String.toList_append] at hlist
      have hexpected := List.append_cancel_left (List.append_cancel_right hlist)
      rw [String.toList_inj.mp hexpected]
      exact .rangeStart
    | nothingPeeked | nestingTooDeep =>
      unfold message at h
      refine absurd h (ne_of_take 1 ?_)
      simp
    | _ =>
      unfold message at h
      refine absurd h (onLine_ne ?_)
      simp
  | embedded hinner place =>
    obtain ⟨l, rfl⟩ := eq_of_message_embedded h
    exact .embedded hinner l

theorem IsInternal.of_embedded {e : ParseError} {l : Location}
    (h : (invalidInterpolation e.message l).IsInternal) : e.IsInternal := by
  generalize hreason : e.message = reason at h
  cases h with
  | embedded hcause => exact hcause.of_message hreason

theorem not_isInternal_unexpectedEnd {expected : String} (h : expected ≠ "a range start") :
    ¬(unexpectedEnd expected).IsInternal := by
  intro hinternal
  cases hinternal
  exact h rfl

theorem not_isInternal_unclosed (l : Location) :
    ¬(invalidInterpolation "unclosed '$\x7b'" l).IsInternal := by
  intro h
  generalize hreason : "unclosed '$\x7b'" = reason at h
  cases h with
  | embedded hcause =>
    cases hcause with
    | nothingPeeked | rangeStart =>
      unfold message at hreason
      refine absurd hreason (ne_of_take 1 ?_)
      simp
    | embedded =>
      unfold message at hreason
      refine absurd hreason.symm (onLine_ne ?_)
      simp

end ParseError

/-! ## 2. How much is left of a text -/

namespace TokenStream

/-- What there is to read: the rest of the text, and the token that was looked at. -/
def size (s : TokenStream) : Nat :=
  s.point.rest.length + (s.pending.map fun spanned => spanned.token.weight).getD 0

theorem size_ofSource (source : String) : (ofSource source).size = source.length := by
  simp [size, ofSource, Point.ofSource, String.length_toList]

end TokenStream

/-- What the next token, or error, leaves of `n` characters. -/
def Point.LeavesOf (n : Nat) : Except ParseError (Option Spanned) × Point → Prop
  | (.ok none, q) => q.rest.length ≤ n
  | (.ok (some spanned), q) => q.rest.length + spanned.token.weight ≤ n
  | (.error e, q) => q.rest.length ≤ n ∧ ¬e.IsInternal

theorem Point.LeavesOf.mono {n m : Nat} {r : Except ParseError (Option Spanned) × Point}
    (h : LeavesOf n r) (hnm : n ≤ m) : LeavesOf m r := by
  match r, h with
  | (.ok none, _), h => exact Nat.le_trans h hnm
  | (.ok (some _), _), h => exact Nat.le_trans h hnm
  | (.error _, _), h => exact ⟨Nat.le_trans h.1 hnm, h.2⟩

theorem LexError.not_isInternal (e : LexError) (c : Char) (l : Location) :
    ¬(e.toParseError c l).IsInternal := by
  cases e <;> rintro ⟨⟩

/-- The next token is taken off the text, and what is no token is an error of the text. -/
theorem Point.leavesOf_next (p : Point) : LeavesOf p.rest.length p.next := by
  fun_induction Point.next p with
  | case1 => exact le_rfl
  | case2 c cs line column lineText point taken text rest hscan ih =>
    refine ih.mono ?_
    simp only [Point.skip, rest, List.length_drop, List.length_cons]
    omega
  | case3 c cs line column lineText point taken rest hscan ih =>
    refine ih.mono ?_
    simp only [Point.newLine, rest, List.length_drop, List.length_cons]
    omega
  | case4 c cs line column lineText point taken text rest token hscan =>
    have hweight := (Lexeme.scans_of_scan hscan).weight_le
    simp only [LeavesOf, Point.skip, rest, List.length_cons]
    omega
  | case5 c cs line column lineText point taken text rest e hscan =>
    refine ⟨?_, e.not_isInternal _ _⟩
    simp only [Point.skip, rest, List.length_drop, List.length_cons]
    omega

/-! ## 3. Runs that keep order -/

namespace Watched

open Reader

/-- A watched stream in good order. -/
structure Sound (t : Watched) : Prop where
  orderly : Orderly t.log
  /-- The stream counts the readings that are going on. -/
  counted : t.stream.nesting = (openAfter t.log).length
  bounded : t.stream.nesting ≤ maxNesting
  /-- The token that waits was looked at. -/
  ready : t.stream.pending ≠ none → Ready t.log
  finished : ∀ log ∈ t.finished, Finished log

theorem sound_start (source : String) {finished : List (List Moment)}
    (h : ∀ log ∈ finished, Finished log) : (start source finished).Sound where
  orderly := orderly_nil
  counted := rfl
  bounded := Nat.zero_le _
  ready := fun hpending => absurd rfl hpending
  finished := h

/-- A deed in order keeps a watched stream in order. -/
theorem Sound.noting {t : Watched} (ht : t.Sound) {s : TokenStream} {deed : Deed}
    (hlooked : deed = .took → Ready t.log)
    (hnested : ∀ what, deed = .ended what → (openAfter t.log).head? = some what)
    (hcounted : s.nesting = (deed.open (openAfter t.log)).length)
    (hbounded : s.nesting ≤ maxNesting)
    (hready : s.pending ≠ none → Ready (t.log ++ [⟨deed, s.nesting⟩])) :
    (t.noting s deed).Sound where
  orderly := ht.orderly.snoc ⟨hlooked, hnested, by simpa using hcounted, hbounded⟩
  counted := by simpa [Watched.noting] using hcounted
  bounded := hbounded
  ready := hready
  finished := ht.finished

/-- A look keeps a watched stream in order. -/
theorem Sound.looked {t : Watched} (ht : t.Sound) {s : TokenStream} {found : Bool}
    (hnesting : s.nesting = t.stream.nesting) (hfound : s.pending ≠ none → found = true) :
    (t.noting s (.looked found)).Sound := by
  refine ht.noting (by rintro ⟨⟩) (by rintro _ ⟨⟩) ?_ ?_ fun hpending => ?_
  · rw [hnesting, ht.counted]
    rfl
  · rw [hnesting]
    exact ht.bounded
  · rw [hfound hpending]
    exact ready_looked t.log s.nesting

/-- What a run that started at `t` has left behind, however it ended. -/
structure After (t t' : Watched) : Prop where
  sound : t'.Sound
  /-- The same readings are going on. -/
  opened : openAfter t'.log = openAfter t.log
  size : t'.stream.size ≤ t.stream.size

theorem After.trans {t t' t'' : Watched} (h : After t t') (h' : After t' t'') : After t t'' :=
  ⟨h'.sound, h'.opened.trans h.opened, Nat.le_trans h'.size h.size⟩

theorem Sound.after {t : Watched} (ht : t.Sound) : After t t := ⟨ht, rfl, le_rfl⟩

/-- `Keeps p q t post`: from `t`, the watched step `p` ends as the step `q` does, in good order.
Where it returns, `post` holds, and where it fails, the error is not internal. -/
def Keeps {α : Type} (p : WatchedParse α) (q : Parse α) (t : Watched)
    (post : α → TokenStream → Prop) : Prop :=
  (∃ a t', p t = .ok a t' ∧ q t.stream = .ok a t'.stream ∧ After t t' ∧ post a t'.stream) ∨
    ∃ e t', p t = .error e t' ∧ q t.stream = .error e t'.stream ∧ After t t' ∧ ¬e.IsInternal

namespace Keeps

variable {α β : Type} {p : WatchedParse α} {q : Parse α} {f : α → WatchedParse β} {g : α → Parse β}
  {t : Watched} {P P' : α → TokenStream → Prop} {Q : β → TokenStream → Prop}

theorem imp (h : Keeps p q t P) (hP : ∀ a s, P a s → P' a s) : Keeps p q t P' := by
  obtain ⟨a, t', hp, hq, hafter, hpost⟩ | herror := h
  · exact .inl ⟨a, t', hp, hq, hafter, hP _ _ hpost⟩
  · exact .inr herror

theorem pure {a : α} (ht : t.Sound) (h : P a t.stream) : Keeps (Pure.pure a) (Pure.pure a) t P :=
  .inl ⟨a, t, rfl, rfl, ht.after, h⟩

theorem throw {e : ParseError} (ht : t.Sound) (he : ¬e.IsInternal) :
    Keeps (MonadExcept.throw e) (MonadExcept.throw e) t P :=
  .inr ⟨e, t, rfl, rfl, ht.after, he⟩

/-- Nothing comes after a failure. -/
theorem throw_bind {e : ParseError} (ht : t.Sound) (he : ¬e.IsInternal) :
    Keeps (MonadExcept.throw e >>= f) (MonadExcept.throw e >>= g) t Q :=
  .inr ⟨e, t, rfl, rfl, ht.after, he⟩

/-- One step after another. -/
theorem bind (h : Keeps p q t P)
    (hf : ∀ a t', After t t' → P a t'.stream → Keeps (f a) (g a) t' Q) :
    Keeps (p >>= f) (q >>= g) t Q := by
  have hp : (p >>= f) t = EStateM.bind p f t := rfl
  have hq : (q >>= g) t.stream = EStateM.bind q g t.stream := rfl
  unfold Keeps
  rw [hp, hq]
  unfold EStateM.bind
  obtain ⟨a, t', hp, hq, hafter, hpost⟩ | ⟨e, t', hp, hq, hafter, he⟩ := h
  · rw [hp, hq]
    obtain ⟨b, t'', hf, hg, hafter', hpost'⟩ | ⟨e, t'', hf, hg, hafter', he⟩ := hf a t' hafter hpost
    · exact .inl ⟨b, t'', hf, hg, hafter.trans hafter', hpost'⟩
    · exact .inr ⟨e, t'', hf, hg, hafter.trans hafter', he⟩
  · rw [hp, hq]
    exact .inr ⟨e, t', rfl, rfl, hafter, he⟩

end Keeps

section Steps

variable {α β : Type} {t : Watched}

/-- A look shows the token that waits from then on. -/
theorem keeps_peek (ht : t.Sound) : Keeps peek TokenStream.peek t fun found s =>
    s.pending = found := by
  obtain ⟨⟨source, point, pending, nesting⟩, log, finished⟩ := t
  cases pending with
  | some spanned =>
    refine .inl ⟨some spanned, _, rfl, rfl, ⟨?_, openAfter_snoc .., le_rfl⟩, rfl⟩
    exact ht.looked rfl fun _ => rfl
  | none =>
    have hleaves := point.leavesOf_next
    rcases hnext : point.next with ⟨e | found, rest⟩
    · rw [hnext] at hleaves
      refine .inr ⟨e, noting _ ⟨source, rest, none, nesting⟩ (.looked false), ?_, ?_,
        ⟨?_, openAfter_snoc .., ?_⟩, hleaves.2⟩
      · simp only [peek, TokenStream.peek, hnext]
      · simp only [TokenStream.peek, hnext, Watched.noting]
      · exact ht.looked rfl fun h => absurd rfl h
      · simpa [TokenStream.size, Watched.noting] using hleaves.1
    · rw [hnext] at hleaves
      refine .inl ⟨found, noting _ ⟨source, rest, found, nesting⟩ (.looked found.isSome), ?_, ?_,
        ⟨?_, openAfter_snoc .., ?_⟩, rfl⟩
      · simp only [peek, TokenStream.peek, hnext]
      · simp only [TokenStream.peek, hnext, Watched.noting]
      · exact ht.looked rfl Option.isSome_iff_ne_none.mpr
      · cases found with
        | none => simpa [TokenStream.size, Watched.noting, Point.LeavesOf] using hleaves
        | some spanned => simpa [TokenStream.size, Watched.noting, Point.LeavesOf] using hleaves

/-- Looks, and goes on with the token that waits. -/
theorem Keeps.look {f : Option Token → WatchedParse β} {g : Option Token → Parse β}
    {Q : β → TokenStream → Prop} (ht : t.Sound)
    (h : ∀ t', After t t' → Keeps (f (t'.stream.pending.map Spanned.token))
      (g (t'.stream.pending.map Spanned.token)) t' Q) :
    Keeps (peekToken >>= f) (peekToken >>= g) t Q := by
  have hlook : Keeps peekToken peekToken t
      fun token s => token = s.pending.map Spanned.token := by
    refine (keeps_peek ht).bind fun found t' hafter hfound => .pure hafter.sound ?_
    rw [hfound]
  refine hlook.bind fun token t' hafter htoken => ?_
  rw [htoken]
  exact h t' hafter

/-- Takes the token that waits. -/
theorem keeps_advance (ht : t.Sound) {spanned : Spanned}
    (hpending : t.stream.pending = some spanned) :
    Keeps advance TokenStream.advance t fun taken s =>
      taken = spanned ∧ s.size + spanned.token.weight ≤ t.stream.size := by
  obtain ⟨⟨source, point, pending, nesting⟩, log, finished⟩ := t
  cases hpending
  refine .inl ⟨spanned, _, rfl, rfl, ⟨?_, openAfter_snoc .., Nat.le_add_right _ _⟩, rfl, le_rfl⟩
  exact ht.noting (fun _ => ht.ready (Option.some_ne_none _)) (by rintro _ ⟨⟩) ht.counted ht.bounded
    fun h => absurd rfl h

/-- Takes the token that waits, and goes on with less to read. -/
theorem Keeps.take {f : Spanned → WatchedParse β} {g : Spanned → Parse β}
    {Q : β → TokenStream → Prop} (ht : t.Sound) {token : Token}
    (hpending : t.stream.pending.map Spanned.token = some token)
    (h : ∀ spanned t', After t t' → t'.stream.size + token.weight ≤ t.stream.size →
      t'.stream.size < t.stream.size → Keeps (f spanned) (g spanned) t' Q) :
    Keeps (advance >>= f) (TokenStream.advance >>= g) t Q := by
  obtain ⟨spanned, hspanned, rfl⟩ := Option.map_eq_some_iff.mp hpending
  refine (keeps_advance ht hspanned).bind fun taken t' hafter htaken => ?_
  have hpos := spanned.token.weight_pos
  exact h taken t' hafter htaken.2 (by omega)

/-- An error that names what is missing is not internal, unless that is the start of a range. -/
theorem keeps_missing (ht : t.Sound) {description : String}
    (hdescription : description ≠ "a range start") {P : α → TokenStream → Prop} :
    Keeps (missing description) (missing description) t P := by
  refine (keeps_peek ht).bind fun found t' hafter _ => ?_
  cases found with
  | none => exact .throw hafter.sound (ParseError.not_isInternal_unexpectedEnd hdescription)
  | some spanned => exact .throw hafter.sound (by rintro ⟨⟩)

theorem keeps_expect (ht : t.Sound) (token : Token) {description : String}
    (hdescription : description ≠ "a range start") :
    Keeps (expect token description) (expect token description) t fun _ _ => True := by
  refine (keeps_peek ht).bind fun found t' hafter hfound => ?_
  cases found with
  | none => exact .throw hafter.sound (ParseError.not_isInternal_unexpectedEnd hdescription)
  | some spanned =>
    by_cases hagrees : spanned.token.agrees token
    · simp only [hagrees, if_true]
      exact (keeps_advance hafter.sound hfound).imp fun _ _ _ => trivial
    · simp only [hagrees]
      exact .throw hafter.sound (by rintro ⟨⟩)

theorem keeps_ofExcept (ht : t.Sound) {x : Except ParseError α}
    (h : ∀ e, x = .error e → ¬e.IsInternal) :
    Keeps (MonadExcept.ofExcept x) (MonadExcept.ofExcept x) t fun _ _ => True := by
  cases x with
  | ok a => exact .pure ht trivial
  | error e => exact .throw ht (h e rfl)

theorem keeps_resolve (ht : t.Sound) (scope : Scope) (name : String) (location : Location) :
    Keeps (Reading.resolve scope name location) (Reading.resolve scope name location) t
      fun _ _ => True := by
  refine keeps_ofExcept ht fun e he => ?_
  unfold Scope.resolve at he
  split at he
  · cases he
  · cases he
    rintro ⟨⟩

/-- At the limit, going deeper is refused. -/
theorem keeps_tooDeep (ht : t.Sound) (hfull : ¬t.stream.nesting < maxNesting) :
    Keeps tooDeep TokenStream.descend t fun _ _ => False := by
  unfold Keeps
  simp only [tooDeep, TokenStream.descend, Bind.bind, EStateM.bind, get, getThe, MonadStateOf.get,
    EStateM.get, hfull, if_false]
  obtain ⟨found, t', hp, hq, hafter, -⟩ | ⟨e, t', hp, hq, hafter, he⟩ := keeps_peek ht
  · rw [hp, hq]
    cases found with
    | none =>
      exact .inr ⟨_, t', rfl, rfl, hafter, ParseError.not_isInternal_unexpectedEnd (by decide)⟩
    | some spanned => exact .inr ⟨_, t', rfl, rfl, hafter, by rintro ⟨⟩⟩
  · rw [hp, hq]
    exact .inr ⟨e, t', rfl, rfl, hafter, he⟩

/-- **One level deeper and up again**: the count goes up with what begins and down with what
ends. -/
theorem keeps_deeper (ht : t.Sound) (what : Activation) {p : WatchedParse α} {q : Parse α}
    {P : α → TokenStream → Prop} (hP : ∀ a s, P a s → P a s.ascend)
    (h : ∀ t', t'.Sound → t'.stream.size = t.stream.size → Keeps p q t' P) :
    Keeps (deeper what p) (TokenStream.deeper q) t P := by
  by_cases hlt : t.stream.nesting < maxNesting
  · let s := { t.stream with nesting := t.stream.nesting + 1 }
    have hdescend : descend what t = .ok () (t.noting s (.began what)) := if_pos hlt
    have hsound : (t.noting s (.began what)).Sound := by
      refine ht.noting (by rintro ⟨⟩) (by rintro _ ⟨⟩) ?_ hlt fun hpending => ?_
      · simp only [s, Deed.open, List.length_cons, ht.counted]
      · exact (ht.ready hpending).snoc (by rintro ⟨⟩)
    -- what ends is what began, since the run has left the same readings going on
    have hascend : ∀ {t'}, After (t.noting s (.began what)) t' → After t (t'.ascend what) := by
      intro t' hafter
      have hopened : openAfter t'.log = what :: openAfter t.log := by
        rw [hafter.opened]
        exact openAfter_snoc ..
      have hcounted := hafter.sound.counted
      rw [hopened, List.length_cons] at hcounted
      refine ⟨hafter.sound.noting (by rintro ⟨⟩) ?_ ?_ ?_ fun hpending => ?_, ?_, hafter.size⟩
      · rintro _ ⟨⟩
        simp [hopened]
      · simp only [TokenStream.ascend, Deed.open, hopened, List.tail_cons]
        omega
      · have := hafter.sound.bounded
        simp only [TokenStream.ascend]
        omega
      · exact (hafter.sound.ready hpending).snoc (by rintro ⟨⟩)
      · exact (openAfter_snoc ..).trans (by simp [Deed.open, hopened])
    unfold Keeps deeper TokenStream.deeper
    rw [hdescend, TokenStream.descend_of_lt hlt]
    obtain ⟨a, t', hp, hq, hafter, hpost⟩ | ⟨e, t', hp, hq, hafter, he⟩ := h _ hsound rfl
    · change q s = _ at hq
      refine .inl ⟨a, t'.ascend what, ?_, ?_, hascend hafter, hP _ _ hpost⟩
      · simp only [hp]
      · simp only [s, hq]
        rfl
    · change q s = _ at hq
      refine .inr ⟨e, t'.ascend what, ?_, ?_, hascend hafter, he⟩
      · simp only [hp]
      · simp only [s, hq]
        rfl
  · have hdescend : descend what t = tooDeep t := if_neg hlt
    unfold Keeps deeper TokenStream.deeper
    rw [hdescend]
    obtain ⟨_, _, _, _, _, hfalse⟩ | ⟨e, t', hp, hq, hafter, he⟩ := keeps_tooDeep ht hlt
    · exact hfalse.elim
    · rw [hp, hq]
      exact .inr ⟨e, t', rfl, rfl, hafter, he⟩

/-- An expression embedded in a string is read from a stream of its own, which is done with then. -/
theorem keeps_embedded (ht : t.Sound) (source : String) (location : Location)
    {p : WatchedParse Expr} {q : Parse Expr} {P : Expr → TokenStream → Prop}
    (h : Keeps p q (start source t.finished) P) :
    Keeps (embedded source location p)
      (MonadExcept.ofExcept (TokenStream.embedded source location q)) t
      fun _ _ => True := by
  -- the outer stream waits meanwhile, with one more log beside it
  have hafter : ∀ {inner}, After (start source t.finished) inner →
      After t { t with finished := inner.finished ++ [inner.log] } := by
    intro inner hinner
    refine ⟨⟨ht.orderly, ht.counted, ht.bounded, ht.ready, fun log hlog => ?_⟩, rfl, le_rfl⟩
    rcases List.mem_append.mp hlog with hlog | hlog
    · exact hinner.sound.finished log hlog
    · rw [List.mem_singleton.mp hlog]
      exact ⟨hinner.sound.orderly, hinner.opened⟩
  unfold Keeps embedded TokenStream.embedded
  obtain ⟨e, inner, hp, hq, hinner, -⟩ | ⟨e, inner, hp, hq, hinner, he⟩ := h
  · change q (.ofSource source) = _ at hq
    rw [hp, hq]
    exact .inl ⟨e, _, rfl, rfl, hafter hinner, trivial⟩
  · change q (.ofSource source) = _ at hq
    rw [hp, hq]
    exact .inr ⟨_, _, rfl, rfl, hafter hinner, fun h => he h.of_embedded⟩

end Steps

/-! ## 4. Parts of the readers -/

/-- What was found took something of `n` characters off the stream. -/
def Shrinks {α : Type} (n : Nat) (found : Option α) (s : TokenStream) : Prop :=
  found.isSome = true → s.size < n

theorem shrinks_none {α : Type} {n : Nat} {s : TokenStream} : Shrinks n (none : Option α) s :=
  fun h => absurd h Bool.false_ne_true

/-- From every stream that has no more than `n` to read, the two readers agree, and take something
off the stream where they find something. -/
def Agree {α : Type} (n : Nat) (p : WatchedParse (Option α)) (q : Parse (Option α)) : Prop :=
  ∀ t : Watched, t.Sound → t.stream.size ≤ n → Keeps p q t (Shrinks t.stream.size)

section Parts

variable {t : Watched} {n : Nat} {p : WatchedParse (Option Expr)} {q : Parse (Option Expr)}

theorem keeps_toSingle (ht : t.Sound) (parsed : Parsed) :
    Keeps (toSingle parsed) (toSingle parsed) t fun _ _ => True := by
  cases parsed with
  | single e => exact .pure ht trivial
  | group items comma => exact .throw ht (by rintro ⟨⟩)

theorem keeps_required (h : Keeps p q t (Shrinks n)) {description : String}
    (hdescription : description ≠ "a range start") :
    Keeps (required description p) (required description q) t fun _ s => s.size < n := by
  refine h.bind fun found t' hafter hfound => ?_
  cases found with
  | none => exact keeps_missing hafter.sound hdescription
  | some e => exact .pure hafter.sound (hfound rfl)

theorem keeps_complete (h : Keeps p q t (Shrinks n)) :
    Keeps (complete p) (complete q) t fun _ _ => True := by
  refine h.bind fun found t' hafter _ => ?_
  cases found with
  | none =>
    refine (keeps_peek hafter.sound).bind fun next t' hafter _ => ?_
    cases next with
    | none => exact .throw hafter.sound (ParseError.not_isInternal_unexpectedEnd (by decide))
    | some spanned => exact .throw hafter.sound (by rintro ⟨⟩)
  | some e =>
    refine (keeps_peek hafter.sound).bind fun next t' hafter _ => ?_
    cases next with
    | none => exact .pure hafter.sound trivial
    | some spanned => exact .throw hafter.sound (by rintro ⟨⟩)

theorem keeps_operand (ht : t.Sound) (op : UnaryOp) {p : WatchedParse (Option Parsed)}
    {q : Parse (Option Parsed)} (h : Agree n p q) (hn : t.stream.size ≤ n) :
    Keeps (operand op p) (operand op q) t fun _ _ => True := by
  have hdeeper := keeps_deeper ht .operand (P := fun _ _ => True) (fun _ _ h => h)
    fun t' ht' hsize => (h t' ht' (by omega)).imp fun _ _ _ => trivial
  refine hdeeper.bind fun found t' hafter _ => ?_
  cases found with
  | none => exact keeps_missing hafter.sound (by decide)
  | some parsed =>
    refine (keeps_toSingle hafter.sound parsed).bind fun e t' hafter _ => ?_
    exact .pure hafter.sound trivial

theorem keeps_conditional (ht : t.Sound) (h : Agree n p q) (hn : t.stream.size ≤ n) :
    Keeps (conditional p) (conditional q) t fun _ _ => True := by
  refine (keeps_required (h t ht hn) (by decide)).bind fun condition t₁ h₁ _ => ?_
  have hn₁ := h₁.size.trans hn
  refine (keeps_expect h₁.sound _ (by decide)).bind fun _ t₂ h₂ _ => ?_
  have hn₂ := h₂.size.trans hn₁
  refine (keeps_required (h t₂ h₂.sound hn₂) (by decide)).bind fun yes t₃ h₃ _ => ?_
  have hn₃ := h₃.size.trans hn₂
  refine (keeps_expect h₃.sound _ (by decide)).bind fun _ t₄ h₄ _ => ?_
  refine (keeps_required (h t₄ h₄.sound (h₄.size.trans hn₃)) (by decide)).bind fun no t₅ h₅ _ => ?_
  exact .pure h₅.sound trivial

theorem keeps_parameters (ht : t.Sound) (inner : Scope) (depth : Nat) (names : List String)
    {fuel fuel' : Nat}
    (hfuel : t.stream.size + 1 ≤ min fuel fuel') :
    Keeps (parameters inner depth fuel names) (parameters inner depth fuel' names) t
      fun _ _ => True := by
  induction fuel generalizing t names fuel' with
  | zero => omega
  | succ fuel ih =>
    obtain ⟨fuel', rfl⟩ : ∃ k, fuel' = k + 1 := ⟨fuel' - 1, by omega⟩
    refine (keeps_peek ht).bind fun found t' hafter hpending => ?_
    have hwaits := congrArg (Option.map Spanned.token) hpending
    have hsize := hafter.size
    rcases found with _ | ⟨token, location⟩
    · exact keeps_missing hafter.sound (by decide)
    cases token with
    | identifier name =>
      refine .take hafter.sound hwaits fun _ t'' hafter' _ hless => ih hafter'.sound _ ?_
      omega
    | arrow =>
      by_cases hempty : names.isEmpty
      · simp only [hempty, if_true]
        exact .throw_bind hafter.sound (by rintro ⟨⟩)
      · simp only [hempty]
        refine .take hafter.sound hwaits fun _ t'' hafter' _ _ => .pure hafter'.sound trivial
    | _ => exact keeps_missing hafter.sound (by decide)

theorem keeps_range (h : Keeps p q t (Shrinks n)) {items : List Expr} (hpos : 0 < items.length)
    (htwo : items.length ≤ 2) :
    Keeps (range items p) (range items q) t fun _ _ => True := by
  refine h.bind fun stop t₁ h₁ _ => ?_
  refine (keeps_expect h₁.sound _ (by decide)).bind fun _ t₂ h₂ _ => ?_
  rcases items with _ | ⟨first, _ | ⟨second, _ | ⟨third, more⟩⟩⟩
  · cases hpos
  · exact .pure h₂.sound trivial
  · exact .pure h₂.sound trivial
  · simp at htwo

/-- What stands in parentheses is there once they are closed. -/
theorem keeps_closing {α : Type} (ht : t.Sound) (a : α) :
    Keeps (do let _ ← expect .rightParen "')'"; return a)
      (do let _ ← expect .rightParen "')'"; return a) t fun _ _ => True :=
  (keeps_expect ht _ (by decide)).bind fun _ _ hafter _ => .pure hafter.sound trivial

/-- What is read behind a token leaves less than there was before it. -/
theorem keeps_found {α : Type} {p : WatchedParse α} {q : Parse α} (wrap : α → Parsed)
    (h : Keeps p q t fun _ _ => True) (hless : t.stream.size < n) :
    Keeps (do return some (wrap (← p))) (do return some (wrap (← q))) t (Shrinks n) := by
  refine h.bind fun a t' hafter _ => .pure hafter.sound fun _ => ?_
  exact Nat.lt_of_le_of_lt hafter.size hless

theorem keeps_map {α β : Type} {p : WatchedParse α} {q : Parse α} (f : α → β)
    (h : Keeps p q t fun _ _ => True) : Keeps (f <$> p) (f <$> q) t fun _ _ => True := by
  rw [map_eq_pure_bind, map_eq_pure_bind]
  exact h.bind fun a t' hafter _ => .pure hafter.sound trivial

/-- Steps one by one along a list. -/
theorem keeps_mapM {α β : Type} {f : α → WatchedParse β} {g : α → Parse β} (ht : t.Sound)
    (xs : List α) (h : ∀ x ∈ xs, ∀ t', t'.Sound → Keeps (f x) (g x) t' fun _ _ => True) :
    Keeps (xs.mapM f) (xs.mapM g) t fun _ _ => True := by
  induction xs generalizing t with
  | nil => exact .pure ht trivial
  | cons x xs ih =>
    rw [List.mapM_cons, List.mapM_cons]
    refine (h x List.mem_cons_self t ht).bind fun y t' hafter _ => ?_
    refine (ih hafter.sound fun x' hx' => h x' (List.mem_cons_of_mem _ hx')).bind
      fun ys t'' hafter' _ => ?_
    exact .pure hafter'.sound trivial

end Parts

/-! ## 5. The readers

A reader with `k` characters left needs fuel for `3 * k` calls and for those that come before the
next token: from an expression to its first value, and from there into parentheses or brackets. -/

/-- The watched readers with fuel `n` and the readers with fuel `m` agree wherever the fuel of both
is enough for what is left to read. -/
structure AgreeAt (n m : Nat) : Prop where
  expression : ∀ scope least k, 3 * k + 2 ≤ min n m →
    Agree k (Reader.expression n scope least) (Reader.expression m scope least)
  extend : ∀ scope least left t, t.Sound → 3 * t.stream.size + 2 ≤ min n m →
    Keeps (Reader.extend n scope least left) (Reader.extend m scope least left) t fun _ _ => True
  value : ∀ scope k, 3 * k + 1 ≤ min n m → Agree k (Reader.value n scope) (Reader.value m scope)
  inParens : ∀ scope t, t.Sound → 3 * t.stream.size + 3 ≤ min n m →
    Keeps (Reader.inParens n scope) (Reader.inParens m scope) t fun _ _ => True
  group : ∀ scope items t, t.Sound → 3 * t.stream.size + 1 ≤ min n m →
    Keeps (Reader.group n scope items) (Reader.group m scope items) t fun _ _ => True
  elements : ∀ scope items t, t.Sound → 3 * t.stream.size + 3 ≤ min n m →
    Keeps (Reader.elements n scope items) (Reader.elements m scope items) t fun _ _ => True
  fragments : ∀ scope location pieces t, t.Sound → 0 < min n m →
    (∀ source, .source source ∈ pieces → 3 * source.length + 3 ≤ min n m) →
    Keeps (Reader.fragments n scope location pieces) (Reader.fragments m scope location pieces) t
      fun _ _ => True

section Readers

variable {n m : Nat} (ih : AgreeAt n m)
include ih

/-- Reads an expression that has to be there. -/
theorem AgreeAt.required (scope : Scope) (least : Nat) {description : String} {t : Watched}
    (hdescription : description ≠ "a range start") (ht : t.Sound)
    (hn : 3 * t.stream.size + 2 ≤ min n m) :
    Keeps (Reader.required description (Reader.expression n scope least))
      (Reader.required description (Reader.expression m scope least)) t
      fun _ s => s.size < t.stream.size :=
  keeps_required (ih.expression scope least _ hn t ht le_rfl) hdescription

theorem AgreeAt.expression_succ (scope : Scope) (least k : Nat)
    (hk : 3 * k + 2 ≤ min (n + 1) (m + 1)) :
    Agree k (Reader.expression (n + 1) scope least) (Reader.expression (m + 1) scope least) := by
  intro t ht hsize
  rw [Reader.expression, Reader.expression]
  refine keeps_deeper ht .expression (fun _ _ h => h) fun t₁ ht₁ hsize₁ => ?_
  refine (ih.value scope k (by omega) t₁ ht₁ (by omega)).bind fun found t₂ h₂ hfound => ?_
  cases found with
  | none => exact .pure h₂.sound shrinks_none
  | some parsed =>
    have hless := hfound rfl
    refine (keeps_toSingle h₂.sound parsed).bind fun first t₃ h₃ _ => ?_
    have hsize₃ := h₃.size
    refine (ih.extend scope least first t₃ h₃.sound (by omega)).bind fun e t₄ h₄ _ => ?_
    have hsize₄ := h₄.size
    exact .pure h₄.sound fun _ => by omega

theorem AgreeAt.extend_succ (scope : Scope) (least : Nat) (left : Expr) (t : Watched) (ht : t.Sound)
    (hn : 3 * t.stream.size + 2 ≤ min (n + 1) (m + 1)) :
    Keeps (Reader.extend (n + 1) scope least left) (Reader.extend (m + 1) scope least left) t
      fun _ _ => True := by
  rw [Reader.extend, Reader.extend]
  refine .look ht fun t₁ h₁ => ?_
  have hsize₁ := h₁.size
  generalize hwaits : t₁.stream.pending.map Spanned.token = waits
  rcases waits with _ | token
  · exact .pure h₁.sound trivial
  cases token with
  | operator op =>
    dsimp only
    by_cases hweak : op.precedence < least
    · simp only [hweak, if_true]
      exact .pure h₁.sound trivial
    · simp only [hweak, if_false]
      refine .take h₁.sound hwaits fun _ t₂ h₂ _ hless => ?_
      have hbinary : ∀ t₃, After t₂ t₃ → Keeps
          (do let right ← Reader.required "an operand" (Reader.expression n scope
            op.rightPrecedence)
              Reader.extend n scope least (.binary op left right))
          (do let right ← Reader.required "an operand" (Reader.expression m scope
            op.rightPrecedence)
              Reader.extend m scope least (.binary op left right)) t₃ fun _ _ => True := by
        intro t₃ h₃
        have hsize₃ := h₃.size
        refine (ih.required scope _ (by decide) h₃.sound (by omega)).bind fun right t₄ h₄ hless₄ =>
          ?_
        exact ih.extend scope least _ t₄ h₄.sound (by omega)
      -- only at the lowest strength does the reader look for a closing parenthesis
      by_cases hlowest : least = Precedence.lowest
      · simp only [hlowest, if_true]
        refine .look h₂.sound fun t₃ h₃ => ?_
        by_cases hparen : t₃.stream.pending.map Spanned.token = some .rightParen
        · simp only [hparen, if_true]
          exact .pure h₃.sound trivial
        · simp only [hparen, if_false]
          exact hlowest ▸ hbinary t₃ h₃
      · simp only [hlowest, if_false]
        exact hbinary t₂ h₂.sound.after
  | dollar =>
    dsimp only
    by_cases hlowest : least = Precedence.lowest
    · simp only [hlowest, ne_eq, not_true_eq_false, if_false]
      refine .take h₁.sound hwaits fun _ t₂ h₂ _ hless => ?_
      refine (ih.required scope _ (by decide) h₂.sound (by omega)).bind fun argument t₃ h₃ hless₃ =>
        ?_
      exact ih.extend scope _ _ t₃ h₃.sound (by omega)
    · simp only [hlowest, ne_eq, not_false_eq_true, if_true]
      exact .pure h₁.sound trivial
  | _ =>
    -- any other token may start an argument
    refine (ih.value scope t₁.stream.size (by omega) t₁ h₁.sound le_rfl).bind
      fun found t₂ h₂ hfound => ?_
    cases found with
    | none => exact .pure h₂.sound trivial
    | some parsed =>
      have hless := hfound rfl
      exact ih.extend scope least _ t₂ h₂.sound (by omega)

theorem AgreeAt.value_succ (scope : Scope) (k : Nat) (hk : 3 * k + 1 ≤ min (n + 1) (m + 1)) :
    Agree k (Reader.value (n + 1) scope) (Reader.value (m + 1) scope) := by
  intro t ht hsize
  rw [Reader.value, Reader.value]
  refine .look ht fun t₁ h₁ => ?_
  have hsize₁ := h₁.size
  generalize hwaits : t₁.stream.pending.map Spanned.token = waits
  rcases waits with _ | token
  · exact .pure h₁.sound shrinks_none
  -- the operand of a prefix operator has less to read than the operator
  have hoperand : ∀ (op : UnaryOp) t₂, After t₁ t₂ → t₂.stream.size < t₁.stream.size →
      Keeps (do return some (Parsed.single (← Reader.operand op (Reader.value n scope))))
        (do return some (Parsed.single (← Reader.operand op (Reader.value m scope)))) t₂
        (Shrinks t.stream.size) := by
    intro op t₂ h₂ hless
    have hvalue := ih.value scope t₂.stream.size (by omega)
    exact keeps_found .single (keeps_operand h₂.sound op hvalue le_rfl) (by omega)
  cases token with
  | integer | decimal | bool | null | str =>
    exact .take h₁.sound hwaits fun _ t₂ h₂ _ hless => .pure h₂.sound fun _ => by omega
  | template body =>
    refine .take h₁.sound hwaits fun spanned t₂ h₂ hweight hless => ?_
    obtain ⟨_, location⟩ := spanned
    simp only [Token.weight] at hweight
    refine keeps_found (fun parts => .single (.interpolated parts))
      (ih.fragments scope location _ t₂ h₂.sound (by omega) fun source hsource => ?_) (by omega)
    have hlength := Piece.length_le_of_mem_cut hsource
    rw [String.length_toList] at hlength
    omega
  | identifier name =>
    refine .take h₁.sound hwaits fun spanned t₂ h₂ _ hless => ?_
    obtain ⟨_, location⟩ := spanned
    exact keeps_found .single (keeps_resolve h₂.sound scope name location) (by omega)
  | bang => exact .take h₁.sound hwaits fun _ t₂ h₂ _ hless => hoperand .not t₂ h₂ hless
  | operator op =>
    cases op with
    | sub => exact .take h₁.sound hwaits fun _ t₂ h₂ _ hless => hoperand .negate t₂ h₂ hless
    | _ => exact .pure h₁.sound shrinks_none
  | leftParen =>
    refine .take h₁.sound hwaits fun _ t₂ h₂ _ hless => ?_
    exact keeps_found id (ih.inParens scope t₂ h₂.sound (by omega)) (by omega)
  | leftBracket =>
    refine .take h₁.sound hwaits fun _ t₂ h₂ _ hless => .look h₂.sound fun t₃ h₃ => ?_
    have hsize₃ := h₃.size
    by_cases hempty : t₃.stream.pending.map Spanned.token = some .rightBracket
    · simp only [hempty, if_true]
      exact .take h₃.sound hempty fun _ t₄ h₄ _ hless₄ => .pure h₄.sound fun _ => by omega
    · simp only [hempty, if_false]
      exact keeps_found .single (ih.elements scope [] t₃ h₃.sound (by omega)) (by omega)
  | backslash =>
    refine .take h₁.sound hwaits fun _ t₂ h₂ _ hless => ?_
    refine (keeps_parameters h₂.sound _ _ [] (by omega)).bind fun names t₃ h₃ _ => ?_
    have hsize₃ := h₃.size
    refine keeps_found (fun body => .single (.lambda (scope.depth + 1) names body)) ?_ (by omega)
    exact (ih.required _ _ (by decide) h₃.sound (by omega)).imp fun _ _ _ => trivial
  | ifWord =>
    refine .take h₁.sound hwaits fun _ t₂ h₂ _ hless => ?_
    have hreader := ih.expression scope Precedence.lowest t₂.stream.size (by omega)
    exact keeps_found .single (keeps_conditional h₂.sound hreader le_rfl) (by omega)
  | _ => exact .pure h₁.sound shrinks_none

theorem AgreeAt.inParens_succ (scope : Scope) (t : Watched) (ht : t.Sound)
    (hn : 3 * t.stream.size + 3 ≤ min (n + 1) (m + 1)) :
    Keeps (Reader.inParens (n + 1) scope) (Reader.inParens (m + 1) scope) t fun _ _ => True := by
  rw [Reader.inParens, Reader.inParens]
  refine .look ht fun t₁ h₁ => ?_
  have hsize₁ := h₁.size
  generalize hwaits : t₁.stream.pending.map Spanned.token = waits
  rcases waits with _ | token
  · exact .throw h₁.sound (ParseError.not_isInternal_unexpectedEnd (by decide))
  -- an operator other than a minus has its right operand behind it
  have hsection : ∀ (op : BinaryOp) t₂, After t₁ t₂ → t₂.stream.size < t₁.stream.size → Keeps
      (do let right ← Reader.required "an operand" (Reader.expression n scope Precedence.lowest)
          let _ ← Reader.expect .rightParen "')'"
          return Parsed.single (.rightSection op right))
      (do let right ← Reader.required "an operand" (Reader.expression m scope Precedence.lowest)
          let _ ← Reader.expect .rightParen "')'"
          return Parsed.single (.rightSection op right)) t₂ fun _ _ => True := by
    intro op t₂ h₂ hless
    refine (ih.required scope _ (by decide) h₂.sound (by omega)).bind fun right t₃ h₃ _ => ?_
    exact keeps_closing h₃.sound _
  cases token with
  | operator op =>
    cases op with
    | sub =>
      refine .take h₁.sound hwaits fun _ t₂ h₂ _ hless => ?_
      have hvalue := ih.value scope t₂.stream.size (by omega)
      refine (keeps_operand h₂.sound .negate hvalue le_rfl).bind fun negated t₃ h₃ _ => ?_
      have hsize₃ := h₃.size
      refine (ih.extend scope _ negated t₃ h₃.sound (by omega)).bind fun e t₄ h₄ _ => ?_
      exact keeps_closing h₄.sound _
    | _ => exact .take h₁.sound hwaits fun _ t₂ h₂ _ hless => hsection _ t₂ h₂ hless
  | _ =>
    -- anything else starts an expression, which may be the first of a group
    refine (ih.required scope _ (by decide) h₁.sound (by omega)).bind fun first t₂ h₂ hless => ?_
    refine (keeps_peek h₂.sound).bind fun found t₃ h₃ _ => ?_
    have hsize₃ := h₃.size
    rcases found with _ | ⟨next, place⟩
    · exact keeps_closing h₃.sound _
    cases next with
    | comma =>
      refine (ih.group scope [first] t₃ h₃.sound (by omega)).bind fun items t₄ h₄ _ => ?_
      exact .pure h₄.sound trivial
    | _ => exact keeps_closing h₃.sound _

theorem AgreeAt.group_succ (scope : Scope) (items : List Expr) (t : Watched) (ht : t.Sound)
    (hn : 3 * t.stream.size + 1 ≤ min (n + 1) (m + 1)) :
    Keeps (Reader.group (n + 1) scope items) (Reader.group (m + 1) scope items) t
      fun _ _ => True := by
  rw [Reader.group, Reader.group]
  refine .look ht fun t₁ h₁ => ?_
  have hsize₁ := h₁.size
  generalize hwaits : t₁.stream.pending.map Spanned.token = waits
  rcases waits with _ | token
  · exact keeps_closing h₁.sound _
  cases token with
  | comma =>
    refine .take h₁.sound hwaits fun _ t₂ h₂ _ hless => ?_
    refine (ih.required scope _ (by decide) h₂.sound (by omega)).bind fun item t₃ h₃ hless₃ => ?_
    exact ih.group scope _ t₃ h₃.sound (by omega)
  | _ => exact keeps_closing h₁.sound _

theorem AgreeAt.elements_succ (scope : Scope) (items : List Expr) (t : Watched) (ht : t.Sound)
    (hn : 3 * t.stream.size + 3 ≤ min (n + 1) (m + 1)) :
    Keeps (Reader.elements (n + 1) scope items) (Reader.elements (m + 1) scope items) t
      fun _ _ => True := by
  rw [Reader.elements, Reader.elements]
  refine (ih.required scope _ (by decide) ht (by omega)).bind fun item t₁ h₁ hless₁ => ?_
  refine (keeps_peek h₁.sound).bind fun found t₂ h₂ hpending => ?_
  have hwaits := congrArg (Option.map Spanned.token) hpending
  have hsize₂ := h₂.size
  rcases found with _ | ⟨token, location⟩
  · exact keeps_missing h₂.sound (by decide)
  cases token with
  | comma =>
    refine .take h₂.sound hwaits fun _ t₃ h₃ _ hless₃ => ?_
    exact ih.elements scope _ t₃ h₃.sound (by omega)
  | rightBracket => exact .take h₂.sound hwaits fun _ t₃ h₃ _ _ => .pure h₃.sound trivial
  | dots =>
    dsimp only
    by_cases hmany : (item :: items).length > 2
    · simp only [hmany, if_true]
      exact .throw_bind h₂.sound (by rintro ⟨⟩)
    · simp only [hmany, if_false]
      refine .take h₂.sound hwaits fun _ t₃ h₃ _ hless₃ => ?_
      -- the element read just now starts the range, so that a start is never missing
      have hstop := ih.expression scope Precedence.lowest t₃.stream.size
        (by omega) t₃ h₃.sound le_rfl
      exact keeps_range hstop (by simp) (by simpa using hmany)
  | _ => exact keeps_missing h₂.sound (by decide)

theorem AgreeAt.fragments_succ (scope : Scope) (location : Location)
    (pieces : List Piece) (t : Watched) (ht : t.Sound)
    (hn : ∀ source, .source source ∈ pieces → 3 * source.length + 3 ≤ min (n + 1) (m + 1)) :
    Keeps (Reader.fragments (n + 1) scope location pieces)
      (Reader.fragments (m + 1) scope location pieces) t fun _ _ => True := by
  rw [Reader.fragments, Reader.fragments]
  refine keeps_mapM ht pieces fun piece hpiece t₁ ht₁ => ?_
  cases piece with
  | text text => exact .pure ht₁ trivial
  | name name => exact keeps_map Fragment.embedded (keeps_resolve ht₁ scope name location)
  | source source =>
    have hfuel := hn source hpiece
    have hstart : (start source t₁.finished).Sound := sound_start source ht₁.finished
    have hsize : (start source t₁.finished).stream.size = source.length :=
      TokenStream.size_ofSource source
    have hinner := ih.expression scope Precedence.lowest source.length (by omega) _ hstart hsize.le
    exact keeps_map Fragment.embedded (keeps_embedded ht₁ source location (keeps_complete hinner))
  | unclosed => exact .throw ht₁ (ParseError.not_isInternal_unclosed location)

end Readers

/-- Without fuel there is nothing that it is enough for. -/
theorem agreeAt_of_empty {n m : Nat} (hempty : min n m = 0) : AgreeAt n m := by
  refine ⟨fun _ _ _ h => ?_, fun _ _ _ _ _ h => ?_, fun _ _ h => ?_, fun _ _ _ h => ?_,
    fun _ _ _ _ h => ?_, fun _ _ _ _ h => ?_, fun _ _ _ _ _ h => ?_⟩ <;> omega

/-- **Every watched reader agrees with its reader**, wherever the fuel of both is enough. -/
theorem agreeAt (n m : Nat) : AgreeAt n m := by
  induction n generalizing m with
  | zero => exact agreeAt_of_empty (Nat.zero_min m)
  | succ n ih =>
    cases m with
    | zero => exact agreeAt_of_empty (Nat.min_zero _)
    | succ m =>
      have ih := ih m
      exact ⟨ih.expression_succ, ih.extend_succ, ih.value_succ, ih.inParens_succ, ih.group_succ,
        ih.elements_succ, fun scope location pieces t ht _ =>
          ih.fragments_succ scope location pieces t ht⟩

/-! ## 6. Whole texts -/

/-- With enough fuel for the text, whole texts are read alike. -/
theorem keeps_run (scope : Scope) (source : String) {fuel fuel' : Nat}
    (h : readingFuel source ≤ fuel) (h' : readingFuel source ≤ fuel') :
    Keeps (complete (expression fuel scope Precedence.lowest))
      (Reader.complete (Reader.expression fuel' scope Precedence.lowest)) (start source [])
      fun _ _ => True := by
  have hstart : (start source []).Sound := sound_start source (List.forall_mem_nil _)
  have hsize : (start source []).stream.size = source.length := TokenStream.size_ofSource source
  unfold readingFuel at h h'
  exact keeps_complete
    ((agreeAt fuel fuel').expression scope Precedence.lowest _ (by omega) _ hstart hsize.le)

theorem After.finished_of_mem_logs {source : String} {t : Watched} (h : After (start source []) t)
    {log : List Moment} (hlog : log ∈ t.logs) : Finished log := by
  rcases List.mem_append.mp hlog with hlog | hlog
  · exact h.sound.finished log hlog
  · rw [List.mem_singleton.mp hlog]
    exact ⟨h.sound.orderly, h.opened⟩

theorem After.nesting_eq_zero {source : String} {t : Watched} (h : After (start source []) t) :
    t.stream.nesting = 0 := by
  rw [h.sound.counted, h.opened]
  rfl

end Watched

theorem not_isInternal_of_parseIn {scope : Scope} {source : String} {e : ParseError}
    (h : parseIn scope source = .error e) : ¬e.IsInternal := by
  unfold parseIn at h
  obtain ⟨a, t, _, hread, _⟩ | ⟨e', t, _, hread, _, he'⟩ :=
    Watched.keeps_run scope source le_rfl le_rfl
  · change Reader.complete _ (TokenStream.ofSource source) = _ at hread
    rw [hread] at h
    cases h
  · change Reader.complete _ (TokenStream.ofSource source) = _ at hread
    rw [hread] at h
    cases h
    exact he'

/-- **Reading a text ends, and in good order.** The fuel is no limit: whatever more of it the reader
and the watched reader are given, they end in the same way.  No error that comes out of it is
internal.  All streams, that of the text and those of what is embedded in it, were read in order
with nothing left open, and the count of the text's own stream is back where it started. -/
theorem parseIn_orderly (scope : Scope) (source : String) (extra extra' : Nat) :
    let result := Watched.run (readingFuel source + extra) scope source
    Watched.unwatched result =
        Reader.complete (Reader.expression (readingFuel source + extra') scope Precedence.lowest)
          (.ofSource source) ∧
      (∀ e, parseIn scope source = .error e → ¬e.IsInternal) ∧
      (∀ log ∈ (Watched.final result).logs, Finished log) ∧
      (Watched.final result).stream.nesting = (TokenStream.ofSource source).nesting := by
  have hends := Watched.keeps_run scope source (Nat.le_add_right _ extra)
    (Nat.le_add_right _ extra')
  unfold Watched.run
  obtain ⟨e, t, hrun, hread, hafter, -⟩ | ⟨e, t, hrun, hread, hafter, -⟩ := hends
  · rw [hrun]
    exact ⟨hread.symm, fun _ => not_isInternal_of_parseIn, fun _ => hafter.finished_of_mem_logs,
      hafter.nesting_eq_zero⟩
  · rw [hrun]
    exact ⟨hread.symm, fun _ => not_isInternal_of_parseIn, fun _ => hafter.finished_of_mem_logs,
      hafter.nesting_eq_zero⟩

end LazyExpr
