import LazyExpr.Expr.Reader

/-!
# Watching a reader

What a reader returns does not show how it treated its stream: whether it looked at every token
before it took it, and how many expressions it was inside of on the way.  To speak of these, the
readers are run with a *log* beside the stream.  An expression embedded in a string is read from a
stream of its own, which has a log of its own.

The readers reach a stream only through the operations of a `Reading`.  Those of a watched stream do
the same to the stream as the stream's own, and each of them leaves a note in the log.

* `Deed`, `Moment` — what is noted, with the count of the stream right after it.
* `Orderly log` — **every token that was taken had been looked at, with no other taken in between;
  readings ended in the reverse of the order they began in; and the count of the stream was at all
  times the number of open readings, within the limit.**
* `Watched.run` — reads a whole text and keeps the logs of all streams.
-/

namespace LazyExpr

/-! ## 1. Logs -/

/-- What a reader does to a stream. -/
inductive Deed where
  /-- It looks for a token, and finds one or not. -/
  | looked (found : Bool)
  /-- It takes a token. -/
  | took
  /-- It goes a level deeper. -/
  | began (what : Activation)
  /-- It comes up again, in one way or another. -/
  | ended (what : Activation)
  deriving DecidableEq

/-- A deed with what the stream counted right after it. -/
structure Moment where
  deed : Deed
  nesting : Nat

/-- The readings that are going on after a deed, the innermost first. -/
def Deed.open : Deed → List Activation → List Activation
  | looked _, going | took, going => going
  | began what, going => what :: going
  | ended _, going => going.tail

/-- The readings that are going on at the end of a log, the innermost first. -/
def openAfter (log : List Moment) : List Activation :=
  log.foldl (fun going m => m.deed.open going) []

@[simp] theorem openAfter_snoc (log : List Moment) (m : Moment) :
    openAfter (log ++ [m]) = m.deed.open (openAfter log) := by
  simp [openAfter]

/-! ## 2. Order -/

/-- The log has a look that found a token, and no token was taken since. -/
def Ready (log : List Moment) : Prop :=
  ∃ early n late, log = early ++ ⟨.looked true, n⟩ :: late ∧ ∀ m ∈ late, m.deed ≠ .took

theorem Ready.snoc {log : List Moment} (h : Ready log) {m : Moment} (hm : m.deed ≠ .took) :
    Ready (log ++ [m]) := by
  obtain ⟨early, n, late, rfl, hlate⟩ := h
  refine ⟨early, n, late ++ [m], by simp, fun m' hm' => ?_⟩
  rcases List.mem_append.mp hm' with hm' | hm'
  · exact hlate m' hm'
  · rwa [List.mem_singleton.mp hm']

theorem ready_looked (log : List Moment) (n : Nat) : Ready (log ++ [⟨.looked true, n⟩]) :=
  ⟨log, n, [], rfl, nofun⟩

/-- A moment is in order behind a log. -/
structure Moment.InOrder (log : List Moment) (m : Moment) : Prop where
  /-- What is taken was looked at. -/
  looked : m.deed = .took → Ready log
  /-- What ends is what began last. -/
  nested : ∀ what, m.deed = .ended what → (openAfter log).head? = some what
  /-- The stream counts the readings that are going on. -/
  counted : m.nesting = (openAfter (log ++ [m])).length
  bounded : m.nesting ≤ maxNesting

/-- Every moment is in order behind those before it. -/
def Orderly (log : List Moment) : Prop :=
  ∀ before m behind, log = before ++ m :: behind → m.InOrder before

theorem orderly_nil : Orderly [] := by
  intro before m behind h
  cases before <;> cases h

theorem Orderly.snoc {log : List Moment} (h : Orderly log) {m : Moment} (hm : m.InOrder log) :
    Orderly (log ++ [m]) := by
  intro before m' behind hsplit
  rcases List.eq_nil_or_concat behind with rfl | ⟨behind, last, rfl⟩
  · obtain ⟨rfl, hlast⟩ := List.append_inj' hsplit rfl
    cases hlast
    exact hm
  · rw [List.concat_eq_append, ← List.cons_append, ← List.append_assoc] at hsplit
    exact h before m' behind (List.append_inj' hsplit rfl).1

/-- The log of a stream that is done with: in order, and nothing is left open. -/
structure Finished (log : List Moment) : Prop where
  orderly : Orderly log
  closed : openAfter log = []

/-! ## 3. A watched stream -/

/-- A stream with its log, and the logs of the streams of embedded texts that are done with. -/
structure Watched where
  stream : TokenStream
  log : List Moment
  finished : List (List Moment)

/-- A step of reading a watched stream, which may fail. -/
abbrev WatchedParse := ParseM Watched

namespace Watched

/-- The start of a text, with logs from before. -/
def start (source : String) (finished : List (List Moment)) : Watched :=
  ⟨.ofSource source, [], finished⟩

/-- The stream after a deed, with the note of it. -/
def noting (t : Watched) (s : TokenStream) (deed : Deed) : Watched :=
  { t with stream := s, log := t.log ++ [⟨deed, s.nesting⟩] }

/-- Looks at the next token. -/
def peek : WatchedParse (Option Spanned) := fun t =>
  match TokenStream.peek t.stream with
  | .ok found s => .ok found (t.noting s (.looked found.isSome))
  | .error e s => .error e (t.noting s (.looked false))

/-- Takes the token that was looked at. -/
def advance : WatchedParse Spanned := fun t =>
  match TokenStream.advance t.stream with
  | .ok spanned s => .ok spanned (t.noting s .took)
  | .error e s => .error e (t.noting s .took)

/-- The error for a reading that would go too deep. -/
def tooDeep : WatchedParse Unit := do
  match ← peek with
  | some spanned => throw (.nestingTooDeep maxNesting spanned.location)
  | none => throw (.unexpectedEnd "an expression")

/-- Enters one more reading, up to the limit. -/
def descend (what : Activation) : WatchedParse Unit := fun t =>
  if t.stream.nesting < maxNesting then
    .ok () (t.noting { t.stream with nesting := t.stream.nesting + 1 } (.began what))
  else tooDeep t

/-- Leaves the reading entered last. -/
def ascend (what : Activation) (t : Watched) : Watched := t.noting t.stream.ascend (.ended what)

/-- Runs `body` one level deeper and comes up again, also when it fails. -/
def deeper {α : Type} (what : Activation) (body : WatchedParse α) : WatchedParse α := fun t =>
  match descend what t with
  | .error e t => .error e t
  | .ok () t =>
    match body t with
    | .ok a t => .ok a (t.ascend what)
    | .error e t => .error e (t.ascend what)

/-- Reads an expression that stands in an interpolated string, from a stream of its own. -/
def embedded (source : String) (location : Location) (reader : WatchedParse Expr) :
    WatchedParse Expr := fun t =>
  match reader (start source t.finished) with
  | .ok e inner => .ok e { t with finished := inner.finished ++ [inner.log] }
  | .error e inner =>
    .error (.invalidInterpolation e.message location)
      { t with finished := inner.finished ++ [inner.log] }

/-! ## 4. Reading a watched stream -/

/-- The readers do to a watched stream what they do to a stream. -/
instance : Reading Watched Scope where
  peek := Watched.peek
  advance := Watched.advance
  deeper := Watched.deeper
  embedded := Watched.embedded
  resolve scope name location := MonadExcept.ofExcept (scope.resolve name location)
  enterLambda scope := pure (scope, scope.depth + 1)
  bindParameter _ _ _ _ := pure ()
  inside := Scope.inside

/-- Reads a whole text with so much fuel. -/
def run (fuel : Nat) (scope : Scope) (source : String) : EStateM.Result ParseError Watched Expr :=
  Reader.complete (Reader.expression fuel scope Precedence.lowest) (start source [])

/-- The logs of all streams, that of the text itself last. -/
def logs (t : Watched) : List (List Moment) := t.finished ++ [t.log]

/-- The same end without the logs. -/
def unwatched : EStateM.Result ParseError Watched Expr → EStateM.Result ParseError TokenStream Expr
  | .ok e t => .ok e t.stream
  | .error e t => .error e t.stream

/-- What a run has left behind, however it ended. -/
def final : EStateM.Result ParseError Watched Expr → Watched
  | .ok _ t | .error _ t => t

end Watched

end LazyExpr
