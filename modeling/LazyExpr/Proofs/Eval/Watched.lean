import LazyExpr.Proofs.Eval.Run

/-!
# Watching an evaluation

The result of an evaluation does not show everything that happened on the way: which functions were
called with which arguments, how many evaluations were going on inside each other, which elements of
lists were evaluated.  To speak of these, the evaluator is run with a list of *events* beside the
state of the embedding application.

The watched evaluator is no second program.  An `Engine` holds the functions of the evaluator for
one fuel, and `Engine.next` makes from it the functions for the next fuel, with a note at each
event.  The evaluator is what one gets when nothing is noted, and the watched evaluator what one
gets when all of it is:

* `Engine.actual_succ` — **the evaluator with one more fuel is the next engine, without notes.**
* `Engine.watched` — the engine that notes all events.
-/

namespace LazyExpr

open Eval

/-! ## 1. Events -/

/-- What happens in an evaluation. -/
inductive Event where
  /-- An evaluation begins, one level deeper than the one it is part of. -/
  | opened
  /-- The evaluation that began last, of those that go on, ends in one way or another. -/
  | closed
  /-- A closure is called: its arguments are put into a frame. -/
  | framed (parameters : List String) (arguments : List Expr)
  /-- A function that is not written in the language is called. -/
  | called (code : Code) (arguments : List Expr)
  /-- A built-in function meets another number of arguments than it takes. -/
  | mismatched (function : Builtin) (arguments : List Expr)
  /-- Something is to be given an argument that is neither a function nor a closure. -/
  | refused (target : Expr)
  /-- A list is made, with so many empty cells from this one on. -/
  | made (cell count : Nat)
  /-- The expression of a list element was evaluated to a value. -/
  | produced (cell : Option Nat)
  /-- The evaluation of a list element failed; with what was in all cells before it and after it. -/
  | failed (cell : Option Nat) (before after : Array (Option Expr))

/-- An event is the end of an evaluation of a list element. -/
def Event.aboutElement (cell : Option Nat) : Event → Prop
  | .produced cell' | .failed cell' _ _ => cell' = cell
  | _ => False

/-- How a run ended, with its machine changed. -/
def Eval.Ended.onMachine {σ τ α : Type} (f : Machine σ → Machine τ) : Ended σ α → Ended τ α
  | .ok a m => .ok a (f m)
  | .error halt m => .error halt (f m)

/-- How the state of the application lies in that of the machine, and how an event is noted
there. -/
structure Watch (σ τ : Type) where
  state : τ → σ
  update : σ → τ → τ
  note : Event → τ → τ

namespace Watch

variable {σ τ α : Type}

/-- Nothing is noted. -/
def blind (σ : Type) : Watch σ σ := ⟨id, fun s _ => s, fun _ s => s⟩

/-- All events are noted, the latest last. -/
def log (σ : Type) : Watch σ (σ × List Event) :=
  ⟨Prod.fst, fun s t => (s, t.2), fun event t => (t.1, t.2 ++ [event])⟩

variable (W : Watch σ τ)

/-- The machine after an event was noted. -/
def after (event : Event) (m : Machine τ) : Machine τ := { m with host := W.note event m.host }

/-- Notes an event. -/
def noting (event : Event) : Eval τ Unit := modify (W.after event)

/-- Notes the beginning and the end of an evaluation. -/
def during (body : Eval τ α) : Eval τ α := fun m =>
  Ended.onMachine (W.after .closed) (body (W.after .opened m))

/-- Makes a list, with a note. -/
def makeList (elements : List Expr) (env : Env) : Eval τ Expr := fun m =>
  newList elements env (W.after (.made m.cells.size elements.length) m)

/-- Evaluates an element of a list, with a note of how it ended. -/
def producing (cell : Option Nat) (body : Eval τ Expr) : Eval τ Expr := fun m =>
  match body m with
  | .ok value m' => .ok value (W.after (.produced cell) m')
  | .error halt m' => .error halt (W.after (.failed cell m.cells m'.cells) m')

/-- An element of a list: the known one, or the value of `body`, which is known from then on. A
fault is a result. -/
def element (remembers : Bool) (cell : Option Nat) (body : Eval τ Expr) :
    Eval τ (Except Fault Expr) := do
  match ← known remembers cell with
  | some value => pure (.ok value)
  | none =>
    match ← attempt (W.producing cell body) with
    | .error fault => pure (.error fault)
    | .ok value => do
      let value ← remember remembers cell value
      pure (.ok value)

theorem during_blind (body : Eval σ α) : (blind σ).during body = body := by
  funext m
  show Ended.onMachine (fun m => m) (body m) = body m
  cases body m <;> rfl

theorem producing_blind (cell : Option Nat) (body : Eval σ Expr) :
    (blind σ).producing cell body = body := by
  funext m
  unfold producing
  cases body m <;> rfl

end Watch

/-! ## 2. Engines -/

/-- The functions of an evaluator that works on machines with states `τ`, for an application with
states `σ`. -/
structure Engine (σ τ : Type) where
  eval : Env → Expr → Eval τ Expr
  apply : (function argument : Expr) → Eval τ Expr
  supply : (target : Expr) → (received : List Expr) → (argument : Expr) → Eval τ Expr
  call : Code → (arguments : List Expr) → Eval τ Expr
  callBuiltin : Builtin → (arguments : List Expr) → Eval τ Expr
  perform : Action σ → Eval τ Expr
  advance : LazyList → Eval τ Step
  materialize : Expr → Eval τ Expr
  displayText : Expr → Eval τ String

namespace Engine

variable {σ τ : Type}

/-- The engine without fuel. -/
def exhausted : Engine σ τ where
  eval _ _ := outOfFuel
  apply _ _ := outOfFuel
  supply _ _ _ := outOfFuel
  call _ _ := outOfFuel
  callBuiltin _ _ := outOfFuel
  perform _ := outOfFuel
  advance _ := outOfFuel
  materialize _ := outOfFuel
  displayText _ := outOfFuel

section Next

variable (S : Setting σ) (W : Watch σ τ) (n : Nat) (E : Engine σ τ)

/-- The step of a range whose first bound is known. -/
def rangeStep (env : Env) (first : Number) : Option Expr → Eval τ Number
  | none => pure (.integer 1)
  | some second => do
    let second ← lift (← E.eval env second).asNumber
    match second.sub? first with
    | some step => pure step
    | none => fail (.overflow "..")

/-- The last bound of a range. -/
def rangeStop (env : Env) : Option Expr → Eval τ (Option Number)
  | none => pure none
  | some stop => do pure (some (← lift (← E.eval env stop).asNumber))

/-- Text with one more fragment of an interpolated string. -/
def addFragment (env : Env) (text : String) : Fragment → Eval τ String
  | .text more => pure (text ++ more)
  | .embedded e => do
    let value ← E.eval env e
    let more ← E.displayText value
    pure (text ++ more)

/-- Evaluates an expression at the level that was opened for it. -/
def evalInside (env : Env) (e : Expr) : Eval τ Expr :=
  match e with
  | .number _ | .bool _ | .str _ | .null | .closure .. | .applied .. => pure e
  | .function f => if f.arity = 0 then E.call f.code [] else pure e
  | .list (.items elements captured _) => W.makeList elements (captured.orElse env)
  | .list _ => pure e
  | .range start second stop => do
    let first ← lift (← E.eval env start).asNumber
    let step ← E.rangeStep env first second
    let stop ← E.rangeStop env stop
    pure (.list (.progression (.ofBounds first step stop)))
  | .call function argument => do
    let function ← E.eval env function
    let argument ← E.eval env argument
    E.apply function argument
  | .lambda depth parameters body => pure (.closure depth parameters body env)
  | .argument slot =>
    match S.find slot env with
    | some value => pure value
    | none => fail (.unboundArgument slot.name)
  | .unary op operand => do
    let operand ← E.eval env operand
    lift (op.onValue operand)
  | .binary op left right => do
    if op = .and ∨ op = .or then
      let decided := decide (op = .or)
      let a ← lift (← E.eval env left).asBool
      if a = decided then pure (.bool decided)
      else do
        let b ← lift (← E.eval env right).asBool
        pure (.bool b)
    else do
      let left ← E.eval env left
      let right ← E.eval env right
      lift (op.onValues left right)
  | .leftSection op left => do pure (.leftSection op (← E.eval env left))
  | .rightSection op right => do pure (.rightSection op (← E.eval env right))
  | .conditional condition yes no => do
    if ← lift (← E.eval env condition).asBool then E.eval env yes
    else E.eval env no
  | .interpolated fragments => do
    let text ← fragments.foldlM (E.addFragment env) ""
    pure (.str text)

/-- Applies a function value to one argument. -/
def applyNext (function argument : Expr) : Eval τ Expr :=
  match function with
  | .function _ | .closure .. => E.supply function [] argument
  | .applied target received => E.supply target received argument
  | .leftSection op left => lift (op.onValues left argument)
  | .rightSection op right => lift (op.onValues argument right)
  | _ => fail (.notCallable function)

/-- Gives one more argument to a function. -/
def supplyNext (target : Expr) (received : List Expr) (argument : Expr) : Eval τ Expr :=
  let arguments := received ++ [argument]
  match target with
  | .function f =>
    if arguments.length < f.arity then pure (.applied target arguments)
    else E.call f.code arguments
  | .closure depth parameters body env =>
    if arguments.length < parameters.length then pure (.applied target arguments)
    else do
      W.noting (.framed parameters arguments)
      E.eval (.frame depth parameters arguments env) body
  | _ => do
    W.noting (.refused target)
    fail (.notCallable target)

/-- Calls a function that is not written in the language. -/
def callNext (code : Code) (arguments : List Expr) : Eval τ Expr := do
  W.noting (.called code arguments)
  match code with
  | .builtin b => E.callBuiltin b arguments
  | .foreign entry => E.perform (S.host entry arguments)

/-- Calls a built-in function. -/
def callBuiltinNext (b : Builtin) (arguments : List Expr) : Eval τ Expr :=
  match b, arguments with
  | .map, [function, list] => do
    let l ← lift list.asList
    pure (.list (.mapped function l))
  | .filter, [predicate, list] => do
    let l ← lift list.asList
    pure (.list (.filtered predicate l))
  | .sum, [list] => do
    let l ← lift (list.asFiniteList "sum")
    let total ← foldItems E.advance addToTotal n Decimal.zero l
    pure (.decimal total)
  | .length, [list] => do
    let l ← lift (list.asFiniteList "length")
    let count ← foldItems E.advance (fun count _ => pure (count + 1)) n 0 l
    pure (.integer (int64OfLength count))
  | .take, [count, list] => do
    let count ← lift count.asInteger
    let l ← lift list.asList
    let taken ← takeItems E.advance (countOfInt64 count) [] l
    W.makeList taken .top
  | .drop, [count, list] => do
    let count ← lift count.asInteger
    let l ← lift list.asList
    pure (.list (.dropped (countOfInt64 count) l))
  | .head, [list] => do
    let l ← lift list.asList
    firstItem E.advance "head" l
  | .tail, [list] => do
    let l ← lift list.asList
    let _ ← firstItem E.advance "tail" l
    pure (.list (.dropped 1 l))
  | .join, [separator, list] => do
    let separator ← lift separator.asString
    let l ← lift (list.asFiniteList "join")
    let parts ← foldItems E.advance
      (fun parts x => do pure ((← E.displayText x) :: parts)) n [] l
    pure (.str (separator.intercalate parts.reverse))
  | b, arguments => do
    W.noting (.mismatched b arguments)
    fail (.arityMismatch b.name b.arity arguments.length)

/-- Carries out an action of the embedding application. -/
def performNext : Action σ → Eval τ Expr
  | .give value => pure value
  | .fail fault => Eval.fail fault
  | .read next => do
    let m ← get
    E.perform (next (W.state m.host))
  | .write state next => do
    modify fun m => { m with host := W.update state m.host }
    E.perform next
  | .newList elements next => do
    let list ← W.makeList elements .top
    E.perform (next list)
  | .display value next => do
    let text ← E.displayText value
    E.perform (next text)
  | .apply function argument next => do
    let value ← E.apply function argument
    E.perform (next value)
  | .cancel next => do
    Eval.cancel
    E.perform next

/-- Takes the first element off a list. -/
def advanceNext (l : LazyList) : Eval τ Step :=
  match l with
  | .items [] _ _ => pure ⟨.ok none, l⟩
  | .items (x :: xs) env cell => do
    let outcome ← W.element S.remembers cell (E.eval env x)
    pure ⟨outcome.map some, .items xs env (cell.map (· + 1))⟩
  | .progression range => pure (advanceProgression range)
  | .prepend head tail => pure ⟨.ok (some head), tail⟩
  | .concat first second => do
    let ⟨outcome, rest⟩ ← E.advance first
    match outcome with
    | .ok none => E.advance second
    | outcome => pure ⟨outcome, .concat rest second⟩
  | .mapped function source => do
    let ⟨outcome, rest⟩ ← E.advance source
    match outcome with
    | .ok (some x) => do
      let value ← attempt (E.apply function x)
      pure ⟨value.map some, .mapped function rest⟩
    | outcome => pure ⟨outcome, .mapped function rest⟩
  | .filtered predicate source => do
    let ⟨outcome, rest⟩ ← E.advance source
    match outcome with
    | .ok (some x) =>
      match ← attempt (do check; lift (← E.apply predicate x).asBool) with
      | .error fault => pure ⟨.error fault, .filtered predicate rest⟩
      | .ok true => pure ⟨.ok (some x), .filtered predicate rest⟩
      | .ok false => E.advance (.filtered predicate rest)
    | outcome => pure ⟨outcome, .filtered predicate rest⟩
  | .dropped 0 source => E.advance source
  | .dropped (count + 1) source => do
    match ← attempt check with
    | .error fault => pure ⟨.error fault, l⟩
    | .ok () => do
      let ⟨outcome, rest⟩ ← E.advance source
      match outcome with
      | .error fault => pure ⟨.error fault, .dropped count rest⟩
      | .ok none => pure ⟨.ok none, rest⟩
      | .ok (some _) => E.advance (.dropped count rest)

/-- Replaces finite lists by lists of their elements. -/
def materializeNext (e : Expr) : Eval τ Expr :=
  match e with
  | .list l =>
    if l.isInfinite then pure e
    else do
      let elements ← foldItems E.advance
        (fun elements x => do pure ((← E.materialize x) :: elements)) n [] l
      W.makeList elements.reverse .top
  | e => pure e

/-- The text that a value has inside other text. -/
def displayTextNext (e : Expr) : Eval τ String :=
  match e with
  | .str text => pure text
  | .null => pure ""
  | e => do
    let value ← E.materialize e
    fueled (S.write n value)

/-- The engine with one more fuel than `E`, which has the fuel `n`. -/
def next : Engine σ τ where
  eval env e := check >>= fun _ => nested S.depthLimit (W.during (E.evalInside S W env e))
  apply := E.applyNext
  supply := E.supplyNext W
  call := E.callNext S W
  callBuiltin := E.callBuiltinNext W n
  perform := E.performNext W
  advance := E.advanceNext S W
  materialize := E.materializeNext W n
  displayText := E.displayTextNext S n

end Next

/-- The engine with the given fuel that notes all events. -/
def watched (S : Setting σ) : (fuel : Nat) → Engine σ (σ × List Event)
  | 0 => exhausted
  | n + 1 => (watched S n).next S (.log σ) n

/-! ## 3. The evaluator -/

/-- The evaluator with the given fuel. -/
def actual (S : Setting σ) (n : Nat) : Engine σ σ where
  eval := Eval.eval S n
  apply := Eval.apply S n
  supply := Eval.supply S n
  call := Eval.call S n
  callBuiltin := Eval.callBuiltin S n
  perform := Eval.perform S n
  advance := Eval.advance S n
  materialize := Eval.materialize S n
  displayText := Eval.displayText S n

variable (S : Setting σ) (n : Nat)

theorem eval_next (env : Env) (e : Expr) :
    Eval.eval S (n + 1) env e = ((actual S n).next S (.blind σ) n).eval env e := by
  show _ = check >>= fun _ => nested S.depthLimit ((Watch.blind σ).during _)
  rw [Watch.during_blind]
  cases e with
  | list l => cases l <;> rfl
  | range start second stop =>
    simp only [Eval.eval, evalInside]
    refine bind_congr fun _ => congrArg (nested S.depthLimit) ?_
    refine bind_congr fun v => bind_congr fun first => ?_
    cases second with
    | none => cases stop <;> simp only [rangeStep, rangeStop, actual, bind_assoc, pure_bind]
    | some second =>
      simp only [rangeStep, bind_assoc]
      refine bind_congr fun v => bind_congr fun second => ?_
      cases second.sub? first with
      | none => simp only [fail_bind]
      | some step => cases stop <;> simp only [rangeStop, actual, bind_assoc, pure_bind]
  | interpolated fragments =>
    simp only [Eval.eval, evalInside]
    rfl
  | _ => rfl

theorem apply_next (f a : Expr) :
    Eval.apply S (n + 1) f a = (actual S n).applyNext f a := by
  cases f <;> rfl

theorem supply_next (f : Expr) (args : List Expr) (a : Expr) :
    Eval.supply S (n + 1) f args a = (actual S n).supplyNext (.blind σ) f args a := by
  cases f <;> rfl

theorem call_next (code : Code) (args : List Expr) :
    Eval.call S (n + 1) code args = (actual S n).callNext S (.blind σ) code args := by
  cases code <;> rfl

theorem callBuiltin_next (b : Builtin) (args : List Expr) :
    Eval.callBuiltin S (n + 1) b args = (actual S n).callBuiltinNext (.blind σ) n b args := rfl

theorem perform_next (a : Action σ) :
    Eval.perform S (n + 1) a = (actual S n).performNext (.blind σ) a := by
  cases a <;> rfl

theorem materialize_next (e : Expr) :
    Eval.materialize S (n + 1) e = (actual S n).materializeNext (.blind σ) n e := by
  cases e <;> rfl

theorem displayText_next (e : Expr) :
    Eval.displayText S (n + 1) e = (actual S n).displayTextNext S n e := by
  cases e <;> rfl

theorem advance_next (l : LazyList) :
    Eval.advance S (n + 1) l = (actual S n).advanceNext S (.blind σ) l := by
  cases l with
  | items xs env cell =>
    cases xs with
    | nil => rfl
    | cons x xs =>
      simp only [Eval.advance, advanceNext, Watch.element, bind_assoc]
      refine bind_congr fun seen => ?_
      cases seen with
      | some value => rfl
      | none =>
        simp only [bind_assoc]
        rw [Watch.producing_blind]
        refine bind_congr fun outcome => ?_
        cases outcome with
        | error fault => rfl
        | ok value =>
          simp only [bind_assoc]
          rfl
  | dropped count source => cases count <;> rfl
  | _ => rfl

/-- **The evaluator with one more fuel is the next engine**, if nothing is noted. -/
theorem actual_succ : actual S (n + 1) = (actual S n).next S (.blind σ) n := by
  rw [actual, next, Engine.mk.injEq]
  refine ⟨funext fun env => funext (eval_next S n env), funext fun f => funext (apply_next S n f),
    funext fun f => funext fun args => funext (supply_next S n f args),
    funext fun code => funext (call_next S n code),
    funext fun b => funext (callBuiltin_next S n b), funext (perform_next S n),
    funext (advance_next S n), funext (materialize_next S n), funext (displayText_next S n)⟩

end Engine

end LazyExpr
