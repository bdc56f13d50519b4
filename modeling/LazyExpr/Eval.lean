import LazyExpr.Host
import LazyExpr.Machine

/-!
# Evaluation

Values evaluate to themselves, except that every evaluation of a list literal makes a list with
empty cells.  A lambda closes over its environment, and so does a list literal.  Functions collect
arguments until they have enough of them.

A list is traversed by taking its first element off, again and again: `Eval.advance` gives the
outcome and the list that remains.  After a fault the remaining list goes on behind the element that
failed.

`fuel` bounds how deep the functions below call each other and how long a loop runs.  More fuel
never changes an answer, and running out of it is an answer of its own.

* `Eval.eval` evaluates, `Eval.apply` applies a function value to an argument.
* `Eval.advance` takes one element off a list.
* `Eval.materialize` replaces finite lists by lists of their elements, `Eval.render` writes the
  result.
-/

namespace LazyExpr

/-! ## 1. Settings -/

/-- How deep evaluations may be nested. -/
def maxDepth : Nat := 128

/-- What an evaluation takes from outside. -/
structure Setting (σ : Type) where
  /-- The embedding application. -/
  host : Host σ
  /-- Whether an element of a list literal is kept once it was evaluated. -/
  remembers : Bool := true
  /-- How deep evaluations may be nested; `none` sets no limit. -/
  depthLimit : Option Nat := some maxDepth
  /-- How the argument of a parameter slot is found where the slot is evaluated. -/
  find : Slot → Env → Option Expr := Env.lookup
  /-- How a value is written, which needs the arguments of its slots as well. -/
  write : (fuel : Nat) → Expr → Option String := Expr.display?

/-- The setting without an embedding application. -/
def Setting.standard : Setting Unit := { host := Host.absent }

/-! ## 2. Loops over lists -/

/-- What taking the first element off a list gives: the element, or nothing at the end, or a fault;
and the list that remains. -/
structure Step where
  outcome : Except Fault (Option Expr)
  rest : LazyList

namespace Eval

variable {σ : Type}

/-- Folds over the elements of a list, with a check before each. -/
def foldItems {β : Type} (advance : LazyList → Eval σ Step) (f : β → Expr → Eval σ β) :
    (fuel : Nat) → β → LazyList → Eval σ β
  | 0, _, _ => outOfFuel
  | fuel + 1, acc, l => do
    check
    let ⟨outcome, rest⟩ ← advance l
    match outcome with
    | .error fault => fail fault
    | .ok none => pure acc
    | .ok (some x) => do
      let acc ← f acc x
      foldItems advance f fuel acc rest

/-- The first `count` elements of a list, or all of them if there are fewer; `taken` are those
before, the latest first. -/
def takeItems (advance : LazyList → Eval σ Step) :
    (count : Nat) → (taken : List Expr) → LazyList → Eval σ (List Expr)
  | 0, taken, _ => pure taken.reverse
  | count + 1, taken, l => do
    check
    let ⟨outcome, rest⟩ ← advance l
    match outcome with
    | .error fault => fail fault
    | .ok none => pure taken.reverse
    | .ok (some x) => takeItems advance count (x :: taken) rest

/-- The first element of a list, for a function that needs one. -/
def firstItem (advance : LazyList → Eval σ Step) (function : String) (l : LazyList) :
    Eval σ Expr := do
  check
  let ⟨outcome, _⟩ ← advance l
  match outcome with
  | .error fault => fail fault
  | .ok none => fail (.emptyResult function)
  | .ok (some x) => pure x

/-- Adds a number to a total. -/
def addToTotal (total : Decimal) (x : Expr) : Eval σ Decimal := do
  let n ← lift x.asNumber
  match total.add? n.toDecimal with
  | some total => pure total
  | none => fail (.overflow "sum")

/-- Takes the first element off a progression; one that has ended, or that leaves the range, leaves
the empty list. -/
def advanceProgression (range : Progression) : Step :=
  match range.head? with
  | none => ⟨.ok none, .empty⟩
  | some n => ⟨.ok (some (.number n)), (range.tail?.map .progression).getD .empty⟩

/-! ## 3. Evaluation, application, traversal -/

variable (setting : Setting σ)

mutual

/-- Evaluates an expression in an environment. -/
def eval : (fuel : Nat) → Env → Expr → Eval σ Expr
  | 0, _, _ => outOfFuel
  | fuel + 1, env, e => do
    check
    nested setting.depthLimit do
      match e with
      | .number _ | .bool _ | .str _ | .null | .closure .. | .applied .. => pure e
      | .function f => if f.arity = 0 then call fuel f.code [] else pure e
      | .list (.items elements captured _) => newList elements (captured.orElse env)
      | .list _ => pure e
      | .range start second stop => do
        let start ← lift (← eval fuel env start).asNumber
        let step ←
          match second with
          | none => pure (Number.integer 1)
          | some second => do
            let second ← lift (← eval fuel env second).asNumber
            match second.sub? start with
            | some step => pure step
            | none => fail (.overflow "..")
        let stop ←
          match stop with
          | none => pure none
          | some stop => do pure (some (← lift (← eval fuel env stop).asNumber))
        pure (.list (.progression (.ofBounds start step stop)))
      | .call function argument => do
        let function ← eval fuel env function
        let argument ← eval fuel env argument
        apply fuel function argument
      | .lambda depth parameters body => pure (.closure depth parameters body env)
      | .argument slot =>
        match setting.find slot env with
        | some value => pure value
        | none => fail (.unboundArgument slot.name)
      | .unary op operand => do
        let operand ← eval fuel env operand
        lift (op.onValue operand)
      | .binary op left right => do
        if op = .and ∨ op = .or then
          let decided := decide (op = .or)
          let a ← lift (← eval fuel env left).asBool
          if a = decided then pure (.bool decided)
          else do
            let b ← lift (← eval fuel env right).asBool
            pure (.bool b)
        else do
          let left ← eval fuel env left
          let right ← eval fuel env right
          lift (op.onValues left right)
      | .leftSection op left => do pure (.leftSection op (← eval fuel env left))
      | .rightSection op right => do pure (.rightSection op (← eval fuel env right))
      | .conditional condition yes no => do
        if ← lift (← eval fuel env condition).asBool then eval fuel env yes
        else eval fuel env no
      | .interpolated fragments => do
        let text ← fragments.foldlM (fun text fragment =>
          match fragment with
          | .text more => pure (text ++ more)
          | .embedded e => do
            let value ← eval fuel env e
            let more ← displayText fuel value
            pure (text ++ more)) ""
        pure (.str text)

/-- Applies a function value to one argument. -/
def apply : (fuel : Nat) → (function argument : Expr) → Eval σ Expr
  | 0, _, _ => outOfFuel
  | fuel + 1, function, argument =>
    match function with
    | .function _ | .closure .. => supply fuel function [] argument
    | .applied target received => supply fuel target received argument
    | .leftSection op left => lift (op.onValues left argument)
    | .rightSection op right => lift (op.onValues argument right)
    | _ => fail (.notCallable function)

/-- Gives one more argument to a function, and calls it when it has enough of them. -/
def supply : (fuel : Nat) → (target : Expr) → (received : List Expr) → (argument : Expr) →
    Eval σ Expr
  | 0, _, _, _ => outOfFuel
  | fuel + 1, target, received, argument =>
    let arguments := received ++ [argument]
    match target with
    | .function f =>
      if arguments.length < f.arity then pure (.applied target arguments)
      else call fuel f.code arguments
    | .closure depth parameters body env =>
      if arguments.length < parameters.length then pure (.applied target arguments)
      else eval fuel (.frame depth parameters arguments env) body
    | _ => fail (.notCallable target)

/-- Calls a function that is not written in the language. -/
def call : (fuel : Nat) → Code → (arguments : List Expr) → Eval σ Expr
  | 0, _, _ => outOfFuel
  | fuel + 1, .builtin b, arguments => callBuiltin fuel b arguments
  | fuel + 1, .foreign entry, arguments => perform fuel (setting.host entry arguments)

/-- Calls a built-in function. -/
def callBuiltin : (fuel : Nat) → Builtin → (arguments : List Expr) → Eval σ Expr
  | 0, _, _ => outOfFuel
  | fuel + 1, b, arguments =>
    match b, arguments with
    | .map, [function, list] => do
      let l ← lift list.asList
      pure (.list (.mapped function l))
    | .filter, [predicate, list] => do
      let l ← lift list.asList
      pure (.list (.filtered predicate l))
    | .sum, [list] => do
      let l ← lift (list.asFiniteList "sum")
      let total ← foldItems (advance fuel) addToTotal fuel Decimal.zero l
      pure (.decimal total)
    | .length, [list] => do
      let l ← lift (list.asFiniteList "length")
      let count ← foldItems (advance fuel) (fun count _ => pure (count + 1)) fuel 0 l
      pure (.integer (int64OfLength count))
    | .take, [count, list] => do
      let count ← lift count.asInteger
      let l ← lift list.asList
      let taken ← takeItems (advance fuel) (countOfInt64 count) [] l
      newList taken .top
    | .drop, [count, list] => do
      let count ← lift count.asInteger
      let l ← lift list.asList
      pure (.list (.dropped (countOfInt64 count) l))
    | .head, [list] => do
      let l ← lift list.asList
      firstItem (advance fuel) "head" l
    | .tail, [list] => do
      let l ← lift list.asList
      let _ ← firstItem (advance fuel) "tail" l
      pure (.list (.dropped 1 l))
    | .join, [separator, list] => do
      let separator ← lift separator.asString
      let l ← lift (list.asFiniteList "join")
      let parts ← foldItems (advance fuel)
        (fun parts x => do pure ((← displayText fuel x) :: parts)) fuel [] l
      pure (.str (separator.intercalate parts.reverse))
    | b, arguments => fail (.arityMismatch b.name b.arity arguments.length)

/-- Carries out an action of the embedding application. -/
def perform : (fuel : Nat) → Action σ → Eval σ Expr
  | 0, _ => outOfFuel
  | _ + 1, .give value => pure value
  | _ + 1, .fail fault => Eval.fail fault
  | fuel + 1, .read next => do
    let m ← get
    perform fuel (next m.host)
  | fuel + 1, .write state next => do
    modify fun m => { m with host := state }
    perform fuel next
  | fuel + 1, .newList elements next => do
    let list ← Eval.newList elements .top
    perform fuel (next list)
  | fuel + 1, .display value next => do
    let text ← displayText fuel value
    perform fuel (next text)
  | fuel + 1, .apply function argument next => do
    let value ← apply fuel function argument
    perform fuel (next value)
  | fuel + 1, .cancel next => do
    Eval.cancel
    perform fuel next

/-- Takes the first element off a list. -/
def advance : (fuel : Nat) → LazyList → Eval σ Step
  | 0, _ => outOfFuel
  | fuel + 1, l =>
    match l with
    | .items [] _ _ => pure ⟨.ok none, l⟩
    | .items (x :: xs) env cell => do
      let rest := LazyList.items xs env (cell.map (· + 1))
      match ← known setting.remembers cell with
      | some known => pure ⟨.ok (some known), rest⟩
      | none =>
        match ← attempt (eval fuel env x) with
        | .error fault => pure ⟨.error fault, rest⟩
        | .ok value => do
          let value ← remember setting.remembers cell value
          pure ⟨.ok (some value), rest⟩
    | .progression range => pure (advanceProgression range)
    | .prepend head tail => pure ⟨.ok (some head), tail⟩
    | .concat first second => do
      let ⟨outcome, rest⟩ ← advance fuel first
      match outcome with
      | .ok none => advance fuel second
      | outcome => pure ⟨outcome, .concat rest second⟩
    | .mapped function source => do
      let ⟨outcome, rest⟩ ← advance fuel source
      match outcome with
      | .ok (some x) => do
        let value ← attempt (apply fuel function x)
        pure ⟨value.map some, .mapped function rest⟩
      | outcome => pure ⟨outcome, .mapped function rest⟩
    | .filtered predicate source => do
      let ⟨outcome, rest⟩ ← advance fuel source
      match outcome with
      | .ok (some x) =>
        match ← attempt (do check; lift (← apply fuel predicate x).asBool) with
        | .error fault => pure ⟨.error fault, .filtered predicate rest⟩
        | .ok true => pure ⟨.ok (some x), .filtered predicate rest⟩
        | .ok false => advance fuel (.filtered predicate rest)
      | outcome => pure ⟨outcome, .filtered predicate rest⟩
    | .dropped 0 source => advance fuel source
    | .dropped (count + 1) source => do
      match ← attempt check with
      | .error fault => pure ⟨.error fault, l⟩
      | .ok () => do
        let ⟨outcome, rest⟩ ← advance fuel source
        match outcome with
        | .error fault => pure ⟨.error fault, .dropped count rest⟩
        | .ok none => pure ⟨.ok none, rest⟩
        | .ok (some _) => advance fuel (.dropped count rest)

/-- The value with every finite list in it replaced by the list of its elements. -/
def materialize : (fuel : Nat) → Expr → Eval σ Expr
  | 0, _ => outOfFuel
  | fuel + 1, e =>
    match e with
    | .list l =>
      if l.isInfinite then pure e
      else do
        let elements ← foldItems (advance fuel)
          (fun elements x => do pure ((← materialize fuel x) :: elements)) fuel [] l
        newList elements.reverse .top
    | e => pure e

/-- The text that a value has inside other text: a string without quotes, null as nothing, and all
else as source text. -/
def displayText : (fuel : Nat) → Expr → Eval σ String
  | 0, _ => outOfFuel
  | fuel + 1, e =>
    match e with
    | .str text => pure text
    | .null => pure ""
    | e => do
      let value ← materialize fuel e
      fueled (setting.write fuel value)

end

/-- The source text of a value, with finite lists replaced by lists of their elements. -/
def render (fuel : Nat) (e : Expr) : Eval σ String := do
  let value ← materialize setting fuel e
  fueled (setting.write fuel value)

/-- Evaluates an expression and applies its value to arguments, which are evaluated one by one. -/
def applyAll (fuel : Nat) (e : Expr) (arguments : List Expr) : Eval σ Expr := do
  let value ← eval setting fuel .top e
  arguments.foldlM (fun function argument => do
    let argument ← eval setting fuel .top argument
    apply setting fuel function argument) value

end Eval

end LazyExpr
