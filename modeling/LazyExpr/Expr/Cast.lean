import LazyExpr.Fault
import LazyExpr.Text.BoolWord

/-!
# Values taken as a type

Where a place asks for a type, a value of that type is taken as it is, a string that spells a
boolean counts as one, and a whole decimal counts as an integer.  Nothing else is converted.
-/

namespace LazyExpr.Expr

/-- The value of a cast, or the fault that it fails with: the fault holds the value, which is
written when the text of the fault is asked for. -/
def castTo {α : Type} (e : Expr) (target : Target) : Option α → Except Fault α
  | some a => .ok a
  | none => .error (.invalidCast e target)

/-- The number that a value is. -/
def number? : Expr → Option Number
  | .number n => some n
  | _ => none

/-- A value as a boolean. -/
def asBool (e : Expr) : Except Fault Bool :=
  e.castTo .boolean <|
    match e with
    | .bool b => some b
    | .str text => Text.readBool? text
    | _ => none

/-- A value as an integer. -/
def asInteger (e : Expr) : Except Fault Int64 :=
  e.castTo .integer <|
    match e with
    | .number (.integer n) => some n
    | .number (.decimal d) => d.toInt64?
    | _ => none

/-- A value as a number. -/
def asNumber (e : Expr) : Except Fault Number := e.castTo .number e.number?

/-- A value as a string. -/
def asString (e : Expr) : Except Fault String :=
  e.castTo .string <|
    match e with
    | .str text => some text
    | _ => none

/-- A value as a list. -/
def asList (e : Expr) : Except Fault LazyList :=
  e.castTo .list <|
    match e with
    | .list l => some l
    | _ => none

/-- A value as a list that has an end, for the use of `function`. -/
def asFiniteList (e : Expr) (function : String) : Except Fault LazyList := do
  let l ← e.asList
  if l.isInfinite then throw (.infiniteList function) else return l

end LazyExpr.Expr
