import LazyExpr.Proofs.Expr.RoundTrip
import LazyExpr.Proofs.Expr.Scoped

/-!
# Names and their binders

Names are resolved while a text is read, in scopes that grow with every lambda.  This module says
what has become of them when the whole expression is there and the scopes are gone.  The lambdas
around an occurrence are all that is left to look at.

* `Occurs e around x`: the expression `x` stands in `e`, inside the lambdas `around`.
* `Shape.scope`: the scope that the lambdas around an occurrence make.  `occurs_readable`: **what
  stands inside some lambdas was read in the scope they make.**
* `Binds around slot`: the slot belongs to the innermost lambda that declares its name, and to the
  last position at which that lambda does.
* `binders_of_parse`: **every lambda, every slot and every built-in function of an expression that
  was read stands where it belongs.**
-/

namespace LazyExpr

/-! ## 1. Where an expression occurs in another -/

/-- The arguments of all calls of an environment. -/
def Env.arguments : Env → List Expr
  | top => []
  | frame _ _ arguments parent => arguments ++ parent.arguments

/-- The expressions that a list is made of. -/
def LazyList.parts : LazyList → List Expr
  | items elements env _ => elements ++ env.arguments
  | progression _ => []
  | prepend head tail => [head, .list tail]
  | concat first second => [.list first, .list second]
  | mapped function source => [function, .list source]
  | filtered predicate source => [predicate, .list source]
  | dropped _ source => [.list source]

/-- The expressions directly inside an expression, but for the body of a lambda. -/
def Expr.parts : Expr → List Expr
  | range start second stop => start :: (second.toList ++ stop.toList)
  | call f a => [f, a]
  | closure _ _ body env => body :: env.arguments
  | applied target arguments => target :: arguments
  | unary _ operand => [operand]
  | binary _ left right => [left, right]
  | leftSection _ left => [left]
  | rightSection _ right => [right]
  | conditional condition yes no => [condition, yes, no]
  | interpolated fragments => embeddedExprs fragments
  | list elements => elements.parts
  | number _ | bool _ | str _ | null | function _ | lambda .. | argument _ => []

/-- `Occurs e around x`: the expression `x` stands in `e`, and the lambdas of `e` around it have
these depths and parameters, the innermost first. -/
inductive Occurs (e : Expr) : Shape → Expr → Prop where
  | whole : Occurs e [] e
  | part {around : Shape} {x y : Expr} (h : Occurs e around x) (hy : y ∈ x.parts) :
    Occurs e around y
  | body {around : Shape} {depth : Nat} {parameters : List String} {x : Expr}
    (h : Occurs e around (.lambda depth parameters x)) : Occurs e ((depth, parameters) :: around) x

/-! ## 2. The scope of an occurrence -/

/-- The scope that lambdas make, one inside another. -/
def Shape.scope : Shape → Scope
  | [] => .standard
  | (_, parameters) :: outer => (scope outer).inside parameters

/-- Each lambda is one level deeper than the one around it. -/
def Shape.Numbered : Shape → Prop
  | [] => True
  | (depth, _) :: outer => depth = outer.length + 1 ∧ Numbered outer

theorem Shape.depth_scope : ∀ around : Shape, (scope around).depth = around.length
  | [] => rfl
  | (_, _) :: outer => congrArg (· + 1) (depth_scope outer)

/-- A name of such a scope stands for a parameter or for a built-in function. -/
theorem Shape.lookup_scope {name : String} {e : Expr} : ∀ {around : Shape},
    (scope around).lookup name = some e →
      (∃ slot : Slot, e = .argument slot) ∨ ∃ f : Function, e = .function f
  | [], h => by
    obtain ⟨b, -, rfl⟩ := Scope.lookup_standard h
    exact .inr ⟨_, rfl⟩
  | (_, _) :: _, h => by
    rw [scope, Scope.inside, Scope.lookup, Option.or_eq_some_iff] at h
    rcases h with h | ⟨-, h⟩
    · obtain ⟨_, -, rfl⟩ := Scope.lookup_parameterBindings h
      exact .inl ⟨_, rfl⟩
    · exact lookup_scope h

/-- The parts of what was read were read in the same scope. -/
theorem Readable.part {around : Shape} {x y : Expr} (h : Readable around.scope x)
    (hy : y ∈ x.parts) :
    Readable around.scope y := by
  cases h with
  | integer | decimal | bool | null | str | lambda => cases hy
  | name hlookup =>
    rcases Shape.lookup_scope hlookup with ⟨_, rfl⟩ | ⟨_, rfl⟩
    · cases hy
    · cases hy
  | unary _ h | leftSection _ h | rightSection _ h =>
    obtain rfl := List.mem_singleton.mp hy
    exact h
  | binary _ hleft hright | call hleft hright =>
    rcases List.mem_pair.mp hy with rfl | rfl
    · exact hleft
    · exact hright
  | conditional hcondition hyes hno =>
    rcases List.mem_cons.mp hy with rfl | hy
    · exact hcondition
    · rcases List.mem_pair.mp hy with rfl | rfl
      · exact hyes
      · exact hno
  | literal h =>
    exact h y (by simpa [Expr.literal, Expr.parts, LazyList.parts, Env.arguments] using hy)
  | range hstart hsecond hstop =>
    simp only [Expr.parts, List.mem_cons, List.mem_append, Option.mem_toList] at hy
    rcases hy with rfl | hy | hy
    · exact hstart
    · exact hsecond y hy
    · exact hstop y hy
  | interpolated hembedded =>
    simp only [Expr.parts, embeddedExprs, List.mem_filterMap] at hy
    obtain ⟨fragment, hmem, hy⟩ := hy
    cases fragment with
    | text => cases hy
    | embedded e =>
      obtain rfl := Option.some.inj hy
      exact hembedded e hmem

/-- The depth of a lambda is that of the scope inside it, in which its body was read. -/
theorem Readable.body {around : Shape} {depth : Nat} {parameters : List String} {x : Expr}
    (h : Readable around.scope (.lambda depth parameters x)) :
    depth = around.length + 1 ∧ Readable (Shape.scope ((depth, parameters) :: around)) x := by
  cases h with
  | name hlookup => rcases Shape.lookup_scope hlookup with ⟨_, h⟩ | ⟨_, h⟩ <;> cases h
  | lambda _ _ hbody => exact ⟨congrArg (· + 1) around.depth_scope, hbody⟩

/-- **What stands inside some lambdas was read in the scope they make**, and their depths count
them. -/
theorem occurs_readable {e : Expr} (h : Readable .standard e) {around : Shape} {x : Expr}
    (hx : Occurs e around x) : around.Numbered ∧ Readable around.scope x := by
  induction hx with
  | whole => exact ⟨trivial, h⟩
  | part _ hy ih => exact ⟨ih.1, ih.2.part hy⟩
  | body _ ih =>
    obtain ⟨hdepth, hbody⟩ := ih.2.body
    exact ⟨⟨hdepth, ih.1⟩, hbody⟩

/-! ## 3. The binder of a name -/

/-- The last of the positions at which the parameters have a name. -/
def LastAt (parameters : List String) (name : String) (index : Nat) : Prop :=
  parameters[index]? = some name ∧ ∀ later, index < later → parameters[later]? ≠ some name

/-- The slot belongs to the innermost of the lambdas that declares its name, which has the slot's
depth, and to the last position at which that lambda declares it. -/
def Binds (around : Shape) (slot : Slot) : Prop :=
  ∃ inner parameters outer, around = inner ++ (slot.depth, parameters) :: outer ∧
    (∀ lambda ∈ inner, slot.name ∉ lambda.2) ∧ LastAt parameters slot.name slot.index

theorem lastIndex?_concat (name last : String) (parameters : List String) :
    lastIndex? name (parameters ++ [last]) =
      if name = last then some parameters.length else lastIndex? name parameters := by
  by_cases h : name = last
  · simp [lastIndex?, List.zipIdx_append, h]
  · have hb : (name == last) = false := by simpa using h
    simp [lastIndex?, List.zipIdx_append, List.lookup_cons, h, hb]

theorem lastIndex?_eq_none {name : String} {parameters : List String}
    (h : lastIndex? name parameters = none) : name ∉ parameters := by
  intro hmem
  obtain ⟨index, hindex⟩ := List.getElem?_of_mem hmem
  have hpair : (name, index) ∈ parameters.zipIdx.reverse := by
    rwa [List.mem_reverse, List.mk_mem_zipIdx_iff_getElem?]
  have hne := List.lookup_eq_none_iff.mp h _ hpair
  simp at hne

/-- Of several parameters with one name, the last is found. -/
theorem lastAt_of_lastIndex? {name : String} {parameters : List String} {index : Nat}
    (h : lastIndex? name parameters = some index) : LastAt parameters name index := by
  refine ⟨mem_of_lastIndex? h, ?_⟩
  induction parameters using List.reverseRecOn with
  | nil => cases h
  | append_singleton parameters last ih =>
    intro later hlater hat
    rw [lastIndex?_concat] at h
    obtain ⟨hlt, -⟩ := List.getElem?_eq_some_iff.mp hat
    rw [List.length_append, List.length_singleton] at hlt
    split at h
    · have : parameters.length = index := Option.some.inj h
      omega
    · next hne =>
      rcases Nat.lt_succ_iff_lt_or_eq.mp hlt with hlt | rfl
      · rw [List.getElem?_append_left hlt] at hat
        exact ih h later hlater hat
      · rw [List.getElem?_concat_length] at hat
        exact hne (Option.some.inj hat).symm

/-- In the scope of some lambdas, a name stands for a slot that they bind. -/
theorem binds_of_lookup {name : String} {slot : Slot} : ∀ {around : Shape}, around.Numbered →
    around.scope.lookup name = some (.argument slot) → slot.name = name ∧ Binds around slot
  | [], _, h => by
    obtain ⟨_, -, h⟩ := Scope.lookup_standard h
    cases h
  | (depth, parameters) :: outer, ⟨hdepth, houter⟩, h => by
    rw [Shape.scope, Scope.inside, Scope.lookup, lookup_parameterBindings_eq] at h
    cases hindex : lastIndex? name parameters with
    | some index =>
      rw [hindex, Shape.depth_scope, ← hdepth] at h
      cases h
      exact ⟨rfl, [], parameters, outer, rfl, by simp, lastAt_of_lastIndex? hindex⟩
    | none =>
      rw [hindex] at h
      obtain ⟨rfl, inner, params, rest, rfl, hinner, hlast⟩ := binds_of_lookup houter h
      refine ⟨rfl, (depth, parameters) :: inner, params, rest, rfl, fun lambda hlambda => ?_, hlast⟩
      rcases List.mem_cons.mp hlambda with rfl | hlambda
      · exact lastIndex?_eq_none hindex
      · exact hinner lambda hlambda

/-- A name stands for a built-in function only where no lambda declares it. -/
theorem free_of_lookup {name : String} {f : Function} : ∀ {around : Shape},
    around.scope.lookup name = some (.function f) → f.name = name ∧
    ∀ lambda ∈ around, name ∉ lambda.2
  | [], h => by
    obtain ⟨b, hname, hb⟩ := Scope.lookup_standard h
    obtain rfl := Expr.function.inj hb
    exact ⟨hname.symm, by simp⟩
  | (_, parameters) :: outer, h => by
    rw [Shape.scope, Scope.inside, Scope.lookup, lookup_parameterBindings_eq] at h
    cases hindex : lastIndex? name parameters with
    | some index =>
      rw [hindex] at h
      cases h
    | none =>
      rw [hindex] at h
      obtain ⟨hname, hfree⟩ := free_of_lookup h
      refine ⟨hname, fun lambda hlambda => ?_⟩
      rcases List.mem_cons.mp hlambda with rfl | hlambda
      · exact lastIndex?_eq_none hindex
      · exact hfree lambda hlambda

/-- **Everything in an expression that was read belongs where it stands.** A lambda has the depth
that the lambdas around it count up to, a slot belongs to the innermost of them that declares its
name, at the last position of that name, and no lambda around a built-in function declares the name
of the function. -/
theorem binders_of_parse {source : String} {e : Expr} (h : parse source = .ok e) {around : Shape}
    {x : Expr} (hx : Occurs e around x) :
    (∀ depth parameters body, x = .lambda depth parameters body → depth = around.length + 1) ∧
      (∀ slot, x = .argument slot → Binds around slot) ∧
      ∀ f, x = .function f → ∀ lambda ∈ around, f.name ∉ lambda.2 := by
  obtain ⟨hnumbered, hreadable⟩ := occurs_readable (readable_of_parseIn h) hx
  refine ⟨?_, ?_, ?_⟩
  · rintro depth parameters body rfl
    exact hreadable.body.1
  · rintro slot rfl
    cases hreadable with
    | name hlookup => exact (binds_of_lookup hnumbered hlookup).2
  · rintro f rfl
    cases hreadable with
    | name hlookup =>
      obtain ⟨rfl, hfree⟩ := free_of_lookup hlookup
      exact hfree

/-- A slot in a string stands in three lambdas, two of which declare its name, the inner one
twice. -/
theorem binders_of_parse_shadowed :
    let slot : Slot := ⟨2, 1, "y"⟩
    let around : Shape := [(3, ["sum"]), (2, ["y", "y"]), (1, ["x", "y"])]
    ∃ e, parse "\\x y -> \\y y -> \\sum -> p\"$\x7bx + y\x7d\"" = .ok e ∧
      Occurs e around (.argument slot) ∧ Binds around slot := by
  intro slot around
  let text : Expr := .interpolated
    [.embedded (.binary .add (.argument ⟨1, 0, "x"⟩) (.argument slot))]
  let e : Expr := .lambda 1 ["x", "y"] (.lambda 2 ["y", "y"] (.lambda 3 ["sum"] text))
  have hparse : parse "\\x y -> \\y y -> \\sum -> p\"$\x7bx + y\x7d\"" = .ok e := by cbv
  have htext : Occurs e around text := .body (.body (.body .whole))
  have hoccurs : Occurs e around (.argument slot) :=
    .part (.part htext List.mem_cons_self) (List.mem_cons_of_mem _ List.mem_cons_self)
  exact ⟨e, hparse, hoccurs, (binders_of_parse hparse hoccurs).2.1 slot rfl⟩

end LazyExpr
