import LazyExpr.Proofs.Eval.Likeness

/-!
# Expressions up to their cells

The value of a list literal names the cells in which its elements are kept.  Which cells these are
says nothing about the list: two lists that differ in their cells only have the same elements.  This
module forgets the cells (`Expr.erase`), everywhere inside an expression.

* `Expr.Alike e e'` — equal up to cells.
* `display_alike` — **what is alike is written alike**, and `display_mono` that more fuel changes no
  text.
* `Fault.HasText` — the values that a fault is about can be written.
-/

namespace LazyExpr

/-! ## 1. Without cells -/

mutual

/-- The expression without its cells. -/
def Expr.erase : Expr → Expr
  | .number n => .number n
  | .bool b => .bool b
  | .str text => .str text
  | .null => .null
  | .list l => .list l.erase
  | .range start second stop => .range start.erase (eraseOption second) (eraseOption stop)
  | .call function argument => .call function.erase argument.erase
  | .function f => .function f
  | .lambda depth parameters body => .lambda depth parameters body.erase
  | .closure depth parameters body env => .closure depth parameters body.erase env.erase
  | .argument slot => .argument slot
  | .applied target arguments => .applied target.erase (eraseAll arguments)
  | .unary op operand => .unary op operand.erase
  | .binary op left right => .binary op left.erase right.erase
  | .leftSection op left => .leftSection op left.erase
  | .rightSection op right => .rightSection op right.erase
  | .conditional condition yes no => .conditional condition.erase yes.erase no.erase
  | .interpolated fragments => .interpolated (eraseFragments fragments)

/-- A bound of a range without its cells. -/
def eraseOption : Option Expr → Option Expr
  | none => none
  | some e => some e.erase

/-- Expressions without their cells. -/
def eraseAll : List Expr → List Expr
  | [] => []
  | e :: es => e.erase :: eraseAll es

/-- Fragments without the cells of what they embed. -/
def eraseFragments : List Fragment → List Fragment
  | [] => []
  | .text text :: rest => .text text :: eraseFragments rest
  | .embedded e :: rest => .embedded e.erase :: eraseFragments rest

/-- The list without its cells. -/
def LazyList.erase : LazyList → LazyList
  | .items elements env _ => .items (eraseAll elements) env.erase none
  | .progression range => .progression range
  | .prepend head tail => .prepend head.erase tail.erase
  | .concat first second => .concat first.erase second.erase
  | .mapped function source => .mapped function.erase source.erase
  | .filtered predicate source => .filtered predicate.erase source.erase
  | .dropped count source => .dropped count source.erase

/-- The environment without the cells of its arguments. -/
def Env.erase : Env → Env
  | .top => .top
  | .frame depth parameters arguments parent =>
    .frame depth parameters (eraseAll arguments) parent.erase

end

/-- A fault without the cells of its values. -/
def Fault.erase : Fault → Fault
  | .typeMismatch op left right => .typeMismatch op left.erase right.erase
  | .invalidOperand op operand => .invalidOperand op operand.erase
  | .notCallable value => .notCallable value.erase
  | .invalidCast value target => .invalidCast value.erase target
  | fault => fault

theorem eraseAll_eq_map : ∀ es : List Expr, eraseAll es = es.map Expr.erase
  | [] => rfl
  | e :: es => by rw [eraseAll, eraseAll_eq_map es, List.map_cons]

/-- Equal up to cells. -/
def Expr.Alike (e e' : Expr) : Prop := e.erase = e'.erase

/-- Lists of which the elements are equal up to cells, one by one. -/
theorem alike_of_eraseAll {es es' : List Expr} (h : eraseAll es = eraseAll es') :
    List.Forall₂ Expr.Alike es es' := by
  rw [eraseAll_eq_map, eraseAll_eq_map, ← List.forall₂_eq_eq_eq] at h
  have h := List.forall₂_map_left_iff.mp h
  have h : List.Forall₂ (fun a b => a.erase = b.erase) es es' := List.forall₂_map_right_iff.mp h
  exact h

theorem eraseAll_of_alike {es es' : List Expr} (h : List.Forall₂ Expr.Alike es es') :
    eraseAll es = eraseAll es' := by
  induction h with
  | nil => rfl
  | cons hab _ ih => rw [eraseAll, eraseAll, hab, ih]

mutual

theorem Expr.erase_erase : ∀ e : Expr, e.erase.erase = e.erase
  | .number _ | .bool _ | .str _ | .null | .function _ | .argument _ => rfl
  | .list l => by simp only [Expr.erase, l.erase_erase]
  | .range a b c => by
    simp only [Expr.erase, a.erase_erase, eraseOption_eraseOption b, eraseOption_eraseOption c]
  | .call f a => by simp only [Expr.erase, f.erase_erase, a.erase_erase]
  | .lambda _ _ body => by simp only [Expr.erase, body.erase_erase]
  | .closure _ _ body env => by simp only [Expr.erase, body.erase_erase, env.erase_erase]
  | .applied target arguments => by
    simp only [Expr.erase, target.erase_erase, eraseAll_eraseAll arguments]
  | .unary _ e | .leftSection _ e | .rightSection _ e => by simp only [Expr.erase, e.erase_erase]
  | .binary _ l r => by simp only [Expr.erase, l.erase_erase, r.erase_erase]
  | .conditional c y n => by
    simp only [Expr.erase, c.erase_erase, y.erase_erase, n.erase_erase]
  | .interpolated fragments => by simp only [Expr.erase, eraseFragments_eraseFragments fragments]

theorem eraseOption_eraseOption : ∀ o : Option Expr, eraseOption (eraseOption o) = eraseOption o
  | none => rfl
  | some e => by simp only [eraseOption, e.erase_erase]

theorem eraseAll_eraseAll : ∀ es : List Expr, eraseAll (eraseAll es) = eraseAll es
  | [] => rfl
  | e :: es => by simp only [eraseAll, e.erase_erase, eraseAll_eraseAll es]

theorem eraseFragments_eraseFragments : ∀ fs : List Fragment,
    eraseFragments (eraseFragments fs) = eraseFragments fs
  | [] => rfl
  | .text _ :: fs => by simp only [eraseFragments, eraseFragments_eraseFragments fs]
  | .embedded e :: fs => by
    simp only [eraseFragments, e.erase_erase, eraseFragments_eraseFragments fs]

theorem LazyList.erase_erase : ∀ l : LazyList, l.erase.erase = l.erase
  | .items elements env _ => by
    simp only [LazyList.erase, eraseAll_eraseAll elements, env.erase_erase]
  | .progression _ => rfl
  | .prepend h t => by simp only [LazyList.erase, h.erase_erase, t.erase_erase]
  | .concat a b => by simp only [LazyList.erase, a.erase_erase, b.erase_erase]
  | .mapped f s | .filtered f s => by simp only [LazyList.erase, f.erase_erase, s.erase_erase]
  | .dropped _ s => by simp only [LazyList.erase, s.erase_erase]

theorem Env.erase_erase : ∀ env : Env, env.erase.erase = env.erase
  | .top => rfl
  | .frame _ _ arguments parent => by
    simp only [Env.erase, eraseAll_eraseAll arguments, parent.erase_erase]

end

/-- Arguments that are found without cells are those that are found, without theirs. -/
theorem Env.lookup_erase (slot : Slot) : ∀ env : Env,
    env.erase.lookup slot = (env.lookup slot).map Expr.erase
  | .top => rfl
  | .frame depth parameters arguments parent => by
    rw [Env.erase, Env.lookup, Env.lookup, eraseAll_eq_map, List.getElem?_map,
      Env.lookup_erase slot parent]
    split
    · rfl
    · split <;> rfl

/-! ## 2. Writing -/

theorem Env.orElse_erase (own env : Env) : (own.orElse env).erase = own.erase.orElse env.erase := by
  cases own <;> rfl

theorem LazyList.precedence_erase (l : LazyList) : l.erase.precedence = l.precedence := by
  cases l <;> rfl

theorem Expr.precedence_erase (e : Expr) : e.erase.precedence = e.precedence := by
  cases e with
  | list l => exact l.precedence_erase
  | _ => rfl

mutual

theorem Expr.source_erase : ∀ e : Expr, e.erase.source = e.source
  | .number _ | .bool _ | .str _ | .null | .function _ | .argument _ => rfl
  | .list l => l.source_erase
  | .range a none none => by
    simp only [Expr.erase, eraseOption, Expr.source, a.source_erase]
  | .range a (some b) none | .range a none (some b) => by
    simp only [Expr.erase, eraseOption, Expr.source, a.source_erase, b.source_erase]
  | .range a (some b) (some c) => by
    simp only [Expr.erase, eraseOption, Expr.source, a.source_erase, b.source_erase, c.source_erase]
  | .call f a => by
    simp only [Expr.erase, Expr.source, f.source_erase, a.source_erase, Expr.precedence_erase]
  | .lambda _ _ body | .closure _ _ body _ => by
    simp only [Expr.erase, Expr.source, body.source_erase]
  | .applied target arguments => by
    simp only [Expr.erase, Expr.source, target.source_erase, Expr.precedence_erase,
      argumentsSource_erase arguments]
  | .unary _ e => by simp only [Expr.erase, Expr.source, e.source_erase, Expr.precedence_erase]
  | .binary _ l r => by
    simp only [Expr.erase, Expr.source, l.source_erase, r.source_erase, Expr.precedence_erase]
  | .leftSection _ e | .rightSection _ e => by
    simp only [Expr.erase, Expr.source, e.source_erase, Expr.precedence_erase]
  | .conditional c y n => by
    simp only [Expr.erase, Expr.source, c.source_erase, y.source_erase, n.source_erase]
  | .interpolated fragments => by
    simp only [Expr.erase, Expr.source, fragmentsSource_erase fragments]

theorem LazyList.source_erase : ∀ l : LazyList, l.erase.source = l.source
  | .items [] _ _ => rfl
  | .items (x :: xs) _ _ => by
    simp only [LazyList.erase, eraseAll, LazyList.source, x.source_erase, elementsSource_erase xs]
  | .progression _ => rfl
  | .prepend h t => by
    simp only [LazyList.erase, LazyList.source, h.source_erase, t.source_erase,
      Expr.precedence_erase, LazyList.precedence_erase]
  | .concat a b => by
    simp only [LazyList.erase, LazyList.source, a.source_erase, b.source_erase,
      LazyList.precedence_erase]
  | .mapped f s | .filtered f s => by
    simp only [LazyList.erase, LazyList.source, f.source_erase, s.source_erase,
      Expr.precedence_erase, LazyList.precedence_erase]
  | .dropped _ s => by
    simp only [LazyList.erase, LazyList.source, s.source_erase, LazyList.precedence_erase]

theorem elementsSource_erase : ∀ es : List Expr, elementsSource (eraseAll es) = elementsSource es
  | [] => rfl
  | e :: es => by simp only [eraseAll, elementsSource, e.source_erase, elementsSource_erase es]

theorem argumentsSource_erase : ∀ es : List Expr, argumentsSource (eraseAll es) = argumentsSource es
  | [] => rfl
  | e :: es => by
    simp only [eraseAll, argumentsSource, e.source_erase, Expr.precedence_erase,
      argumentsSource_erase es]

theorem fragmentsSource_erase : ∀ fs : List Fragment,
    fragmentsSource (eraseFragments fs) = fragmentsSource fs
  | [] => rfl
  | .text _ :: fs => by simp only [eraseFragments, fragmentsSource, fragmentsSource_erase fs]
  | .embedded e :: fs => by
    simp only [eraseFragments, fragmentsSource, e.source_erase, fragmentsSource_erase fs]

end

/-- Captured arguments in their places inside a fragment. -/
def inlineFragment (f : Expr → Option Expr) : Fragment → Option Fragment
  | .text text => some (.text text)
  | .embedded e => (f e).map .embedded

section Mapping

variable {f g : Expr → Option Expr} (h : ∀ e, g e.erase = (f e).map Expr.erase)

include h

theorem mapM_eraseAll : ∀ es : List Expr, (eraseAll es).mapM g = (es.mapM f).map eraseAll
  | [] => rfl
  | e :: es => by
    rw [eraseAll, List.mapM_cons, List.mapM_cons, h, mapM_eraseAll es]
    cases f e with
    | none => rfl
    | some r => cases es.mapM f <;> rfl

theorem mapM_eraseOption (o : Option Expr) :
    (eraseOption o).mapM g = (o.mapM f).map eraseOption := by
  cases o with
  | none => rfl
  | some e =>
    simp only [eraseOption, Option.mapM_some, h]
    cases f e <;> rfl

theorem mapM_eraseFragments : ∀ fs : List Fragment,
    (eraseFragments fs).mapM (inlineFragment g) = (fs.mapM (inlineFragment f)).map eraseFragments
  | [] => rfl
  | .text t :: fs => by
    rw [eraseFragments, List.mapM_cons, List.mapM_cons, mapM_eraseFragments fs]
    simp only [inlineFragment]
    cases fs.mapM (inlineFragment f) <;> rfl
  | .embedded e :: fs => by
    rw [eraseFragments, List.mapM_cons, List.mapM_cons, mapM_eraseFragments fs]
    simp only [inlineFragment, h]
    cases f e with
    | none => rfl
    | some r => cases fs.mapM (inlineFragment f) <;> rfl

end Mapping

theorem Expr.inline_interpolated (n : Nat) (env : Env) (fragments : List Fragment) :
    (Expr.interpolated fragments).inline (n + 1) env =
      (fragments.mapM (inlineFragment (Expr.inline n env))).map .interpolated := by
  have hstep : inlineFragment (Expr.inline n env) = fun fragment =>
      match fragment with
      | .text _ => some fragment
      | .embedded e => (e.inline n env).map .embedded := by
    funext fragment
    cases fragment <;> rfl
  rw [Expr.inline, hstep, Option.map_eq_bind]
  rfl

/-- Captured arguments are put in their places alike with cells and without. -/
theorem inline_erase : ∀ n : Nat,
    (∀ (e : Expr) (env : Env), e.erase.inline n env.erase = (e.inline n env).map Expr.erase) ∧
      ∀ (l : LazyList) (env : Env), l.erase.inline n env.erase = (l.inline n env).map LazyList.erase
  | 0 => ⟨fun _ _ => rfl, fun _ _ => rfl⟩
  | n + 1 => by
    obtain ⟨ihe, ihl⟩ := inline_erase n
    refine ⟨fun e env => ?_, fun l env => ?_⟩
    · cases e with
      | number | bool | str | null | function => rfl
      | list l =>
        simp only [Expr.erase, Expr.inline, ihl]
        cases l.inline n env <;> rfl
      | range start second stop =>
        simp only [Expr.erase, Expr.inline, ihe, mapM_eraseOption fun e => ihe e env]
        cases start.inline n env with
        | none => rfl
        | some _ =>
          cases second.mapM (Expr.inline n env) with
          | none => rfl
          | some _ => cases stop.mapM (Expr.inline n env) <;> rfl
      | call f a =>
        simp only [Expr.erase, Expr.inline, ihe]
        cases f.inline n env with
        | none => rfl
        | some _ => cases a.inline n env <;> rfl
      | lambda _ _ body =>
        simp only [Expr.erase, Expr.inline, ihe]
        cases body.inline n env <;> rfl
      | closure _ _ body captured =>
        simp only [Expr.erase, Expr.inline, ihe]
        cases body.inline n captured <;> rfl
      | argument slot =>
        simp only [Expr.erase, Expr.inline, Env.lookup_erase]
        cases env.lookup slot with
        | none => rfl
        | some value => exact ihe value env
      | applied target arguments =>
        simp only [Expr.erase, Expr.inline, ihe, mapM_eraseAll fun e => ihe e env]
        cases target.inline n env with
        | none => rfl
        | some _ => cases arguments.mapM (Expr.inline n env) <;> rfl
      | unary _ e | leftSection _ e | rightSection _ e =>
        simp only [Expr.erase, Expr.inline, ihe]
        cases e.inline n env <;> rfl
      | binary _ l r =>
        simp only [Expr.erase, Expr.inline, ihe]
        cases l.inline n env with
        | none => rfl
        | some _ => cases r.inline n env <;> rfl
      | conditional c y no =>
        simp only [Expr.erase, Expr.inline, ihe]
        cases c.inline n env with
        | none => rfl
        | some _ =>
          cases y.inline n env with
          | none => rfl
          | some _ => cases no.inline n env <;> rfl
      | interpolated fragments =>
        rw [Expr.erase, Expr.inline_interpolated, Expr.inline_interpolated,
          mapM_eraseFragments fun e => ihe e env]
        cases fragments.mapM (inlineFragment (Expr.inline n env)) <;> rfl
    · cases l with
      | items elements captured cell =>
        simp only [LazyList.erase, LazyList.inline, ← Env.orElse_erase,
          mapM_eraseAll fun e => ihe e (captured.orElse env)]
        cases elements.mapM (Expr.inline n (captured.orElse env)) <;> rfl
      | progression => rfl
      | prepend h t =>
        simp only [LazyList.erase, LazyList.inline, ihe, ihl]
        cases h.inline n env with
        | none => rfl
        | some _ => cases t.inline n env <;> rfl
      | concat a b =>
        simp only [LazyList.erase, LazyList.inline, ihl]
        cases a.inline n env with
        | none => rfl
        | some _ => cases b.inline n env <;> rfl
      | mapped f s | filtered f s =>
        simp only [LazyList.erase, LazyList.inline, ihe, ihl]
        cases f.inline n env with
        | none => rfl
        | some _ => cases s.inline n env <;> rfl
      | dropped count s =>
        simp only [LazyList.erase, LazyList.inline, ihl]
        cases s.inline n env <;> rfl

/-! ## 3. More fuel -/

/-- What one gives, the other gives. -/
def Below {α : Type} (o o' : Option α) : Prop := ∀ a, o = some a → o' = some a

namespace Below

variable {α β : Type}

theorem rfl {o : Option α} : Below o o := fun _ h => h

theorem none {o : Option α} : Below none o := fun _ h => nomatch h

theorem map {o o' : Option α} (h : Below o o') (f : α → β) : Below (o.map f) (o'.map f) := by
  intro b hb
  obtain ⟨a, ha, rfl⟩ := Option.map_eq_some_iff.mp hb
  rw [h a ha, Option.map_some]

theorem bind {o o' : Option α} (h : Below o o') {f g : α → Option β} (hf : ∀ a, Below (f a) (g a)) :
    Below (o >>= f) (o' >>= g) := by
  intro b hb
  obtain ⟨a, ha, hab⟩ := Option.bind_eq_some_iff.mp hb
  exact Option.bind_eq_some_iff.mpr ⟨a, h a ha, hf a b hab⟩

theorem mapM {f g : α → Option β} (hf : ∀ a, Below (f a) (g a)) :
    ∀ as : List α, Below (as.mapM f) (as.mapM g)
  | [] => rfl
  | a :: as => by
    rw [List.mapM_cons, List.mapM_cons]
    exact bind (hf a) fun _ => bind (mapM hf as) fun _ => rfl

theorem optionMapM {f g : α → Option β} (hf : ∀ a, Below (f a) (g a)) (o : Option α) :
    Below (o.mapM f) (o.mapM g) := by
  cases o with
  | none => exact rfl
  | some a =>
    rw [Option.mapM_some, Option.mapM_some]
    exact (hf a).map some

end Below

/-- With more fuel, captured arguments are put in the same places. -/
theorem inline_succ : ∀ n : Nat,
    (∀ (e : Expr) (env : Env), Below (e.inline n env) (e.inline (n + 1) env)) ∧
      ∀ (l : LazyList) (env : Env), Below (l.inline n env) (l.inline (n + 1) env)
  | 0 => ⟨fun _ _ => .none, fun _ _ => .none⟩
  | n + 1 => by
    obtain ⟨ihe, ihl⟩ := inline_succ n
    refine ⟨fun e env => ?_, fun l env => ?_⟩
    · cases e with
      | number | bool | str | null | function => exact .rfl
      | list l => exact (ihl l env).map _
      | range start second stop =>
        exact (ihe start env).bind fun _ => (Below.optionMapM (ihe · env) second).bind fun _ =>
          (Below.optionMapM (ihe · env) stop).bind fun _ => .rfl
      | call f a => exact (ihe f env).bind fun _ => (ihe a env).bind fun _ => .rfl
      | lambda _ _ body => exact (ihe body env).map _
      | closure _ _ body captured => exact (ihe body captured).map _
      | argument slot =>
        rw [Expr.inline, Expr.inline]
        cases env.lookup slot with
        | none => exact .rfl
        | some value => exact ihe value env
      | applied target arguments =>
        exact (ihe target env).bind fun _ => (Below.mapM (ihe · env) arguments).bind fun _ => .rfl
      | unary _ e | leftSection _ e | rightSection _ e => exact (ihe e env).map _
      | binary _ l r => exact (ihe l env).bind fun _ => (ihe r env).bind fun _ => .rfl
      | conditional c y no =>
        exact (ihe c env).bind fun _ => (ihe y env).bind fun _ => (ihe no env).bind fun _ => .rfl
      | interpolated fragments =>
        rw [Expr.inline_interpolated, Expr.inline_interpolated]
        refine (Below.mapM (fun fragment => ?_) fragments).map _
        cases fragment with
        | text t => exact .rfl
        | embedded e => exact (ihe e env).map _
    · cases l with
      | items elements captured cell =>
        exact (Below.mapM (ihe · (captured.orElse env)) elements).bind fun _ => .rfl
      | progression => exact .rfl
      | prepend h t => exact (ihe h env).bind fun _ => (ihl t env).bind fun _ => .rfl
      | concat a b => exact (ihl a env).bind fun _ => (ihl b env).bind fun _ => .rfl
      | mapped f s | filtered f s => exact (ihe f env).bind fun _ => (ihl s env).bind fun _ => .rfl
      | dropped count s => exact (ihl s env).map _

theorem inline_mono {n n' : Nat} (h : n ≤ n') (e : Expr) (env : Env) :
    Below (e.inline n env) (e.inline n' env) := by
  induction h with
  | refl => exact .rfl
  | step _ ih => exact fun r hr => (inline_succ _).1 e env r (ih r hr)

theorem display_mono {n n' : Nat} (h : n ≤ n') (e : Expr) : Below (e.display? n) (e.display? n') :=
  (inline_mono h e .top).map _

/-- **What is alike is written alike.** -/
theorem display_alike {e e' : Expr} (h : e.Alike e') (n : Nat) : e.display? n = e'.display? n := by
  have hwritten : ∀ e : Expr, e.display? n = (e.erase.inline n .top).map Expr.source := by
    intro e
    rw [show e.erase.inline n .top = (e.inline n .top).map Expr.erase
      from (inline_erase n).1 e .top, Option.map_map, Expr.display?]
    exact congrArg (fun f => (e.inline n .top).map f) (funext fun r => r.source_erase.symm)
  rw [hwritten e, hwritten e', h]

/-! ## 4. Texts of faults -/

theorem Expr.alike_erase (e : Expr) : e.Alike e.erase := e.erase_erase.symm

theorem Expr.explain_alike {e e' : Expr} (h : e.Alike e') (fuel : Nat) :
    e.explain? fuel = e'.explain? fuel := by
  have hkind : ∀ e : Expr, e.erase.explain? fuel = e.explain? fuel := by
    intro e
    have hdisplay := display_alike e.alike_erase fuel
    cases e with
    | number | bool | str | null | function | argument => rfl
    | _ =>
      simp only [Expr.explain?, Expr.erase, Expr.kind] at hdisplay ⊢
      rw [hdisplay]
  rw [← hkind e, ← hkind e', h]

/-- **Faults that are equal up to cells have the same message.** -/
theorem Fault.message_erase (e : Fault) (fuel : Nat) : e.erase.message? fuel = e.message? fuel := by
  cases e <;>
    simp only [Fault.erase, Fault.message?, ← Expr.explain_alike (Expr.alike_erase _)]

/-- The value can be explained.  An argument that a function has captured may lead back to itself,
and then there is no finite text. -/
def Expr.HasText (e : Expr) : Prop := ∃ n text, e.explain? n = some text

/-- The fault has a message: all values that are written in it can be explained. -/
def Fault.HasText (e : Fault) : Prop := ∃ n text, e.message? n = some text

/-- A value that is refused has to be explained. -/
theorem Fault.hasText_invalidCast {e : Expr} {target : Target} :
    (Fault.invalidCast e target).HasText ↔ e.HasText := by
  constructor
  · rintro ⟨n, text, h⟩
    obtain ⟨text, h, -⟩ := Option.bind_eq_some_iff.mp h
    exact ⟨n, text, h⟩
  · rintro ⟨n, text, h⟩
    exact ⟨n, _, Option.bind_eq_some_iff.mpr ⟨text, h, rfl⟩⟩

theorem Fault.hasText_erase {e : Fault} : e.erase.HasText ↔ e.HasText := by
  simp only [Fault.HasText, message_erase]

theorem Expr.HasText.of_alike {e e' : Expr} (he : e.HasText) (h : e.Alike e') : e'.HasText := by
  obtain ⟨n, text, htext⟩ := he
  exact ⟨n, text, (explain_alike h n).symm.trans htext⟩

theorem Fault.HasText.of_erase {e e' : Fault} (he : e.HasText) (h : e.erase = e'.erase) :
    e'.HasText := by
  rw [← hasText_erase, ← h, hasText_erase]
  exact he

end LazyExpr
