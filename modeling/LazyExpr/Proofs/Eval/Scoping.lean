import LazyExpr.Proofs.Eval.Fuel
import LazyExpr.Proofs.Expr.Completeness
import LazyExpr.Proofs.Expr.Data
import LazyExpr.Proofs.Expr.Scoped
import LazyExpr.Request

/-!
# Depth and position find what the name finds

The evaluator finds the argument of a parameter by the depth of its lambda and its position there.
The reference is the same evaluator with another way to find arguments, by name and innermost first,
both where a slot is evaluated and where it is written (`Setting.byName`).  On expressions that were
read from a text evaluating finds the same, step by step.

Writing does not.  A list literal that was evaluated outside of every call is written in the
environment of the function that has captured it, and the parameter of a lambda in it may have the
depth and position of one of the captured arguments, which is then written in its place.

What carries the comparison through an evaluation is that everything in sight is scoped: the
expression under the lambdas whose calls enclose it, the environments, all values, and what is kept
in cells.

* `eval_byName` — **an expression that was read evaluates alike in both ways**, to the same value or
  fault at every fuel, as far as what is written on the way is written alike; and a parameter is
  never found unbound.
* `own_parameter_captured` — a lambda whose own parameter is written as a captured argument.
-/

namespace LazyExpr

open Eval

/-! ## 1. Scoped things are the same to both -/

/-- The evaluator that finds arguments by name, where they are evaluated and where they are
written. -/
def Setting.byName : Setting Unit :=
  { Setting.standard with find := Env.byName, write := Expr.displayByName? }

/-- The text of a value on which the two ways to find arguments agree. -/
def Expr.agreedText? (fuel : Nat) (e : Expr) : Option String :=
  if e.display? fuel = e.displayByName? fuel then e.display? fuel else none

/-- The evaluator that writes only what both ways to find arguments write alike. -/
def Setting.agreed : Setting Unit := { Setting.standard with write := Expr.agreedText? }

theorem agreedText_below (n : Nat) (e : Expr) :
    Below (e.agreedText? n) (e.display? n) ∧ Below (e.agreedText? n) (e.displayByName? n) := by
  unfold Expr.agreedText?
  split
  · next h => exact ⟨.rfl, h ▸ .rfl⟩
  · exact ⟨.none, .none⟩

/-- Data captured nothing, by whatever means it is looked for. -/
theorem inlineByName_data {d : Nat} {v : Expr} (h : IsData d v) {n : Nat} (hn : v.source.length < n)
    (hidden : List String) : v.inlineByName n hidden .top = some v.erase := by
  induction h generalizing n with
  | number | bool | str | null =>
    obtain ⟨n, rfl⟩ : ∃ k, n = k + 1 := ⟨n - 1, by omega⟩
    rfl
  | @range d p =>
    have hlong : 2 ≤ (Expr.list (.progression p)).source.length := by
      simp only [Expr.source, LazyList.source, Progression.source, String.length_append]
      have : "[".length = 1 ∧ "]".length = 1 := by decide
      omega
    obtain ⟨n, rfl⟩ : ∃ k, n = k + 2 := ⟨n - 2, by omega⟩
    rfl
  | @items d xs cell _ ih =>
    obtain ⟨hcount, hlengths⟩ := length_source_items xs .top cell
    obtain ⟨n, rfl⟩ : ∃ k, n = k + 2 := ⟨n - 2, by omega⟩
    have hmap : xs.mapM (Expr.inlineByName n hidden .top) = some (xs.map Expr.erase) :=
      mapM_eq_some_map fun x hx => ih x hx (by have := hlengths x hx; omega)
    simp [Expr.inlineByName, Expr.mapParts, LazyList.inlineByName, LazyList.mapParts,
      hmap, Expr.erase, LazyList.erase, Env.erase, eraseAll_eq_map]

/-- **Data is written alike in both ways.** -/
theorem agreedText_data {d : Nat} {v : Expr} (h : IsData d v) {n : Nat} (hn : v.source.length < n) :
    v.agreedText? n = some v.source := by
  have hname : v.displayByName? n = some v.source := by
    rw [Expr.displayByName?, inlineByName_data h hn, Option.map_some, Expr.source_erase]
  rw [Expr.agreedText?, hname, display_data h hn, if_pos rfl]

theorem forall₂_eq_and {α : Type} {p : α → Prop} {xs ys : List α}
    (h : List.Forall₂ (fun a b => a = b ∧ p a) xs ys) : xs = ys ∧ ∀ a ∈ xs, p a := by
  induction h with
  | nil => exact ⟨rfl, by simp⟩
  | cons hab _ ih =>
    obtain ⟨rfl, ha⟩ := hab
    obtain ⟨rfl, hrest⟩ := ih
    exact ⟨rfl, by simpa using ⟨ha, hrest⟩⟩

theorem forall₂_and_of {α : Type} {p : α → Prop} {xs : List α} (h : ∀ a ∈ xs, p a) :
    List.Forall₂ (fun a b => a = b ∧ p a) xs xs :=
  List.forall₂_same.2 fun a ha => ⟨rfl, h a ha⟩

/-- Equal things that are scoped. -/
def Likeness.scoped : Likeness Env.lookup Env.byName where
  World := Unit
  le _ _ := True
  le_refl _ := trivial
  le_trans _ _ := trivial
  env _ here here' := here = here' ∧ ScopedEnv here
  code _ here here' e e' := here = here' ∧ e = e' ∧ ScopedEnv here ∧ Scoped here.shape e
  value _ v v' := v = v' ∧ Scoped [] v
  env_mono _ h := h
  code_mono _ h := h
  value_mono _ h := h
  env_top _ := ⟨rfl, .top⟩
  code_top h := ⟨rfl, h.1, .top, h.2⟩
  code_layer := by
    rintro _ here _ e _ ⟨rfl, rfl, henv, he⟩
    have part : ∀ {e : Expr}, Scoped here.shape e →
        here = here ∧ e = e ∧ ScopedEnv here ∧ Scoped here.shape e :=
      fun h => ⟨rfl, rfl, henv, h⟩
    have bound : ∀ {o : Option Expr}, (∀ e ∈ o, Scoped here.shape e) →
        Option.Rel
          (fun e e' => here = here ∧ e = e' ∧ ScopedEnv here ∧ Scoped here.shape e) o o := by
      intro o h
      cases o with
      | none => exact .none
      | some e => exact .some (part (h e rfl))
    cases he with
    | atom h => exact .done (Expr.isDone_of_atom h) (Expr.isDone_of_atom h) ⟨rfl, .atom h⟩
    | function f => exact .function f
    | range hstart hsecond hstop => exact .range (part hstart) (bound hsecond) (bound hstop)
    | call hf ha => exact .call (part hf) (part ha)
    | lambda h => exact .lambda ⟨rfl, .closure henv h⟩
    | argument h =>
      obtain ⟨v, hleft, hright, hv⟩ := find_of_resolves henv h
      exact .bound hleft hright ⟨rfl, hv⟩
    | unary op h => exact .unary op (part h)
    | binary op hl hr => exact .binary op (part hl) (part hr)
    | leftSection op h => exact .leftSection op (part h)
    | rightSection op h => exact .rightSection op (part h)
    | conditional hc hy hn => exact .conditional (part hc) (part hy) (part hn)
    | interpolated h =>
      refine .interpolated (List.forall₂_same.2 fun fragment hmem => ?_)
      cases fragment with
      | text t => exact .text t
      | embedded e => exact .embedded (part (h e hmem))
    | literal cell h =>
      exact .literal cell cell ⟨rfl, henv⟩ (List.forall₂_same.2 fun e he => part (h e he))
    | @captured _ xs own cell hframe hown h =>
      cases own with
      | top => exact (hframe rfl).elim
      | frame =>
        exact .literal cell cell ⟨rfl, hown⟩
          (List.forall₂_same.2 fun e he => ⟨rfl, rfl, hown, h e he⟩)
    | closure henv h => exact .done rfl rfl ⟨rfl, .closure henv h⟩
    | applied ht ha => exact .done rfl rfl ⟨rfl, .applied ht ha⟩
    | progression r => exact .done rfl rfl ⟨rfl, .progression r⟩
    | prepend hh ht => exact .done rfl rfl ⟨rfl, .prepend hh ht⟩
    | concat ha hb => exact .done rfl rfl ⟨rfl, .concat ha hb⟩
    | mapped hf hs => exact .done rfl rfl ⟨rfl, .mapped hf hs⟩
    | filtered hp hs => exact .done rfl rfl ⟨rfl, .filtered hp hs⟩
    | dropped count hs => exact .done rfl rfl ⟨rfl, .dropped count hs⟩
  value_built := by
    rintro _ v v' h
    cases h with
    | atom h => exact ⟨rfl, .atom h⟩
    | function f => exact ⟨rfl, .function f⟩
    | applied ht ha =>
      obtain ⟨rfl, hargs⟩ := forall₂_eq_and ha
      obtain ⟨rfl, ht⟩ := ht
      exact ⟨rfl, .applied ht hargs⟩
    | leftSection op h => exact ⟨h.1 ▸ rfl, .leftSection op h.2⟩
    | rightSection op h => exact ⟨h.1 ▸ rfl, .rightSection op h.2⟩
    | progression r => exact ⟨rfl, .progression r⟩
    | empty => exact ⟨rfl, .literal none (by simp)⟩
    | prepend hh ht => exact ⟨by rw [hh.1, Expr.list.inj ht.1], .prepend hh.2 ht.2⟩
    | concat ha hb => exact ⟨by rw [Expr.list.inj ha.1, Expr.list.inj hb.1], .concat ha.2 hb.2⟩
    | mapped hf hs => exact ⟨by rw [hf.1, Expr.list.inj hs.1], .mapped hf.2 hs.2⟩
    | filtered hp hs => exact ⟨by rw [hp.1, Expr.list.inj hs.1], .filtered hp.2 hs.2⟩
    | dropped count hs => exact ⟨by rw [Expr.list.inj hs.1], .dropped count hs.2⟩
  value_seen := by
    rintro _ v _ ⟨rfl, h⟩
    cases h with
    | atom h => exact .built (.atom h)
    | function f => exact .built (.function f)
    | applied ht ha => exact .built (.applied ⟨rfl, ht⟩ (forall₂_and_of ha))
    | leftSection op h => exact .built (.leftSection op ⟨rfl, h⟩)
    | rightSection op h => exact .built (.rightSection op ⟨rfl, h⟩)
    | progression r => exact .built (.progression r)
    | prepend hh ht => exact .built (.prepend ⟨rfl, hh⟩ ⟨rfl, ht⟩)
    | concat ha hb => exact .built (.concat ⟨rfl, ha⟩ ⟨rfl, hb⟩)
    | mapped hf hs => exact .built (.mapped ⟨rfl, hf⟩ ⟨rfl, hs⟩)
    | filtered hp hs => exact .built (.filtered ⟨rfl, hp⟩ ⟨rfl, hs⟩)
    | dropped count hs => exact .built (.dropped count ⟨rfl, hs⟩)
    | closure henv h =>
      refine .closure rfl fun args args' hargs hlen => ?_
      obtain ⟨rfl, hvalues⟩ := forall₂_eq_and hargs
      exact ⟨rfl, rfl, .frame hlen hvalues henv, h⟩
    | @literal _ xs cell h =>
      cases xs with
      | nil => exact .nil .top .top cell cell
      | cons x xs =>
        refine .cons ⟨rfl, rfl, .top, h x (by simp)⟩
          ⟨rfl, .literal _ fun e he => h e (by simp [he])⟩
    | @captured _ xs env cell hframe henv h =>
      cases xs with
      | nil => exact .nil env env cell cell
      | cons x xs =>
        refine .cons ⟨rfl, rfl, henv, h x (by simp)⟩ ⟨rfl, ?_⟩
        exact .captured _ hframe henv fun e he => h e (by simp [he])
    | _ => exact .inert rfl rfl

/-- Alike faults of scoped values are equal, and none is about an unbound parameter. -/
theorem FaultLike.of_scoped {fault fault' : Fault}
    (h : FaultLike (fun v v' => v = v' ∧ Scoped [] v) fault fault') :
    fault = fault' ∧ ∀ name, fault ≠ .unboundArgument name := by
  cases h with
  | @plain fault h => exact ⟨rfl, fun name hname => by subst hname; cases h⟩
  | typeMismatch _ hl hr => exact ⟨by rw [hl.1, hr.1], fun _ => Fault.noConfusion⟩
  | invalidOperand _ h | notCallable h | invalidCast _ h =>
    exact ⟨by rw [h.1], fun _ => Fault.noConfusion⟩

/-! ## 2. Runs that agree -/

section Runs

variable {σ α β γ δ : Type}

/-- What is kept in cells is scoped. -/
def ScopedCells (cells : Cells) : Prop :=
  ∀ (address : Nat) v, (cells[address]?).join = some v → Scoped [] v

/-- Two runs that end alike, with the same machine, and not at an unbound parameter. -/
inductive Agree (P : α → β → Prop) : Ended σ α → Ended σ β → Prop where
  | ok {a : α} {b : β} {m : Machine σ} (hm : ScopedCells m.cells) (h : P a b) :
    Agree P (.ok a m) (.ok b m)
  | halt {halt : Halt} {m : Machine σ} (hm : ScopedCells m.cells)
    (h : ∀ name, halt ≠ .fault (.unboundArgument name)) : Agree P (.error halt m) (.error halt m)

/-- Evaluations that agree on every machine with scoped cells. -/
def AgreeAll (P : α → β → Prop) (x : Eval σ α) (y : Eval σ β) : Prop :=
  ∀ m, ScopedCells m.cells → Agree P (x m) (y m)

namespace AgreeAll

variable {P : α → β → Prop} {Q : γ → δ → Prop}

theorem pure {a : α} {b : β} (h : P a b) : AgreeAll (σ := σ) P (pure a) (pure b) :=
  fun _ hm => .ok hm h

theorem throw {halt : Halt} (h : ∀ name, halt ≠ .fault (.unboundArgument name)) :
    AgreeAll (σ := σ) P (throw halt) (throw halt) :=
  fun _ hm => .halt hm h

theorem bind {x : Eval σ α} {y : Eval σ β} {f : α → Eval σ γ} {g : β → Eval σ δ}
    (hx : AgreeAll P x y) (hf : ∀ a b, P a b → AgreeAll Q (f a) (g b)) :
    AgreeAll Q (x >>= f) (y >>= g) := by
  intro m hm
  have hxy := hx m hm
  rw [bind_run, bind_run]
  generalize x m = r at hxy ⊢
  generalize y m = r' at hxy ⊢
  cases hxy with
  | ok hm' hab => exact hf _ _ hab _ hm'
  | halt hm' h => exact .halt hm' h

theorem check : AgreeAll (σ := σ) (fun _ _ => True) check check := by
  intro m hm
  unfold Eval.check
  split
  · exact .halt hm fun _ => by rintro ⟨⟩
  · split
    · exact .ok hm trivial
    · exact .halt hm fun _ => by rintro ⟨⟩
    · exact .ok hm trivial

theorem above {x : Eval σ α} {y : Eval σ β} (h : AgreeAll P x y) (depth : Nat) :
    AgreeAll P (above depth x) (above depth y) := by
  intro m hm
  have hxy := h { m with depth := depth + 1 } hm
  rw [above_run, above_run]
  generalize x { m with depth := depth + 1 } = r at hxy ⊢
  generalize y { m with depth := depth + 1 } = r' at hxy ⊢
  cases hxy with
  | ok hm' hab => exact .ok hm' hab
  | halt hm' h => exact .halt hm' h

theorem nested {x : Eval σ α} {y : Eval σ β} (h : AgreeAll P x y) (limit : Option Nat) :
    AgreeAll P (nested limit x) (nested limit y) := by
  intro m hm
  cases limit with
  | none => exact h.above m.depth m hm
  | some l =>
    rw [nested_some, nested_some]
    split
    · exact .halt hm fun _ => by rintro ⟨⟩
    · exact h.above m.depth m hm

theorem newList {xs : List Expr} {env : Env} (h : Scoped [] (.list (.items xs env none))) :
    AgreeAll (σ := σ) (fun v v' => v = v' ∧ Scoped [] v) (newList xs env) (newList xs env) := by
  intro m hm
  rw [newList_eq]
  refine .ok (fun address v hv => hm address v (cell_append hv)) ⟨rfl, ?_⟩
  cases h with
  | literal _ h => exact .literal _ h
  | captured _ hframe henv h => exact .captured _ hframe henv h
  | atom h => cases h

theorem remember (remembers : Bool) (cell : Option Nat) {v : Expr} (hv : Scoped [] v) :
    AgreeAll (σ := σ) (fun v v' => v = v' ∧ Scoped [] v) (remember remembers cell v)
      (remember remembers cell v) := by
  intro m hm
  rw [remember_eq]
  match remembers, cell with
  | false, _ | true, none => exact .ok hm ⟨rfl, hv⟩
  | true, some address =>
    have hfill : ScopedCells (fillCell address v m.cells) := by
      intro at' u hu
      rcases cell_fillCell hu with hu | ⟨-, rfl⟩
      · exact hm at' u hu
      · exact hv
    refine .ok hfill ⟨rfl, ?_⟩
    show Scoped [] ((((fillCell address v m.cells)[address]?).join).getD v)
    cases hu : ((fillCell address v m.cells)[address]?).join with
    | none => exact hv
    | some u => exact hfill address u hu

theorem force (S S' : Setting σ) (hS : S.remembers = S'.remembers) (cell : Option Nat)
    {x y : Eval σ Expr} (h : AgreeAll (fun v v' => v = v' ∧ Scoped [] v) x y) :
    AgreeAll (fun v v' => v = v' ∧ Scoped [] v) (force S cell x) (force S' cell y) := by
  unfold Eval.force
  rw [← hS]
  refine bind (P := fun o o' => o = o' ∧ ∀ v, o = some v → Scoped [] v) ?_ ?_
  · intro m hm
    refine .ok hm ⟨rfl, fun v hv => ?_⟩
    split at hv
    · obtain ⟨address, -, hv⟩ := Option.bind_eq_some_iff.mp hv
      exact hm address v hv
    · cases hv
  rintro seen _ ⟨rfl, hseen⟩
  cases seen with
  | some v => exact pure ⟨rfl, hseen v rfl⟩
  | none =>
    refine h.bind ?_
    rintro v _ ⟨rfl, hv⟩
    exact remember S.remembers cell hv

theorem fueled (o : Option α) : AgreeAll (σ := σ) (· = ·) (fueled o) (fueled o) := by
  cases o with
  | some a => exact pure rfl
  | none => exact throw fun _ => by rintro ⟨⟩

end AgreeAll

end Runs

/-! ## 3. The comparison -/

/-- The evaluator beside the one that finds arguments by name, with one way to write values. -/
def Bond.byName (write : (fuel : Nat) → Expr → Option String) : Bond Unit Unit where
  left := { Setting.standard with write }
  right := { Setting.standard with find := Env.byName, write }
  like := .scoped
  Ample n g := ∀ i, g i = n
  Follows _ P x y := AgreeAll (P ()) x (y 0)
  ample_succ := Bond.ample_const
  follows_pure h := .pure h
  follows_bind hx hf := hx.bind fun a b hab => hf () a b trivial hab
  follows_fail h := by
    obtain ⟨rfl, hname⟩ := FaultLike.of_scoped h
    exact .throw fun name => by rintro ⟨⟩; exact hname name rfl
  follows_stray h hleft _ _ := by
    obtain ⟨rfl, hslot, henv, hscoped⟩ := h
    cases hscoped with
    | argument h =>
      obtain ⟨v, hv, -⟩ := find_of_resolves henv h
      exact nomatch hleft.symm.trans hv
    | atom h => cases h
  follows_zero hample h := by
    rw [h 0 (hample 0)]
    exact .throw fun _ => by rintro ⟨⟩
  follows_check := .check
  follows_nested h := h.nested _
  follows_newList := by
    rintro w env _ xs xs' ⟨rfl, henv⟩ h
    obtain ⟨rfl, hxs⟩ := forall₂_eq_and (h.imp fun _ _ hx => ⟨hx.2.1, hx.2.2.2⟩)
    refine AgreeAll.newList ?_
    cases env with
    | top => exact .literal none hxs
    | frame => exact .captured none Env.noConfusion henv hxs
  follows_force := by
    rintro w n g x x' xs xs' env env' cell cell' hample ⟨hl, -⟩ hx
    cases hl
    exact AgreeAll.force _ _ rfl cell hx
  follows_display := by
    rintro w n g v _ hample ⟨rfl, -⟩
    obtain rfl : g = fun _ => n := funext hample
    exact AgreeAll.fueled (write n v)
  follows_perform := by
    rintro w n g args args' entry hample h
    obtain rfl : g = fun _ => n := funext hample
    cases n with
    | zero => exact AgreeAll.throw fun _ => by rintro ⟨⟩
    | succ n => exact AgreeAll.pure ⟨rfl, .atom rfl⟩

theorem Agree.eq {σ α : Type} {P : α → α → Prop} (hP : ∀ a b, P a b → a = b) {r r' : Ended σ α}
    (h : Agree P r r') :
    r = r' ∧ ∀ name m, r ≠ .error (.fault (.unboundArgument name)) m := by
  cases h with
  | ok hm hab => exact ⟨by rw [hP _ _ hab], fun _ _ => nofun⟩
  | halt hm h =>
    refine ⟨rfl, fun name m' heq => h name ?_⟩
    cases heq
    rfl

/-- With one way to write values, arguments are found alike by position and by name. -/
theorem found_byName {scope : Scope} (hscope : scope.Defined) {source : String} {e : Expr}
    (he : parseIn scope source = .ok e) (fuel : Nat) (write : (fuel : Nat) → Expr → Option String) :
    let position : Setting Unit := { Setting.standard with write }
    let name : Setting Unit := { Setting.byName with write }
    (∀ parameter m, materializeValue position fuel .top e (Machine.fresh ()) ≠
        .error (.fault (.unboundArgument parameter)) m) ∧
      materializeValue position fuel .top e (Machine.fresh ()) =
        materializeValue name fuel .top e (Machine.fresh ()) ∧
      renderValue position fuel .top e (Machine.fresh ()) =
        renderValue name fuel .top e (Machine.fresh ()) := by
  have hcode : Likeness.scoped.code () .top .top e e :=
    ⟨rfl, rfl, .top, scoped_of_parseIn hscope he⟩
  have hcells : ScopedCells (Machine.fresh ()).cells := fun address v hv => by
    simp [Machine.fresh] at hv
  have hdata := (Bond.byName write).follows_materializeValue (n := fuel) (g := fun _ => fuel)
    (fun _ => rfl) hcode
  have htext := (Bond.byName write).follows_renderValue (n := fuel) (g := fun _ => fuel)
    (fun _ => rfl) hcode
  obtain ⟨hsame, hbound⟩ := Agree.eq (fun _ _ h => h.1) (hdata _ hcells)
  exact ⟨hbound, hsame, (Agree.eq (fun _ _ h => h) (htext _ hcells)).1⟩

/-- **Slots mean what their names mean.** In a scope of built-in functions and definitions, an
expression that was read evaluates to the same data, and is written as the same text, or fails in
the same way, whether arguments are found by depth and position or by name, and no parameter is
found unbound: with one way to write values, whichever it is.  Where these are written with their
arguments found in the two ways, all stays the same as far as both give the same text for what is
written. -/
theorem eval_byName {scope : Scope} (hscope : scope.Defined) {source : String} {e : Expr}
    (he : parseIn scope source = .ok e) (fuel : Nat) :
    (∀ write : (fuel : Nat) → Expr → Option String,
      let position : Setting Unit := { Setting.standard with write }
      let name : Setting Unit := { Setting.byName with write }
      (∀ parameter m, materializeValue position fuel .top e (Machine.fresh ()) ≠
          .error (.fault (.unboundArgument parameter)) m) ∧
        materializeValue position fuel .top e (Machine.fresh ()) =
          materializeValue name fuel .top e (Machine.fresh ()) ∧
        renderValue position fuel .top e (Machine.fresh ()) =
          renderValue name fuel .top e (Machine.fresh ())) ∧
    ((∀ m, materializeValue .agreed fuel .top e (Machine.fresh ()) ≠ .error .outOfFuel m) →
      materializeValue .standard fuel .top e (Machine.fresh ()) =
        materializeValue .byName fuel .top e (Machine.fresh ())) ∧
    ((∀ m, renderValue .agreed fuel .top e (Machine.fresh ()) ≠ .error .outOfFuel m) →
      renderValue .standard fuel .top e (Machine.fresh ()) =
        renderValue .byName fuel .top e (Machine.fresh ())) := by
  have hfind : ∀ write, _ := fun write => found_byName hscope he fuel write
  have habsent : Setting.standard.host.Independent := fun _ _ => .give .null
  have hposition : ∀ n v, Below (Setting.agreed.write n v) (v.display? n) :=
    fun n v => (agreedText_below n v).1
  have hname : ∀ n v, Below (Setting.agreed.write n v) (v.displayByName? n) :=
    fun n v => (agreedText_below n v).2
  -- what is agreed on is evaluated alike, and each of the two evaluators writes it
  let agreedByName : Setting Unit := { Setting.byName with write := Expr.agreedText? }
  obtain ⟨-, hdata, htext⟩ := hfind Expr.agreedText?
  refine ⟨hfind, fun hends => ?_, fun hends => ?_⟩
  · have hleft := materializeValue_writing .agreed habsent hposition _ hends
    have hright := materializeValue_writing agreedByName habsent hname _ (hdata ▸ hends)
    exact hleft.trans (hdata.trans hright.symm)
  · have hleft := renderValue_writing .agreed habsent hposition _ hends
    have hright := renderValue_writing agreedByName habsent hname _ (htext ▸ hends)
    exact hleft.trans (htext.trans hright.symm)

/-- The identity under the name of a definition, and a use of it. -/
theorem eval_byName_identity :
    let identity : Expr := .lambda 1 ["x"] (.argument ⟨1, 0, "x"⟩)
    let scope := Scope.standard.define "id" identity
    let use : Expr := .call identity (.bool true)
    scope.Defined ∧ parseIn scope "id true" = .ok use ∧
      (∀ m, renderValue .agreed 9 .top use (Machine.fresh ()) ≠ .error .outOfFuel m) ∧
      (∀ parameter m, materializeValue .standard 9 .top use (Machine.fresh ()) ≠
        .error (.fault (.unboundArgument parameter)) m) ∧
      materializeValue .standard 9 .top use (Machine.fresh ()) =
        materializeValue .byName 9 .top use (Machine.fresh ()) ∧
      renderValue .standard 9 .top use (Machine.fresh ()) =
        renderValue .byName 9 .top use (Machine.fresh ()) := by
  intro identity scope use
  have hlexes : Lexes "\\x -> x".toList
      [.backslash, .identifier "x", .arrow, .identifier "x"] :=
    .token rfl (.token rfl (.pass rfl (.inl rfl)
      (.token rfl (.pass rfl (.inl rfl) (.token rfl .nil)))))
  have hbody : Reads 0 1 (Scope.standard.inside ["x"]) (.expression Precedence.lowest)
      [.identifier "x"] [.argument ⟨1, 0, "x"⟩] [] := .expression (.name rfl) (.stop trivial)
  have hlambda : Reads 0 1 .standard .value
      [.backslash, .identifier "x", .arrow, .identifier "x"] [identity] [] :=
    .lambda (by simp) hbody
  have hidentity : parseIn .standard "\\x -> x" = .ok identity :=
    parseIn_eq_ok hlexes (.expression hlambda (.stop trivial)) (by decide) (by decide)
  have hdefined : scope.Defined := .define "id" .standard hidentity
  have hlexes' : Lexes "id true".toList [.identifier "id", .bool true] :=
    .token rfl (.pass rfl (.inl rfl) (.token rfl .nil))
  have hreads : Reads 0 1 scope (.expression Precedence.lowest) [.identifier "id", .bool true]
      [use] [] :=
    .expression (.name rfl) (.juxtapose (by simp) (.literal rfl) (.stop trivial))
  have huse : parseIn scope "id true" = .ok use :=
    parseIn_eq_ok hlexes' hreads (by decide) (by decide)
  have hdata : ∀ m, materializeValue .agreed 9 .top use (Machine.fresh ()) ≠ .error .outOfFuel m :=
    nofun
  have htext : ∀ m, renderValue .agreed 9 .top use (Machine.fresh ()) ≠ .error .outOfFuel m := nofun
  obtain ⟨hfound, hsame, hwritten⟩ := eval_byName hdefined huse 9
  exact ⟨hdefined, huse, htext, (hfound Expr.display?).1, hsame hdata, hwritten htext⟩

/-- A function that has captured a list literal is written, and the parameter of a lambda in the
list is written as the other argument that was captured. -/
theorem own_parameter_captured :
    ∃ e, parse "join \"\" [(\\x y -> \\z -> head y z) 5 [\\a -> a]]" = .ok e ∧
      Eval.result (materializeValue .standard 40 .top e) (Machine.fresh ()) =
        .ok (.str "\\z -> head [\\a -> 5] z") ∧
      Eval.result (materializeValue .byName 40 .top e) (Machine.fresh ()) =
        .ok (.str "\\z -> head [\\a -> a] z") := by
  refine ⟨_, by cbv, by cbv, by cbv⟩

end LazyExpr
