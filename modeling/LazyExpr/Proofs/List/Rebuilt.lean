import LazyExpr.Proofs.List.Elements
import LazyExpr.Proofs.List.Replay
import LazyExpr.Proofs.List.Taken

/-!
# Materialized values

Materializing a value replaces each finite list in it, as far as elements reach, by the list of its
elements.  In such a list the elements stand as expressions, so they are evaluated once more when
the list is traversed.  That gives them back, so materializing a second time makes the same lists
again, with other cells; unless an element has so many sections around it that it cannot be
evaluated.

* `Materialized` — all lists that are reached through elements are infinite, or lists of values.
* `materialize_materialized` — **what materializing gives is materialized.**
* `Materialized.rebuildable` — **a materialized value is materialized to itself**, up to cells, or
  ends at the limit, and this exactly if one of its elements is too deep.
-/

namespace LazyExpr

open Eval

/-! ## 1. Values made of values -/

section Forms

/-- All lists that are reached through elements of lists are infinite, or lists of values. -/
inductive Materialized (arities : Nat → Nat) : Expr → Prop where
  | other {v : Expr} (h : ∀ l, v ≠ .list l) : Materialized arities v
  | infinite {l : LazyList} (h : l.isInfinite = true) : Materialized arities (.list l)
  | items {elements : List Expr} (cell : Option Nat) (hvalues : ∀ u ∈ elements, Canonical arities u)
    (h : ∀ u ∈ elements, Materialized arities u) :
    Materialized arities (.list (.items elements .top cell))

/-- A value that is reached through elements of lists. -/
inductive Inside (x : Expr) : Expr → Prop where
  | element {elements : List Expr} {env : Env} {cell : Option Nat} (h : x ∈ elements) :
    Inside x (.list (.items elements env cell))
  | deeper {y : Expr} {elements : List Expr} {env : Env} {cell : Option Nat} (h : y ∈ elements)
    (hx : Inside x y) : Inside x (.list (.items elements env cell))

/-- An element has as many sections around it as evaluations may be nested. -/
def Overdeep (v : Expr) : Prop := ∃ x, Inside x v ∧ maxDepth ≤ x.sections

theorem overdeep_items {elements : List Expr} {env : Env} {cell : Option Nat} :
    Overdeep (.list (.items elements env cell)) ↔
      ∃ x ∈ elements, maxDepth ≤ x.sections ∨ Overdeep x := by
  constructor
  · rintro ⟨x, hinside, hdeep⟩
    cases hinside with
    | element h => exact ⟨x, h, .inl hdeep⟩
    | @deeper y _ _ _ h hx => exact ⟨y, h, .inr ⟨x, hx, hdeep⟩⟩
  · rintro ⟨y, h, hdeep | ⟨x, hx, hdeep⟩⟩
    · exact ⟨y, .element h, hdeep⟩
    · exact ⟨x, .deeper h hx, hdeep⟩

theorem not_overdeep {v : Expr} (h : ∀ xs env cell, v ≠ .list (.items xs env cell)) :
    ¬Overdeep v := by
  rintro ⟨x, hinside, -⟩
  cases hinside with
  | element | deeper => exact h _ _ _ rfl

/-- The value of a value is alike to it. -/
theorem Expr.again_alike (size : Nat) (x : Expr) : (x.again size).Alike x := by
  fun_induction Expr.again size x with
  | case1 xs env cell =>
    exact congrArg Expr.list (items_alike (List.forall₂_same.mpr fun _ _ => rfl) rfl _ _)
  | case2 op v ih => exact congrArg (Expr.leftSection op) ih
  | case3 op v ih => exact congrArg (Expr.rightSection op) ih
  | case4 => rfl

end Forms

/-! ## 2. What materializing gives -/

section Materialize

variable {σ : Type} {arities : Nat → Nat} {S : Setting σ}

/-- What is known of all values that a run gives holds beside the regime. -/
theorem Regime.Holds.and {R : Regime σ} {w : R.World} {α : Type}
    {P : R.World → α → Prop} {Q : α → Prop}
    {x : Eval (σ × List Event) α} {y : Eval σ α} (h : R.Holds w P x y)
    (hQ : ∀ m a m', x m = .ok a m' → Q a) : R.Holds w (fun w a => P w a ∧ Q a) x y := by
  intro m hm
  obtain ⟨hsame, w', hle, hfits, hkept, hP⟩ := h m hm
  exact ⟨hsame, w', hle, hfits, hkept, fun a m' hrun => ⟨hP a m' hrun, hQ m a m' hrun⟩⟩

theorem holds_materialized (h : (Regime.canonical arities fun _ => True).Laws S)
    (n : Nat) {v : Expr} (hv : Canonical arities v) :
    (Regime.canonical arities fun _ => True).Holds ()
      (fun _ u => Canonical arities u ∧ Materialized arities u) ((Engine.watched S n).materialize v)
      (materialize S n v) := by
  induction n generalizing v with
  | zero => exact .outOfFuel
  | succ n ih =>
    rw [Engine.materialize_next]
    show Regime.Holds _ _ _ ((Engine.watched S n).materializeNext (.log σ) n v) _
    cases v with
    | list l =>
      simp only [Engine.materializeNext]
      split
      · next hinfinite => exact .pure ⟨hv, .infinite hinfinite⟩
      · refine (Regime.holds_foldItems h (h.sound n) (w := ()) (P := fun _ vs => ∀ v ∈ vs,
          Canonical arities v ∧ Materialized arities v) (fun _ h => h) ?_ n (by simp) hv).bind ?_
        · rintro ⟨⟩ vs x hvs hx
          refine (ih hx).bind fun _ u _ hu => .pure fun v hv => ?_
          rcases List.mem_cons.mp hv with rfl | hv
          · exact hu
          · exact hvs v hv
        · rintro ⟨⟩ vs - hvs
          have hall : ∀ v ∈ vs.reverse, Canonical arities v ∧ Materialized arities v := fun v hv =>
            hvs v (List.mem_reverse.mp hv)
          refine (Regime.holds_makeList_top h (w := ()) fun v hv => (hall v hv).1).and ?_
          rintro m _ m' ⟨⟩
          exact .items _ (fun v hv => (hall v hv).1) fun v hv => (hall v hv).2
    | _ =>
      refine .pure ⟨hv, .other ?_⟩
      rintro _ ⟨⟩

/-- **What materializing gives is materialized.** -/
theorem materialize_materialized (h : (Regime.canonical arities fun _ => True).Laws S) {n : Nat}
    {v u : Expr} {m m' : Machine σ} (hv : Canonical arities v) (hm : CanonicalCells arities m)
    (hrun : materialize S n v m = .ok u m') : Canonical arities u ∧ Materialized arities u :=
  ((holds_materialized h n hv).canonical hm).2 u m' hrun

/-- So many cells in a row are there and empty. -/
def Machine.Vacant (m : Machine σ) (a count : Nat) : Prop :=
  ∀ i < count, a + i < m.cells.size ∧ m.cell? (a + i) = none

/-- New cells are empty. -/
theorem Machine.vacant_withCells (m : Machine σ) (count : Nat) :
    (m.withCells count).Vacant m.cells.size count := by
  intro i hi
  refine ⟨?_, ?_⟩
  · rw [withCells, Array.size_append, Array.size_replicate]
    exact Nat.add_lt_add_left hi _
  · refine (cell?_append _ _).trans ?_
    rw [cell?, Array.getElem?_eq_none (Nat.le_add_right _ i)]
    rfl

/-- What is neither a finite list nor anything else that changes is materialized at once. -/
theorem materialize_at_once {v : Expr} (h : ∀ l, v = .list l → l.isInfinite = true) (n : Nat) :
    materialize S (n + 1) v = pure v := by
  cases v with
  | list l => simp [materialize, h l rfl]
  | _ => rfl

/-- Materializes an element and keeps it in front of those before it. -/
def Eval.collect (S : Setting σ) (n : Nat) (elements : List Expr) (x : Expr) :
    Eval σ (List Expr) := do
  pure ((← materialize S n x) :: elements)

theorem materialize_finite {l : LazyList} (h : l.isInfinite = false) (n : Nat) :
    materialize S (n + 1) (.list l) = foldItems (advance S n) (collect S n) n [] l >>=
      fun elements => newList elements.reverse .top := by
  simp only [materialize, h, Bool.false_eq_true, if_false]
  rfl

/-- The cells of a list that was just made are empty. -/
theorem materialize_vacant {n : Nat} {v : Expr} {xs : List Expr} {env : Env} {cell : Option Nat}
    {m m' : Machine σ} (hrun : materialize S n v m = .ok (.list (.items xs env cell)) m') :
    ∃ a, cell = some a ∧ m'.Vacant a xs.length := by
  cases n with
  | zero => cases hrun
  | succ n =>
    by_cases honce : ∀ l, v = .list l → l.isInfinite = true
    · rw [materialize_at_once honce] at hrun
      cases hrun
      cases honce _ rfl
    · push Not at honce
      obtain ⟨l, rfl, hfinite⟩ := honce
      rw [materialize_finite (Bool.eq_false_of_not_eq_true hfinite), bind_run] at hrun
      generalize foldItems (advance S n) (collect S n) n [] l m = r at hrun
      rcases r with ⟨vs, m₁⟩ | ⟨halt, m₁⟩
      · cases hrun
        exact ⟨_, rfl, m₁.vacant_withCells vs.reverse.length⟩
      · cases hrun

end Materialize

/-! ## 3. Materializing once more -/

section Rebuilt

variable {σ α : Type} {host : Host σ} {arities : Nat → Nat}

/-- The cells before some address are as they were, and so are the deadline and the depth. -/
structure Machine.KeepsBelow (a : Nat) (m m' : Machine σ) : Prop where
  plain : m'.Plain
  depth : m'.depth = m.depth
  size : m.cells.size ≤ m'.cells.size
  same : ∀ b < a, m'.cell? b = m.cell? b

namespace Machine.KeepsBelow

variable {a a' : Nat} {m m₁ m₂ : Machine σ}

theorem refl (hm : m.Plain) : KeepsBelow a m m := ⟨hm, rfl, Nat.le_refl _, fun _ _ => rfl⟩

theorem trans (hle : a ≤ a') (h : KeepsBelow a m m₁) (h' : KeepsBelow a' m₁ m₂) :
    KeepsBelow a m m₂ where
  plain := h'.plain
  depth := h'.depth.trans h.depth
  size := h.size.trans h'.size
  same b hb := (h'.same b (Nat.lt_of_lt_of_le hb hle)).trans (h.same b hb)

theorem withCells (hm : m.Plain) (count : Nat) : KeepsBelow a m (m.withCells count) where
  plain := hm
  depth := rfl
  size := by
    rw [Machine.withCells, Array.size_append]
    exact Nat.le_add_right _ _
  same b _ := cell?_append count b

theorem fill (hm : m.Plain) (v : Expr) : KeepsBelow a m (m.fill a v) where
  plain := by
    rw [fill_eq]
    exact hm
  depth := by rw [fill_eq]
  size := Nat.le_of_eq (size_fill a v).symm
  same b hb := cell?_fill_of_ne m (Nat.ne_of_lt hb) v

/-- Cells before the address that were empty are so still. -/
theorem vacant (h : KeepsBelow a m m₁) {b count : Nat} (hb : b + count ≤ a)
    (hm : m.Vacant b count) :
    m₁.Vacant b count := by
  intro i hi
  obtain ⟨hlt, hnone⟩ := hm i hi
  exact ⟨Nat.lt_of_lt_of_le hlt h.size, (h.same _ (by omega)).trans hnone⟩

end Machine.KeepsBelow

/-- A run gives what it is to give, unless something is too deep; then it ends at the limit. -/
inductive Rebuilds (a : Nat) (m : Machine σ) (deep : Prop) (P : α → Prop) : Ended σ α → Prop where
  | ok {u : α} {m' : Machine σ} (hm' : m.KeepsBelow a m') (hflat : ¬deep) (h : P u) :
    Rebuilds a m deep P (.ok u m')
  | limited (m' : Machine σ) (hdeep : deep) :
    Rebuilds a m deep P (.error (.fault (.recursionLimit maxDepth)) m')

/-- A value whose value can be materialized at any place, as long as its cells are empty. -/
def Rebuildable (host : Host σ) (x : Expr) : Prop :=
  ∀ a (m : Machine σ), m.Plain → m.depth = 0 → m.Vacant a x.newCells →
    EndIn (fun j => materialize { host } j (x.again a) m)
      (Rebuilds a m (Overdeep x) fun u => u.Alike x)

theorem EndIn.of_eventually {y z : Nat → Ended σ α} {Q : Ended σ α → Prop} (h : EndIn z Q) (k : Nat)
    (hyz : ∀ i, k ≤ i → y i = z i) : EndIn y Q := by
  obtain ⟨r, hr, k', hk'⟩ := h
  refine ⟨r, hr, max k k', fun i hi => ?_⟩
  rw [hyz i (Nat.le_trans (Nat.le_max_left k k') hi)]
  exact hk' i (Nat.le_trans (Nat.le_max_right k k') hi)

/-- At the limit nothing is evaluated. -/
theorem eval_at_limit {m : Machine σ} (hm : m.Plain) (hdepth : maxDepth ≤ m.depth)
    (n : Nat) (env : Env) (e : Expr) :
    Eval.eval { host } (n + 1) env e m = .error (.fault (.recursionLimit maxDepth)) m := by
  rw [Engine.eval_next]
  simp only [Engine.next, Watch.during_blind, bind_run, check_plain hm, Ended.andThen, nested_some]
  rw [if_pos hdepth]

/-- An expression fails with a part of it. -/
theorem eval_wrapped_halt {m : Machine σ} (hm : m.Plain) (hdepth : m.depth < maxDepth) {k : Nat}
    {e v : Expr} {f : Expr → Expr} {halt : Halt}
    (he : (Engine.actual { host } k).evalInside { host } (.blind σ) .top e =
      Eval.eval { host } k .top v >>= fun u => pure (f u))
    (hv : Eval.eval { host } k .top v { m with depth := m.depth + 1 } =
      .error halt { m with depth := m.depth + 1 }) :
    Eval.eval { host } (k + 1) .top e m = .error halt m := by
  rw [eval_plain hm hdepth, he, bind_run, hv]
  rfl

/-- **A value with as many sections around it as evaluations may still be nested cannot be
evaluated.** -/
theorem eval_again_limited {x : Expr} {n : Nat} (hn : x.sections < n) {m : Machine σ} (hm : m.Plain)
    (hdeep : maxDepth ≤ m.depth + x.sections) :
    Eval.eval { host } n .top x m = .error (.fault (.recursionLimit maxDepth)) m := by
  -- the induction is on the sections around the value, as for those that can be evaluated
  induction n generalizing x m with
  | zero => cases hn
  | succ n ih =>
    by_cases hdepth : maxDepth ≤ m.depth
    · exact eval_at_limit hm hdepth n .top x
    · have hsections : 0 < x.sections := by omega
      cases x with
      | leftSection op v | rightSection op v =>
        simp only [Expr.sections] at hn hdeep
        have hinner : maxDepth ≤ m.depth + 1 + v.sections := by omega
        exact eval_wrapped_halt hm (Nat.lt_of_not_le hdepth) rfl (ih (by omega) hm hinner)
      | _ => cases hsections

/-- A loop that goes on with the next element. -/
theorem foldItems_cons {β : Type} {advance : LazyList → Eval σ Step}
    {f : β → Expr → Eval σ β} {acc : β}
    {l rest : LazyList} {x : Expr} {m m₁ : Machine σ} (hm : m.Plain)
    (hstep : advance l m = .ok ⟨.ok (some x), rest⟩ m₁) (k : Nat) :
    foldItems advance f (k + 1) acc l m =
      Ended.andThen (f acc x m₁) fun acc => foldItems advance f k acc rest := by
  simp only [foldItems, bind_run, check_plain hm, Ended.andThen, hstep]

/-- A loop that ends with a fault of an element. -/
theorem foldItems_failed {β : Type} {advance : LazyList → Eval σ Step}
    {f : β → Expr → Eval σ β} {acc : β}
    {l rest : LazyList} {fault : Fault} {m m₁ : Machine σ} (hm : m.Plain)
    (hstep : advance l m = .ok ⟨.error fault, rest⟩ m₁) (k : Nat) :
    foldItems advance f (k + 1) acc l m = .error (.fault fault) m₁ := by
  simp only [foldItems, bind_run, check_plain hm, Ended.andThen, hstep]
  rfl

theorem collect_run (S : Setting σ) (n : Nat) (acc : List Expr) (x : Expr) (m : Machine σ) :
    collect S n acc x m = Ended.andThen (materialize S n x m) fun u => pure (u :: acc) :=
  bind_run (materialize S n x) _ m

/-- Elements of a list of values, as they are taken one after another: they are values again. -/
theorem rebuilds_elements {us : List Expr}
    (hus : ∀ x ∈ us, Canonical arities x ∧ Rebuildable host x)
    (acc : List Expr) (t : Nat) {a : Nat} {m : Machine σ} (hm : m.Plain) (hdepth : m.depth = 0)
    (hvacant : m.Vacant a us.length) :
    EndIn (fun j => foldItems (advance { host } j) (collect { host } j) (j - t) acc
        (.items us .top (some a)) m)
      (Rebuilds a m (∃ x ∈ us, maxDepth ≤ x.sections ∨ Overdeep x) fun all =>
        ∃ us', List.Forall₂ Expr.Alike us' us ∧ all = us'.reverse ++ acc) := by
  induction us generalizing acc a t m with
  | nil =>
    refine EndIn.of_eventually (.const (r := .ok acc m) ?_) (t + 1) fun j hj => ?_
    · exact .ok (.refl hm) (by simp) ⟨[], .nil, rfl⟩
    · obtain ⟨k, rfl⟩ := Nat.exists_eq_add_of_le hj
      rw [show t + 1 + k - t = k + 1 by omega, show t + 1 + k = t + k + 1 by omega]
      simp only [foldItems, bind_run, check_plain hm, Ended.andThen]
      rfl
  | cons x us ih =>
    obtain ⟨⟨hx, hrebuild⟩, hus⟩ := List.forall_mem_cons.mp hus
    obtain ⟨ha, hnone⟩ := hvacant 0 (Nat.succ_pos _)
    by_cases hdeep : maxDepth ≤ x.sections
    · -- the element cannot be evaluated
      refine EndIn.of_eventually (.const (.limited m ⟨x, List.mem_cons_self, .inl hdeep⟩))
        (t + x.sections + 2) fun j hj => ?_
      obtain ⟨k, rfl⟩ := Nat.exists_eq_add_of_le hj
      have hlimited : eval { host } (t + x.sections + 1 + k) .top x m = _ :=
        eval_again_limited (by omega) hm (by omega)
      have hstep : advance { host } (t + x.sections + 1 + k + 1)
        (.items (x :: us) .top (some a)) m = _ :=
        advance_failed hnone hlimited
      rw [show t + x.sections + 2 + k - t = x.sections + 1 + k + 1 by omega,
        show t + x.sections + 2 + k = t + x.sections + 1 + k + 1 by omega]
      exact foldItems_failed hm hstep _
    · -- the element is evaluated to itself, with new cells, and then materialized
      let m₁ := (m.withCells x.newCells).fill a (x.again m.cells.size)
      have hsame : ∀ b, b ≠ a → m₁.cell? b = m.cell? b := fun b hb =>
        (Machine.cell?_fill_of_ne _ hb _).trans (Machine.cell?_append _ b)
      have hcells : m.KeepsBelow a (m.withCells x.newCells) := .withCells hm _
      have hkeeps : m.KeepsBelow a m₁ := hcells.trans (Nat.le_refl a) (.fill hcells.plain _)
      have hstep : ∀ k, x.sections < k →
        advance { host } (k + 1) (.items (x :: us) .top (some a)) m =
          .ok ⟨.ok (some (x.again m.cells.size)), .items us .top (some (a + 1))⟩ m₁ := fun k hk =>
        advance_produced hnone (eval_again hx hk hm (by omega))
          ((Machine.cell?_append _ a).trans hnone)
          (Nat.lt_of_lt_of_le ha hcells.size)
      have hvacant₁ : m₁.Vacant m.cells.size x.newCells := by
        intro i hi
        obtain ⟨hlt, hempty⟩ := m.vacant_withCells x.newCells i hi
        refine ⟨?_, (Machine.cell?_fill_of_ne _ (by omega) _).trans hempty⟩
        rwa [Machine.size_fill]
      have hends := hrebuild m.cells.size m₁ hkeeps.plain (hkeeps.depth.trans hdepth) hvacant₁
      refine EndIn.of_eventually (hends.through (fun j r => r.andThen fun u =>
        foldItems (advance { host } j) (collect { host } j) (j - (t + 1)) (u :: acc)
          (.items us .top (some (a + 1)))) fun r hr => ?_) (t + x.sections + 2) fun j hj => ?_
      · cases hr with
        | limited m' hdeeper => exact .const (.limited m' ⟨x, List.mem_cons_self, .inr hdeeper⟩)
        | @ok u m₂ hm₂ hflat hu =>
          have hdepth₂ : m₂.depth = 0 := hm₂.depth.trans (hkeeps.depth.trans hdepth)
          have hvacant₂ : m₂.Vacant (a + 1) us.length := by
            intro i hi
            obtain ⟨hlt, hempty⟩ := hvacant (i + 1) (Nat.succ_lt_succ hi)
            rw [show a + 1 + i = a + (i + 1) by omega]
            refine ⟨Nat.lt_of_lt_of_le hlt (Nat.le_trans hkeeps.size hm₂.size), ?_⟩
            exact (hm₂.same _ hlt).trans ((hsame _ (by omega)).trans hempty)
          refine (ih hus (u :: acc) (t + 1) hm₂.plain hdepth₂ hvacant₂).imp fun r hr => ?_
          cases hr with
          | limited m' hdeeper =>
            obtain ⟨y, hy, hdeeper⟩ := hdeeper
            exact .limited m' ⟨y, List.mem_cons_of_mem x hy, hdeeper⟩
          | ok hm₃ hflats h =>
            obtain ⟨us', hus', rfl⟩ := h
            refine .ok ((hkeeps.trans (Nat.le_of_lt ha) hm₂).trans (Nat.le_succ a) hm₃) ?_
              ⟨u :: us', .cons hu hus', by simp⟩
            rintro ⟨y, hy, hdeeper⟩
            rcases List.mem_cons.mp hy with rfl | hy
            · exact hdeeper.elim hdeep hflat
            · exact hflats ⟨y, hy, hdeeper⟩
      · obtain ⟨k, rfl⟩ := Nat.exists_eq_add_of_le hj
        rw [show t + x.sections + 2 + k - t = x.sections + k + 1 + 1 by omega,
          show t + x.sections + 2 + k - (t + 1) = x.sections + k + 1 by omega,
          show t + x.sections + 2 + k = t + x.sections + 1 + k + 1 by omega,
          foldItems_cons hm (hstep _ (by omega)), collect_run]
        cases materialize { host } (t + x.sections + 1 + k + 1) (x.again m.cells.size) m₁ <;> rfl

/-- What is materialized at once stays as it is. -/
theorem rebuilds_at_once {x v : Expr} (honce : ∀ l, v = .list l → l.isInfinite = true)
    (hv : v.Alike x) (hflat : ¬Overdeep x) (a : Nat) {m : Machine σ} (hm : m.Plain) :
    EndIn (fun j => materialize { host } j v m) (Rebuilds a m (Overdeep x) fun u => u.Alike x) := by
  refine EndIn.of_eventually (.const (.ok (.refl hm) hflat hv)) 1 fun j hj => ?_
  obtain ⟨k, rfl⟩ := Nat.exists_eq_add_of_le' hj
  rw [materialize_at_once honce]
  rfl

theorem not_overdeep_other {v : Expr} (h : ∀ l, v ≠ .list l) : ¬Overdeep v :=
  not_overdeep fun _ _ _ => h _

theorem not_overdeep_infinite {l : LazyList} (h : l.isInfinite = true) : ¬Overdeep (.list l) := by
  refine not_overdeep fun xs env cell hl => ?_
  cases hl
  cases h

/-- **A materialized value is materialized to itself**, up to cells, or ends at the limit. -/
theorem Materialized.rebuildable {x : Expr} (h : Materialized arities x) : Rebuildable host x := by
  induction h with
  | @other x h =>
    intro a m hm _ _
    refine rebuilds_at_once (fun l hl => ?_) (x.again_alike a) (not_overdeep_other h) a hm
    cases x with
    | list l => exact absurd rfl (h l)
    | _ => cases hl
  | @infinite l h =>
    intro a m hm _ _
    refine rebuilds_at_once (fun l' hl => ?_) (Expr.again_alike a _) (not_overdeep_infinite h) a hm
    cases l with
    | items => cases h
    | _ => exact (Expr.list.inj hl) ▸ h
  | @items us cell hvalues _ ih =>
    intro a m hm hdepth hvacant
    have hus : ∀ x ∈ us, Canonical arities x ∧ Rebuildable host x :=
      fun x hx => ⟨hvalues x hx, ih x hx⟩
    have hends := rebuilds_elements hus [] 0 hm hdepth hvacant
    refine EndIn.of_shift (n := 1) ?_
    refine EndIn.of_eventually
      (hends.through (fun _ r => r.andThen fun all => newList all.reverse .top)
      fun r hr => ?_) 0 fun j _ => ?_
    · cases hr with
      | limited m' hdeep => exact .const (.limited m' (overdeep_items.mpr hdeep))
      | @ok all m₁ hm₁ hflat h =>
        obtain ⟨us', hus', rfl⟩ := h
        refine .const (.ok (hm₁.trans (Nat.le_refl a) (.withCells hm₁.plain _)) ?_ ?_)
        · exact fun hdeep => hflat (overdeep_items.mp hdeep)
        · refine congrArg Expr.list (items_alike ?_ rfl _ _)
          simpa using hus'
    · rw [Nat.add_comm 1 j]
      show materialize { host } (j + 1) (.list (.items us .top (some a))) m = _
      rw [materialize_finite rfl, bind_run]
      rfl

/-- What was just materialized is materialized to itself, up to cells, or ends at the limit. -/
theorem Materialized.rebuilt {u : Expr} (h : Materialized arities u) {m : Machine σ} (hm : m.Plain)
    (hdepth : m.depth = 0)
    (hvacant : ∀ xs env cell, u = .list (.items xs env cell) → ∃ a, cell = some a ∧
      m.Vacant a xs.length) :
    ∃ a, EndIn (fun j => materialize { host } j u m)
      (Rebuilds a m (Overdeep u) fun u' => u'.Alike u) := by
  cases h with
  | other h =>
    exact ⟨0, rebuilds_at_once (fun l hl => absurd hl (h l)) rfl (not_overdeep_other h) 0 hm⟩
  | infinite h =>
    exact ⟨0, rebuilds_at_once (fun l hl => (Expr.list.inj hl) ▸ h) rfl
      (not_overdeep_infinite h) 0 hm⟩
  | items cell hvalues hus =>
    obtain ⟨a, rfl, hcells⟩ := hvacant _ _ _ rfl
    exact ⟨a, (Materialized.items (some a) hvalues hus).rebuildable a m hm hdepth hcells⟩

end Rebuilt

end LazyExpr
