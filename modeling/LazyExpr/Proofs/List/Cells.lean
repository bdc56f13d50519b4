import LazyExpr.Proofs.Eval.Canonical
import LazyExpr.Proofs.List.Heap

/-!
# Cells of lists

The element of a cell is evaluated away from the cells of its own list: nothing comes to these, and
the machine that the evaluation leaves, whatever its end, has them as they were.  So when the value
is put into the cell, the cell is still empty.

* `Accounts` — an account of cells is right about a machine and what was noted of it.
* `Regime.cells_laws` — every evaluation keeps the account in order.
* `cells_once` — **a cell is filled once and never changes, its element is evaluated to a value
  once, and an evaluation that fails leaves all cells of the list as they were.**
-/

namespace LazyExpr

open Eval

/-! ## 1. Machines -/

/-- Whether an event is that the element of a cell was evaluated. -/
def Event.produces (a : Nat) : Event → Bool
  | .produced (some cell) => cell == a
  | _ => false

namespace Machine

variable {σ : Type} (m : Machine σ)

theorem cell?_fill_of_ne {a b : Nat} (h : b ≠ a) (v : Expr) : (m.fill a v).cell? b = m.cell? b := by
  rw [fill_eq]
  show ((fillCell a v m.cells)[b]?).join = (m.cells[b]?).join
  unfold fillCell
  split
  · rfl
  · rw [Array.getElem?_setIfInBounds_ne (Ne.symm h)]

variable {m}

theorem cell?_fill_of_some {a b : Nat} {u : Expr} (h : m.cell? b = some u) (v : Expr) :
    (m.fill a v).cell? b = some u := by
  by_cases hab : b = a
  · subst hab
    unfold fill
    rw [h]
    exact h
  · rw [cell?_fill_of_ne m hab, h]

theorem cell?_fill_of_none {a : Nat} (ha : a < m.cells.size) (h : m.cell? a = none) (v : Expr) :
    (m.fill a v).cell? a = some v := by
  unfold fill
  rw [h]
  show ((m.cells.setIfInBounds a (some v))[a]?).join = some v
  rw [Array.getElem?_setIfInBounds_self_of_lt ha]
  rfl

theorem host_fill (a : Nat) (v : Expr) : (m.fill a v).host = m.host := by
  rw [fill_eq]

theorem size_fill (a : Nat) (v : Expr) : (m.fill a v).cells.size = m.cells.size := by
  unfold fill
  split
  · rfl
  · exact Array.size_setIfInBounds

/-- New cells are empty, and the others are as they were. -/
theorem cell?_append (k a : Nat) :
    { m with cells := m.cells ++ Array.replicate k none }.cell? a = m.cell? a := by
  show ((m.cells ++ Array.replicate k none)[a]?).join = (m.cells[a]?).join
  rw [Array.getElem?_append]
  split
  · rfl
  · next h =>
    rw [Array.getElem?_eq_none (Nat.not_lt.mp h), Array.getElem?_replicate]
    split <;> rfl

end Machine

namespace Watch

variable {σ τ : Type} (W : Watch σ τ)

/-- What becomes of an element that was evaluated: its value is kept, and a fault is a result. -/
def settle (a : Nat) (before : Array (Option Expr)) : Ended τ Expr → Ended τ (Except Fault Expr)
  | .ok v m =>
    .ok (.ok ((((W.after (.produced (some a)) m).fill a v).cell? a).getD v))
      ((W.after (.produced (some a)) m).fill a v)
  | .error (.fault fault) m => .ok (.error fault) (W.after (.failed (some a) before m.cells) m)
  | .error .outOfFuel m => .error .outOfFuel (W.after (.failed (some a) before m.cells) m)

theorem element_known {a : Nat} {v : Expr} {m : Machine τ} (h : m.cell? a = some v)
    (body : Eval τ Expr) : W.element true (some a) body m = .ok (.ok v) m := by
  have hknown : known true (some a) m = .ok (some v) m := congrArg (EStateM.Result.ok · m) h
  rw [element, bind_run, hknown]
  rfl

theorem element_unknown {a : Nat} {m : Machine τ} (h : m.cell? a = none) (body : Eval τ Expr) :
    W.element true (some a) body m = W.settle a m.cells (body m) := by
  have hknown : known true (some a) m = .ok none m := congrArg (EStateM.Result.ok · m) h
  rw [element, bind_run, hknown]
  show (attempt (W.producing (some a) body) >>= _) m = _
  rw [bind_run]
  unfold attempt producing
  rcases body m with ⟨v, m'⟩ | ⟨_ | _, m'⟩ <;> rfl

/-- Without the events, the same becomes of an element. -/
theorem settle_unwatched (a : Nat) (before : Array (Option Expr))
    (r : Ended (σ × List Event) Expr) :
    (Watch.blind σ).settle a before (Ended.onMachine Machine.unwatched r) =
      Ended.onMachine Machine.unwatched ((Watch.log σ).settle a before r) := by
  rcases r with ⟨v, m⟩ | ⟨_ | _, m⟩
  · have hfill := fill_unwatched ((Watch.log σ).after (.produced (some a)) m) a v
    have hcell : ((Watch.log σ).after (.produced (some a)) m).unwatched =
      (Watch.blind σ).after (.produced (some a)) m.unwatched := rfl
    rw [hcell] at hfill
    simp only [Ended.onMachine, settle, hfill]
    rfl
  · rfl
  · rfl

end Watch

/-! ## 2. The regime -/

section Cells

variable {σ : Type} {m m' : Machine (σ × List Event)} {H H' : Heap}

/-- An event agrees with the account: cells that were made at once belong together, and an
evaluation of an element that failed has left its cell empty and the cells that belong together with
it as they were. -/
def Event.Right (H : Heap) : Event → Prop
  | .made first count => ∀ i < count, first + i < H.size ∧ H.batch (first + i) = first
  | .failed (some a) before after => a < H.size ∧ after[a]?.join = none ∧
    ∀ b < H.size, H.batch b = H.batch a → after[b]?.join = before[b]?.join
  | _ => True

theorem Event.Right.mono {event : Event} (h : event.Right H) (hle : H.Le H') : event.Right H' := by
  cases event with
  | made first count =>
    intro i hi
    obtain ⟨hlt, hbatch⟩ := h i hi
    exact ⟨Nat.lt_of_lt_of_le hlt hle.size, (hle.batch hlt).trans hbatch⟩
  | failed cell before after =>
    cases cell with
    | none => exact trivial
    | some a =>
      obtain ⟨hlt, hnone, hsame⟩ := h
      refine ⟨Nat.lt_of_lt_of_le hlt hle.size, hnone, fun b hb hbatch => ?_⟩
      have hold := hle.lt_of_batch hlt hb hbatch
      rw [hle.batch hlt, hle.batch hold] at hbatch
      exact hsame b hold hbatch
  | _ => exact trivial

/-- The events and the cells fit together: every cell was made, and the elements that are known are
those that were evaluated, each of them once. -/
structure Logged (H : Heap) (cells : Nat → Option Expr) (events : List Event) : Prop where
  right : ∀ event ∈ events, event.Right H
  made : ∀ a < H.size, ∃ count, .made (H.batch a) count ∈ events ∧ a < H.batch a + count
  once : ∀ a, events.countP (Event.produces a) = if (cells a).isSome then 1 else 0

namespace Logged

variable {cells : Nat → Option Expr} {events : List Event}

/-- One more event that agrees with the account and evaluates no element. -/
theorem note (hlog : Logged H cells events) {event : Event} (hright : event.Right H)
    (hproduces : ∀ a, event.produces a = false) : Logged H cells (events ++ [event]) where
  right := List.forall_mem_append.mpr ⟨hlog.right, List.forall_mem_singleton.mpr hright⟩
  made a ha := by
    obtain ⟨count, hmem, hlt⟩ := hlog.made a ha
    exact ⟨count, List.mem_append_left _ hmem, hlt⟩
  once a := by
    rw [List.countP_append, List.countP_singleton, hproduces a]
    exact hlog.once a

/-- The element of an empty cell is evaluated, and its cell is filled. -/
theorem produce (hlog : Logged H cells events) {q : Nat} (hnone : cells q = none)
    {cells' : Nat → Option Expr} (hq : (cells' q).isSome = true)
    (hother : ∀ a, a ≠ q → cells' a = cells a) :
    Logged H cells' (events ++ [.produced (some q)]) where
  right := List.forall_mem_append.mpr ⟨hlog.right, List.forall_mem_singleton.mpr trivial⟩
  made a ha := by
    obtain ⟨count, hmem, hlt⟩ := hlog.made a ha
    exact ⟨count, List.mem_append_left _ hmem, hlt⟩
  once a := by
    rw [List.countP_append, List.countP_singleton, hlog.once a]
    by_cases ha : a = q
    · subst ha
      rw [hq, hnone]
      simp [Event.produces]
    · have hproduces : (Event.produced (some q)).produces a = false := beq_false_of_ne (Ne.symm ha)
      rw [hother a ha, hproduces]
      rfl

/-- New cells are made. -/
theorem push (hlog : Logged H cells events) (k : Nat) (stores : List Store) :
    Logged (H.push k stores) cells (events ++ [.made H.size k]) where
  right := by
    refine List.forall_mem_append.mpr ⟨fun event he => ?_, List.forall_mem_singleton.mpr ?_⟩
    · exact (hlog.right event he).mono (H.le_push k stores)
    · exact fun i hi => ⟨Nat.add_lt_add_left hi _, Heap.pushBatch_new (Nat.le_add_right _ i)⟩
  made a ha := by
    rcases Nat.lt_or_ge a H.size with hlt | hge
    · obtain ⟨count, hmem, hcount⟩ := hlog.made a hlt
      show ∃ count, Event.made (H.pushBatch a) count ∈ _ ∧ a < H.pushBatch a + count
      rw [Heap.pushBatch_old hlt]
      exact ⟨count, List.mem_append_left _ hmem, hcount⟩
    · show ∃ count, Event.made (H.pushBatch a) count ∈ _ ∧ a < H.pushBatch a + count
      rw [Heap.pushBatch_new hge]
      exact ⟨k, List.mem_append_right _ (List.mem_singleton_self _), ha⟩
  once a := by
    rw [List.countP_append]
    exact hlog.once a

end Logged

/-- The account is right about a machine and about its events. -/
structure Accounts (H : Heap) (m : Machine (σ × List Event)) : Prop where
  size : H.size = m.cells.size
  contents : ∀ a v, m.cell? a = some v → Held H (H.clear a) v.stores
  log : Logged H m.cell? m.host.2

/-- What is known stays so, and some cells stay as they are. -/
structure KeepsCells (away : Nat → Prop) (m m' : Machine (σ × List Event)) : Prop where
  known : ∀ a v, m.cell? a = some v → m'.cell? a = some v
  away : ∀ a, away a → m'.cell? a = m.cell? a

theorem KeepsCells.weaken {away away' : Nat → Prop} (h : KeepsCells away m m')
    (hsub : ∀ x, away' x → away x) : KeepsCells away' m m' :=
  ⟨h.known, fun x hx => h.away x (hsub x hx)⟩

theorem KeepsCells.of_cell {away : Nat → Prop} (h : ∀ a, m'.cell? a = m.cell? a) :
    KeepsCells away m m' :=
  ⟨fun a _ hv => (h a).trans hv, fun a _ => h a⟩

theorem Accounts.awayFrom {away : Nat → Prop} {h : ∀ {x}, away x → x < H.size}
    (hm : Accounts H m) : Accounts (H.awayFrom away h) m where
  size := hm.size
  contents a v hv := held_awayFrom.mpr (hm.contents a v hv)
  log :=
    { right := fun event he => by
        have hright := hm.log.right event he
        cases event with
        | failed cell => cases cell <;> exact hright
        | _ => exact hright
      made := hm.log.made
      once := hm.log.once }

theorem Accounts.lt (hm : Accounts H m) {a : Nat} {v : Expr} (h : m.cell? a = some v) :
    a < H.size := by
  rw [hm.size]
  by_contra hge
  have hnone : m.cells[a]? = none := Array.getElem?_eq_none (Nat.not_lt.mp hge)
  rw [Machine.cell?, hnone] at h
  cases h

theorem Accounts.note (hm : Accounts H m) {event : Event} (hright : event.Right H)
    (hproduces : ∀ a, event.produces a = false) : Accounts H ((Watch.log σ).after event m) :=
  ⟨hm.size, hm.contents, hm.log.note hright hproduces⟩

/-- The regime of the account. -/
def Regime.cells (σ : Type) : Regime σ where
  World := Heap
  le := Heap.Le
  le_refl := Heap.Le.refl
  le_trans := Heap.Le.trans
  env H here := Held H H.away here.stores
  code H here e := Held H H.away here.stores ∧ Held H H.away e.stores
  value H v := Held H H.away v.stores
  ready H target received := Held H H.away target.stores ∧ Held H H.away (storesAll received)
  callable H _ arguments := Held H H.away (storesAll arguments)
  state _ _ := True
  allowed H event := event.Right H ∧ ∀ a, event.produces a = false
  Fits := Accounts
  Kept H := KeepsCells H.away
  kept_refl := .of_cell fun _ => rfl
  kept_trans {H H' m m' m''} h hle h' := by
    refine ⟨fun a v hv => h'.known a v (h.known a v hv), fun a ha => ?_⟩
    rw [← h.away a ha]
    exact h'.away a (hle.away ▸ ha)

theorem held_storesAll {away : Nat → Prop} {es : List Expr} :
    Held H away (storesAll es) ↔ ∀ e ∈ es, Held H away e.stores := by
  refine ⟨fun h e he => h.subset fun s hs => mem_storesAll.mpr ⟨e, he, hs⟩, fun h s hs => ?_⟩
  obtain ⟨e, he, hs⟩ := mem_storesAll.mp hs
  exact h e he s hs

theorem held_received {away : Nat → Prop} {received : List Expr} {a : Expr}
    (h : Held H away (storesAll received)) (ha : Held H away a.stores) :
    Held H away (storesAll (received ++ [a])) := by
  refine held_storesAll.mpr (List.forall_mem_append.mpr ⟨held_storesAll.mp h, ?_⟩)
  exact List.forall_mem_singleton.mpr ha

theorem held_storesOption {away : Nat → Prop} {o : Option Expr} :
    Held H away (storesOption o) ↔ ∀ e ∈ o, Held H away e.stores := by
  refine ⟨fun h e he => h.subset fun s hs => mem_storesOption.mpr ⟨e, he, hs⟩, fun h s hs => ?_⟩
  obtain ⟨e, he, hs⟩ := mem_storesOption.mp hs
  exact h e he s hs

theorem Regime.cells_code_form {S : Setting σ} (hfind : S.find = Env.lookup) {here : Env} {e : Expr}
    (henv : Held H H.away here.stores) (he : Held H H.away e.stores) :
    (Regime.cells σ).CodeForm S H here e := by
  cases e with
  | number | bool | str | null | closure | applied => exact he
  | function f =>
    simp only [Regime.CodeForm]
    split
    · exact held_nil
    · exact he
  | list l =>
    cases l with
    | items xs own cell =>
      obtain ⟨-, hrest⟩ := held_append.mp he
      obtain ⟨hxs, hown⟩ := held_append.mp hrest
      have hboth : Held H H.away (own.orElse here).stores :=
        (held_append.mpr ⟨hown, henv⟩).subset Env.stores_orElse
      exact ⟨hboth, fun x hx => ⟨hboth, held_storesAll.mp hxs x hx⟩⟩
    | _ => exact he
  | range start second stop =>
    obtain ⟨hstart, hrest⟩ := held_append.mp he
    obtain ⟨hsecond, hstop⟩ := held_append.mp hrest
    exact ⟨⟨henv, hstart⟩, fun e he => ⟨henv, held_storesOption.mp hsecond e he⟩,
      fun e he => ⟨henv, held_storesOption.mp hstop e he⟩⟩
  | call f a | binary _ f a =>
    obtain ⟨hf, ha⟩ := held_append.mp he
    exact ⟨⟨henv, hf⟩, ⟨henv, ha⟩⟩
  | lambda depth parameters body => exact held_append.mpr ⟨he, henv⟩
  | argument slot => exact fun v hv => henv.subset (Env.stores_of_lookup (hfind ▸ hv))
  | unary | leftSection | rightSection => exact ⟨henv, he⟩
  | conditional c y n =>
    obtain ⟨hc, hrest⟩ := held_append.mp he
    obtain ⟨hy, hn⟩ := held_append.mp hrest
    exact ⟨⟨henv, hc⟩, ⟨henv, hy⟩, ⟨henv, hn⟩⟩
  | interpolated fragments =>
    exact fun e hmem => ⟨henv, he.subset fun s hs => mem_storesFragments.mpr ⟨e, hmem, hs⟩⟩

/-- What remains of a list behind its first element. -/
theorem held_rest {x : Expr} {xs : List Expr} {here : Env} {cell : Option Nat}
    (h : Held H H.away (LazyList.items (x :: xs) here cell).stores) :
    Held H H.away (LazyList.items xs here (cell.map (· + 1))).stores := by
  obtain ⟨hown, hrest⟩ := held_append.mp h
  obtain ⟨hxs, hhere⟩ := held_append.mp hrest
  have hinner : Held H H.away (storesAll xs ++ here.stores) :=
    held_append.mpr ⟨(held_append.mp hxs).2, hhere⟩
  refine held_append.mpr ⟨?_, hinner⟩
  cases cell with
  | none => exact held_nil
  | some c =>
    obtain ⟨hsound, haway⟩ := hown ⟨x :: xs, here, c⟩ List.mem_cons_self
    intro s hs
    obtain rfl : s = ⟨xs, here, c + 1⟩ := List.mem_singleton.mp hs
    have hsucc : ∀ i, c + 1 + i = c + (i + 1) := fun i => by omega
    have hlt : ∀ i < xs.length, i + 1 < (x :: xs).length := fun i hi => Nat.succ_lt_succ hi
    have hsub : (⟨xs, here, c + 1⟩ : Store).inner ⊆ (⟨x :: xs, here, c⟩ : Store).inner := by
      intro t ht
      rcases List.mem_append.mp ht with ht | ht
      · exact List.mem_append_left _ (List.mem_append_right _ ht)
      · exact List.mem_append_right _ ht
    refine ⟨⟨fun i hi => ?_, fun i hi => ?_, fun t ht => hsound.inner_known t (hsub ht), ?_⟩, ?_⟩
    · exact hsucc i ▸ hsound.known (i + 1) (hlt i hi)
    · have hfirst := hsound.whole 1 (Nat.succ_lt_succ (Nat.zero_lt_of_lt hi))
      exact (hsucc i ▸ hsound.whole (i + 1) (hlt i hi)).trans hfirst.symm
    · intro i hi y hy t ht
      exact hsound.inner_apart (i + 1) (hlt i hi) y (hsucc i ▸ hy) t (hsub ht)
    · intro y hy i hi
      exact hsucc i ▸ haway y hy (i + 1) (hlt i hi)

theorem Regime.cells_value_form {v : Expr} (hv : Held H H.away v.stores) :
    (Regime.cells σ).ValueForm H v := by
  have hnone : Held H H.away (storesAll []) := held_nil
  cases v with
  | function f => exact ⟨hv, hnone⟩
  | closure => exact ⟨hv, hnone⟩
  | applied target received => exact held_append.mp hv
  | leftSection | rightSection => exact hv
  | list l =>
    cases l with
    | items xs here cell =>
      cases xs with
      | nil => exact trivial
      | cons x xs =>
        obtain ⟨hxs, hhere⟩ := held_append.mp (held_append.mp hv).2
        exact ⟨⟨hhere, (held_append.mp hxs).1⟩, held_rest hv⟩
    | progression => exact trivial
    | prepend | concat | mapped | filtered => exact held_append.mp hv
    | dropped => exact hv
  | _ => exact trivial

theorem Regime.cells_value_made {v : Expr} (hv : (Regime.cells σ).Made H v) :
    Held H H.away v.stores := by
  cases hv with
  | atom h =>
    cases v <;> first | exact held_nil | cases h
  | leftSection op h | rightSection op h => exact h
  | applied hf ha =>
    exact held_append.mpr ⟨hf.1, held_received hf.2 ha⟩
  | progression range => exact held_nil
  | empty => exact held_nil
  | prepend hv hl | mapped hv hl | filtered hv hl => exact held_append.mpr ⟨hv, hl⟩
  | concat hl hl' => exact held_append.mpr ⟨hl, hl'⟩
  | dropped count hl => exact hl

/-- The element of a cell, and what is in its environment, lead to nothing that the cell is clear
of. -/
theorem held_within {x : Expr} {xs : List Expr} {here : Env} {q : Nat}
    (hl : Held H H.away (LazyList.items (x :: xs) here (some q)).stores) :
    Held H (H.clear q) (storesAll (x :: xs) ++ here.stores) := by
  obtain ⟨hown, hrest⟩ := held_append.mp hl
  obtain ⟨hsound, -⟩ := hown ⟨x :: xs, here, q⟩ List.mem_cons_self
  refine fun t ht => ⟨(hrest t ht).1, fun y hy => ?_⟩
  exact hsound.inner_apart 0 (Nat.zero_lt_succ _) y hy t ht

/-- The value of an element leads to no new cell, as far as its own cell knows. -/
theorem held_produced {q : Nat} (hle : (H.within q).Le H') (hq : q < H.size) {u : Expr}
    (hu : Held H' H'.away u.stores) : Held H' (H'.clear q) u.stores := by
  refine fun s hs => ⟨(hu s hs).1, fun x hx => ?_⟩
  rcases Nat.lt_or_ge x H.size with hlt | hge
  · exact (hu s hs).2 x (hle.away ▸ (hle.clear hq hlt).mp hx)
  · -- a new cell was made away from the cell itself, which the cell is not apart from
    have hself : H.Apart q q := hle.clear_away hq hge hx (H.clear_batch hq rfl)
    exact absurd rfl hself.2

/-- New cells are made for a list with these lists in it. -/
theorem Accounts.extended (hm : Accounts H m) (k : Nat) (stores : List Store) :
    Accounts (H.push k stores) (Regime.extended k m) where
  size := by
    show H.size + k = (m.cells ++ Array.replicate k none).size
    rw [hm.size, Array.size_append, Array.size_replicate]
  contents a v hv := by
    have hold : m.cell? a = some v := (Machine.cell?_append k a).symm.trans hv
    exact (hm.contents a v hold).content (H.le_push k stores) (hm.lt hold)
  log := by
    have hcells : (Regime.extended k m).cell? = m.cell? := funext (Machine.cell?_append k)
    have hlog := hm.log.push k stores
    rw [hm.size] at hlog
    exact hcells ▸ hlog

/-- The element of an empty cell is noted and kept. -/
theorem Accounts.produced {q : Nat} (hm : Accounts H m) (hq : q < H.size) (hnone : m.cell? q = none)
    {u : Expr} (hu : Held H (H.clear q) u.stores) :
    Accounts H (((Watch.log σ).after (.produced (some q)) m).fill q u) := by
  have hnone' : ((Watch.log σ).after (.produced (some q)) m).cell? q = none := hnone
  have hfilled := Machine.cell?_fill_of_none (hm.size ▸ hq) hnone' u
  have hother := fun a (ha : a ≠ q) =>
    Machine.cell?_fill_of_ne ((Watch.log σ).after (.produced (some q)) m) ha u
  have hsize := Machine.size_fill (m := (Watch.log σ).after (.produced (some q)) m) q u
  refine ⟨hm.size.trans hsize.symm, fun a v hv => ?_, ?_⟩
  · by_cases ha : a = q
    · subst ha
      cases hfilled.symm.trans hv
      exact hu
    · rw [hother a ha] at hv
      exact hm.contents a v hv
  · rw [Machine.host_fill]
    exact hm.log.produce hnone (hfilled ▸ rfl) hother

/-- A failed evaluation of the element of a cell, which stayed away from the cells of the same
list. -/
theorem Accounts.failed {q : Nat} {m₁ : Machine (σ × List Event)} (hle : (H.within q).Le H')
    (hq : q < H.size) (hm : Accounts H' m₁) (hkept : KeepsCells (H.clear q) m m₁)
    (hnone : m₁.cell? q = none) :
    Accounts H' ((Watch.log σ).after (.failed (some q) m.cells m₁.cells) m₁) := by
  refine hm.note ⟨Nat.lt_of_lt_of_le hq hle.size, hnone, fun b hb hbatch => ?_⟩ fun _ => rfl
  have hold := hle.lt_of_batch hq hb hbatch
  rw [hle.batch hq, hle.batch hold] at hbatch
  exact hkept.away b (H.clear_batch hold hbatch.symm)

/-- An element is evaluated away from its list, so its cell is still empty when the value is
kept. -/
theorem Regime.cells_element {x : Expr} {xs : List Expr} {here : Env} {q : Nat}
    {y : Eval (σ × List Event) Expr} {z : Eval σ Expr}
    (hl : (Regime.cells σ).list H (.items (x :: xs) here (some q)))
    (hx : ∀ H', (Regime.cells σ).code H' here x →
      (Regime.cells σ).Holds H' (Regime.cells σ).value y z) :
    (Regime.cells σ).Holds H ((Regime.cells σ).Outcome (Regime.cells σ).value)
      ((Watch.log σ).element true (some q) y) ((Watch.blind σ).element true (some q) z) := by
  obtain ⟨hsound, haway⟩ := (held_append.mp hl).1 ⟨x :: xs, here, q⟩ List.mem_cons_self
  have hq : q < H.size := hsound.known 0 (Nat.zero_lt_succ _)
  have hout : ∀ a, H.away a → H.Apart q a := fun a ha => haway a ha 0 (Nat.zero_lt_succ _)
  have hinner := held_within hl
  have hcode : (Regime.cells σ).code (H.within q) here x :=
    ⟨held_awayFrom.mpr (held_append.mp hinner).2,
      held_awayFrom.mpr (held_append.mp (held_append.mp hinner).1).1⟩
  intro m hm
  cases hcell : m.cell? q with
  | some v =>
    rw [Watch.element_known _ hcell, Watch.element_known (m := m.unwatched) _ hcell]
    refine Run.ok (Heap.Le.refl H) hm (.of_cell fun _ => rfl) ?_
    exact (hm.contents q v hcell).weaken fun a ha => (hout a ha).1
  | none =>
    obtain ⟨hsame, H₁, hle, hfits, hkept, hvalue⟩ := hx (H.within q) hcode m (Accounts.awayFrom hm)
    rw [Watch.element_unknown _ hcell, Watch.element_unknown (m := m.unwatched) _ hcell, hsame,
      Watch.settle_unwatched]
    have hle' := hle.outside fun a ha => (hout a ha).1
    have hkept' : KeepsCells H.away m (Ended.machine (y m)) :=
      hkept.weaken fun a ha => (hout a ha).1
    have hnone : (Ended.machine (y m)).cell? q = none :=
      (hkept.away q (H.clear_batch hq rfl)).trans hcell
    generalize y m = r at hfits hkept hkept' hvalue hnone ⊢
    rcases r with ⟨u, m₁⟩ | ⟨fault | _, m₁⟩
    · have hu := hvalue u m₁ rfl
      have hq₁ : q < H₁.size := Nat.lt_of_lt_of_le hq hle.size
      have hfilled := Machine.cell?_fill_of_none
        (m := (Watch.log σ).after (.produced (some q)) m₁) (hfits.size ▸ hq₁) hnone u
      refine Run.ok hle' (hfits.produced hq₁ hnone (held_produced hle hq hu)).awayFrom ⟨?_, ?_⟩ ?_
      · intro a v hv
        have hknown : ((Watch.log σ).after (.produced (some q)) m₁).cell? a = some v :=
          hkept'.known a v hv
        exact Machine.cell?_fill_of_some hknown u
      · intro a ha
        have hne : a ≠ q := by
          rintro rfl
          exact (hout a ha).2 rfl
        exact (Machine.cell?_fill_of_ne _ hne u).trans (hkept'.away a ha)
      · rw [hfilled]
        refine held_awayFrom.mpr (hu.weaken fun a ha => ?_)
        rw [hle.away]
        exact (hout a ha).1
    · exact Run.ok hle' (hfits.failed hle hq hkept hnone).awayFrom
        ⟨hkept'.known, hkept'.away⟩ trivial
    · exact Run.error hle' (hfits.failed hle hq hkept hnone).awayFrom ⟨hkept'.known, hkept'.away⟩

/-! ## 3. Applications that keep no lists -/

/-- The functions of an application hand on what they are given, and values without cells.  Whatever
values these are among, so are those that the functions give, pack and apply; so they bring no lists
from one call to another. -/
def Host.HandsOn (host : Host σ) : Prop :=
  ∀ V : Expr → Prop, (∀ v, v.stores = [] → V v) → ∀ entry arguments, (∀ a ∈ arguments, V a) →
    (host entry arguments).Within (fun V V' => ∀ v, V v → V' v) (fun V v => V v) (fun _ _ => True) V

/-- Values that are handed on are accounted for as before. -/
theorem Action.within_cells {V : Expr → Prop} {a : Action σ}
    (h : a.Within (fun V V' : Expr → Prop => ∀ v, V v → V' v) (fun V v => V v)
      (fun _ _ => True) V) :
    ∀ H : Heap, V = (fun v => Held H H.away v.stores) →
      a.Within Heap.Le (fun H v => Held H H.away v.stores) (fun _ _ => True) H := by
  induction h with
  | give hv =>
    rintro H rfl
    exact .give hv
  | fail fault => exact fun H _ => .fail fault
  | read _ ih => exact fun H hV => .read fun s hs => ih s hs H hV
  | write hs _ ih => exact fun H hV => .write hs (ih H hV)
  | newList hxs _ ih =>
    rintro H rfl
    exact .newList hxs fun H' v hle hv => ih _ v (fun u hu => hu.mono hle) hv H' rfl
  | display hv _ ih =>
    rintro H rfl
    exact .display hv fun H' text hle => ih _ text (fun u hu => hu.mono hle) H' rfl
  | apply hf ha _ ih =>
    rintro H rfl
    exact .apply hf ha fun H' v hle hv => ih _ v (fun u hu => hu.mono hle) hv H' rfl
  | cancel _ ih => exact fun H hV => .cancel (ih H hV)

theorem Regime.cells_laws {S : Setting σ} (hfind : S.find = Env.lookup)
    (hremembers : S.remembers = true) (hhost : S.host.HandsOn) : (Regime.cells σ).Laws S where
  code_mono hle h := ⟨h.1.mono hle, h.2.mono hle⟩
  value_mono hle h := h.mono hle
  env_top _ := held_nil
  code_top h := ⟨held_nil, h⟩
  code_form h := cells_code_form hfind h.1 h.2
  value_form h := cells_value_form h
  value_made h := cells_value_made h
  ready_frame h ha _ := by
    obtain ⟨hbody, hhere⟩ := held_append.mp h.1
    exact ⟨⟨trivial, fun _ => rfl⟩, held_append.mpr ⟨held_received h.2 ha, hhere⟩, hbody⟩
  ready_call h ha _ := held_received h.2 ha
  ready_refused _ _ := ⟨trivial, fun _ => rfl⟩
  callable_called _ := ⟨trivial, fun _ => rfl⟩
  callable_builtin h := held_storesAll.mp h
  callable_mismatched _ _ := ⟨trivial, fun _ => rfl⟩
  callable_foreign {H entry arguments} h := by
    have hfree : ∀ v : Expr, v.stores = [] → Held H H.away v.stores := fun v hv => hv ▸ held_nil
    exact Action.within_cells (hhost _ hfree entry arguments (held_storesAll.mp h)) H rfl
  signal hm _ _ := ⟨⟨hm.size, hm.contents, hm.log⟩, .of_cell fun _ => rfl⟩
  note hm h := ⟨hm.note h.1 h.2, .of_cell fun _ => rfl⟩
  state _ := trivial
  update hm _ := ⟨⟨hm.size, hm.contents, hm.log⟩, .of_cell fun _ => rfl⟩
  opened hm _ :=
    have hnote := hm.note (show Event.opened.Right _ from trivial) fun _ => rfl
    ⟨hnote.size, hnote.contents, hnote.log⟩
  closed _ _ hm hkept :=
    have hnote := hm.note (show Event.closed.Right _ from trivial) fun _ => rfl
    ⟨⟨hnote.size, hnote.contents, hnote.log⟩, hkept.known, hkept.away⟩
  newList {H m here xs} hm henv hxs := by
    have hall : Held H H.away (storesAll xs ++ here.stores) :=
      held_append.mpr ⟨held_storesAll.mpr fun x hx => (hxs x hx).2, henv⟩
    have hpush := held_push hall
    rw [hm.size] at hpush
    exact ⟨_, H.le_push _ _, hm.extended xs.length _, .of_cell (Machine.cell?_append _), hpush⟩
  element {H x xs here cell y z} hl hx := by
    rw [hremembers]
    cases cell with
    | some q => exact cells_element hl hx
    | none =>
      refine holds_element ?_ (hx H (cells_value_form hl).1) (fun H' m event hevent hm => ?_) ?_
      · rintro a ⟨⟩
      · -- an element without a cell leaves no trace
        have hright : event.Right H' ∧ ∀ a, event.produces a = false := by
          cases event with
          | produced | failed =>
            cases hevent
            exact ⟨trivial, fun _ => rfl⟩
          | _ => cases hevent
        exact ⟨hm.note hright.1 hright.2, .of_cell fun _ => rfl⟩
      · rintro a ⟨⟩

theorem Regime.cells_reads : (Regime.cells σ).Reads := by
  intro H scope source e hnames hparse
  refine ⟨held_nil, ?_⟩
  exact stores_of_readable (readable_of_parseIn hparse) fun name v hlookup =>
    (hnames name v hlookup).2

theorem Host.handsOn_ofTable (table : Array Native) : (Host.ofTable table).HandsOn := by
  intro V hfree entry arguments h
  refine Host.ofTable_within (fun hle hv => hle _ hv) (fun v hv => hfree v ?_) table entry h
  cases v <;> first | rfl | cases hv

end Cells

/-! ## 4. Steps through lists -/

section Steps

variable {σ : Type} {host : Host σ} {x : Expr} {xs : List Expr} {env : Env} {a : Nat}
    {m m' : Machine σ}

/-- A traversal takes what is known, and nothing else happens. -/
theorem advance_known {v : Expr} (h : m.cell? a = some v) (n : Nat) :
    Eval.advance { host } (n + 1) (.items (x :: xs) env (some a)) m =
      .ok ⟨.ok (some v), .items xs env (some (a + 1))⟩ m := by
  rw [Engine.advance_next]
  show ((Watch.blind σ).element true (some a) _ >>= _) m = _
  rw [bind_run, Watch.element_known _ h]
  rfl

/-- What is not known is evaluated; a value is kept, and a fault is a result. -/
theorem advance_unknown (h : m.cell? a = none) (n : Nat) :
    Eval.advance { host } (n + 1) (.items (x :: xs) env (some a)) m =
      Ended.andThen ((Watch.blind σ).settle a m.cells (Eval.eval { host } n env x m)) fun outcome =>
        pure ⟨outcome.map some, .items xs env (some (a + 1))⟩ := by
  rw [Engine.advance_next]
  show ((Watch.blind σ).element true (some a) _ >>= _) m = _
  rw [bind_run, Watch.element_unknown _ h]
  rfl

/-- A fault of the evaluation is the result of the step, and the machine is as the evaluation left
it. -/
theorem advance_failed (h : m.cell? a = none) {n : Nat} {fault : Fault}
    (hfault : Eval.eval { host } n env x m = .error (.fault fault) m') :
    Eval.advance { host } (n + 1) (.items (x :: xs) env (some a)) m =
      .ok ⟨.error fault, .items xs env (some (a + 1))⟩ m' := by
  rw [advance_unknown h, hfault]
  rfl

/-- A value of the evaluation is the element, and it is kept. -/
theorem advance_produced (h : m.cell? a = none) {n : Nat} {v : Expr}
    (hv : Eval.eval { host } n env x m = .ok v m') (hnone : m'.cell? a = none)
    (ha : a < m'.cells.size) :
    Eval.advance { host } (n + 1) (.items (x :: xs) env (some a)) m =
      .ok ⟨.ok (some v), .items xs env (some (a + 1))⟩ (m'.fill a v) := by
  rw [advance_unknown h, hv]
  show EStateM.Result.ok (Step.mk (.ok (some (((m'.fill a v).cell? a).getD v))) _) (m'.fill a v) = _
  rw [Machine.cell?_fill_of_none ha hnone]
  rfl

/-- An evaluation that gives a value does so one level deeper, on a machine with the same cells. -/
theorem eval_ok {S : Setting σ} {n : Nat} {e v : Expr} (h : Eval.eval S n env e m = .ok v m') :
    ∃ k cancelled checksLeft m₁, n = k + 1 ∧
      (Engine.actual S k).evalInside S (.blind σ) env e
        { m with cancelled, checksLeft, depth := m.depth + 1 } = .ok v m₁ ∧
      m' = { m₁ with depth := m.depth } := by
  cases n with
  | zero => cases h
  | succ k =>
    rw [Engine.eval_next] at h
    obtain ⟨cancelled, checksLeft, hmachine⟩ := check_machine m
    simp only [Engine.next, Watch.during_blind, bind_run] at h
    generalize hcheck : check m = r at h hmachine
    cases r with
    | error halt m₀ => cases h
    | ok u m₀ =>
      obtain rfl : m₀ = { m with cancelled, checksLeft } := hmachine
      have habove : above m.depth ((Engine.actual S k).evalInside S (.blind σ) env e)
          { m with cancelled, checksLeft } = .ok v m' := by
        rcases hlimit : S.depthLimit with _ | l
        · rw [hlimit] at h
          exact h
        · rw [hlimit] at h
          simp only [Ended.andThen, nested_some] at h
          split at h
          · cases h
          · exact h
      rw [above_run] at habove
      generalize hinside : (Engine.actual S k).evalInside S (.blind σ) env e
        { m with cancelled, checksLeft, depth := m.depth + 1 } = r at habove
      cases r with
      | error halt m₁ => cases habove
      | ok u m₁ =>
        cases habove
        exact ⟨k, cancelled, checksLeft, m₁, rfl, hinside, rfl⟩

/-- A list that is evaluated gets new cells, which are empty. -/
theorem eval_items {n : Nat} {own : Env} {cell : Option Nat} {v : Expr}
    (h : Eval.eval { host } n env (.list (.items xs own cell)) m = .ok v m') :
    v = .list (.items xs (own.orElse env) (some m.cells.size)) ∧
      m'.cells = m.cells ++ Array.replicate xs.length none := by
  obtain ⟨k, cancelled, checksLeft, m₁, -, hinside, rfl⟩ := eval_ok h
  cases hinside
  exact ⟨rfl, rfl⟩

end Steps

/-! ## 5. Histories -/

/-- A list with cells that a client comes to through a value, a traversal or an element that is
known. -/
inductive Client.Has {τ : Type} (C : Client τ) : Store → Prop where
  | value {v : Expr} {t : Store} (hv : v ∈ C.values) (ht : t ∈ v.stores) : C.Has t
  | cursor {c : Cursor} {t : Store} (hc : c ∈ C.cursors) (ht : t ∈ c.rest.stores) : C.Has t
  | element {a : Nat} {v : Expr} {t : Store} (hv : C.machine.cell? a = some v) (ht : t ∈ v.stores) :
    C.Has t

/-- What a client can rely on for its lists. -/
structure Client.OnceOnly {σ : Type} (host : Host σ) (C : Client (σ × List Event)) : Prop where
  /-- An element is known if it was evaluated to a value, which has happened once at most. -/
  once : ∀ a, C.log.countP (Event.produces a) = if (C.machine.cell? a).isSome then 1 else 0
  /-- What is known stays so, whatever is asked for from now on. -/
  stays : ∀ requests : List (Nat × Request), (∀ r ∈ requests, r.2.Names (·.stores = [])) →
    ∀ a v, C.machine.cell? a = some v →
      (C.history (Engine.watched { host }) requests).machine.cell? a = some v
  /-- The cells of a list, also of one that is left of another, are among those that were made at
  once. -/
  whole : ∀ t, C.Has t → t.elements ≠ [] → ∃ first count, .made first count ∈ C.log ∧
    first ≤ t.cell ∧ t.cell + t.elements.length ≤ first + count
  /-- Whenever an evaluation of an element failed, it left the cell of the element empty, and all
  cells of the list as they were. -/
  undone : ∀ a before after, .failed (some a) before after ∈ C.log →
    after[a]?.join = none ∧ ∀ first count, .made first count ∈ C.log →
      first ≤ a → a < first + count → ∀ b, first ≤ b → b < first + count →
        after[b]?.join = before[b]?.join

section Histories

variable {σ : Type} {host : Host σ}

theorem Regime.cells_admits {r : Request} (hr : r.Names (·.stores = [])) :
    (Regime.cells σ).Admits r := by
  intro H
  cases r with
  | eval outer names source => exact fun x e hx => ⟨held_nil, hr x e hx ▸ held_nil⟩
  | _ => exact trivial

theorem Regime.Owns.sound {H : Heap} {C : Client (σ × List Event)} (hC : (Regime.cells σ).Owns H C)
    {t : Store} (ht : C.Has t) : t.Sound H := by
  cases ht with
  | value hv ht => exact (hC.values _ hv t ht).1
  | cursor hc ht => exact (hC.cursors _ hc t ht).1
  | element hv ht => exact (hC.machine.contents _ _ hv t ht).1

/-- The cells of a list were made together with its last one. -/
theorem Logged.whole {H : Heap} {cells : Nat → Option Expr} {events : List Event}
    (hlog : Logged H cells events) {t : Store} (ht : t.Sound H) (hne : t.elements ≠ []) :
    ∃ first count, .made first count ∈ events ∧ first ≤ t.cell ∧
      t.cell + t.elements.length ≤ first + count := by
  have hpos := List.length_pos_iff.mpr hne
  have hlast : t.elements.length - 1 < t.elements.length := by omega
  obtain ⟨count, hmem, hlt⟩ := hlog.made _ (ht.known _ hlast)
  rw [ht.whole _ hlast] at hmem hlt
  exact ⟨_, count, hmem, H.batch_le t.cell, by omega⟩

/-- A failed evaluation has left all cells that were made at once with its own as they were. -/
theorem Logged.undone {H : Heap} {cells : Nat → Option Expr} {events : List Event}
    (hlog : Logged H cells events) {a : Nat} {before after : Array (Option Expr)}
    (hfailed : .failed (some a) before after ∈ events) :
    after[a]?.join = none ∧ ∀ first count, .made first count ∈ events →
      first ≤ a → a < first + count → ∀ b, first ≤ b → b < first + count →
        after[b]?.join = before[b]?.join := by
  obtain ⟨-, hnone, hsame⟩ := hlog.right _ hfailed
  refine ⟨hnone, fun first count hmade hle hlt b hle' hlt' => ?_⟩
  have hbatch := hlog.right _ hmade
  obtain ⟨-, ha⟩ := hbatch (a - first) (by omega)
  obtain ⟨hb, hb'⟩ := hbatch (b - first) (by omega)
  rw [Nat.add_sub_of_le hle] at ha
  rw [Nat.add_sub_of_le hle'] at hb hb'
  exact hsame b hb (hb'.trans ha.symm)

theorem Regime.cells_fresh (s : σ) :
    (Regime.cells σ).Owns Heap.empty (Client.fresh s).observed where
  machine :=
    { size := rfl
      contents := by rintro a v ⟨⟩
      log :=
        { right := by rintro event ⟨⟩
          made := fun a ha => absurd ha (Nat.not_lt_zero a)
          once := fun a => rfl } }
  values := by rintro v ⟨⟩
  cursors := by rintro c ⟨⟩

/-- A client whose machine is accounted for can rely on its lists. -/
theorem Regime.Owns.onceOnly {H : Heap} {C : Client (σ × List Event)}
    (hlaws : (Regime.cells σ).Laws { host }) (hC : (Regime.cells σ).Owns H C) :
    C.OnceOnly host where
  once := hC.machine.log.once
  stays requests hnames a v hv := by
    obtain ⟨-, _, -, hkept, -⟩ := hlaws.history cells_reads hC fun r hr =>
      cells_admits (hnames r hr)
    exact hkept.known a v hv
  whole _ ht hne := hC.machine.log.whole (hC.sound ht) hne
  undone _ _ _ hfailed := hC.machine.log.undone hfailed

/-- **An element is evaluated to a value once, and fills its cell once.** Whatever an application
asks for, its functions bringing no lists from one call to another: the cells that are filled are
those whose elements were evaluated to a value, each of them once, and they keep it for ever; where
an evaluation failed, the cells of the list are as before it.

A traversal that comes to a cell takes what it holds, and nothing happens; what is not known it
evaluates, also if that failed before.  What is read from a text has no cells, and neither has
anything in it: each evaluation of a list makes new ones, which are empty.  The elements of a list
without cells are never evaluated. -/
theorem cells_once (hhost : host.HandsOn) (s : σ) {requests : List (Nat × Request)}
    (hnames : ∀ r ∈ requests, r.2.Names (·.stores = [])) :
    let C := (Client.fresh s).observed.history (Engine.watched { host }) requests
    C.unwatched = (Client.fresh s).history (Engine.actual { host }) requests ∧
    C.OnceOnly host ∧
    (∀ n x xs env a (m : Machine σ),
      let step := Eval.advance { host } (n + 1) (.items (x :: xs) env (some a)) m
      let rest := LazyList.items xs env (some (a + 1))
      (∀ v, m.cell? a = some v → step = .ok ⟨.ok (some v), rest⟩ m) ∧
      (m.cell? a = none → ∀ m',
        (∀ fault, Eval.eval { host } n env x m = .error (.fault fault) m' →
          step = .ok ⟨.error fault, rest⟩ m') ∧
        ∀ v, Eval.eval { host } n env x m = .ok v m' → m'.cell? a = none → a < m'.cells.size →
          step = .ok ⟨.ok (some v), rest⟩ (m'.fill a v) ∧ (m'.fill a v).cell? a = some v)) ∧
    (∀ scope source e, (∀ name v, scope.lookup name = some v → v.stores = []) →
      parseIn scope source = .ok e → e.stores = []) ∧
    (∀ n env xs own cell (m m' : Machine σ) v,
      Eval.eval { host } n env (.list (.items xs own cell)) m = .ok v m' →
      v = .list (.items xs (own.orElse env) (some m.cells.size)) ∧
        m'.cells = m.cells ++ Array.replicate xs.length none) ∧
    ∀ arities kept, host.GivesCanonical arities kept → kept s →
      (∀ r ∈ requests, r.2.Names (WellFormed arities)) →
      ∀ event ∈ C.log, ¬ event.aboutElement none := by
  intro C
  have hlaws : (Regime.cells σ).Laws { host } := Regime.cells_laws rfl rfl hhost
  obtain ⟨hsame, H, -, -, hC⟩ := hlaws.history Regime.cells_reads (Regime.cells_fresh s)
    fun r hr => Regime.cells_admits (hnames r hr)
  refine ⟨hsame.symm, hC.onceOnly hlaws, ?_, ?_, ?_, ?_⟩
  · intro n x xs env a m step rest
    refine ⟨fun v hv => advance_known hv n, fun hnone m' => ⟨fun fault => advance_failed hnone, ?_⟩⟩
    intro v hv hnone' ha
    exact ⟨advance_produced hnone hv hnone' ha, Machine.cell?_fill_of_none ha hnone' v⟩
  · intro scope source e hscope hparse
    have hnot := stores_of_readable (readable_of_parseIn hparse) (P := fun _ => False)
      fun name v hv t ht => List.not_mem_nil (hscope name v hv ▸ ht)
    exact List.eq_nil_iff_forall_not_mem.mpr hnot
  · exact fun n env xs own cell m m' v h => eval_items h
  · intro arities kept hgives hs hwell event hmem habout
    obtain ⟨-, _, -, -, howns⟩ := Regime.canonical_history hgives hs hwell
    have hexact := howns.machine.events event hmem
    cases event with
    | produced | failed =>
      cases habout
      cases hexact
    | _ => cases habout

end Histories

/-- An element that fails when it is first asked for, is evaluated by the next traversal and is
known to a third. -/
theorem cells_once_flaky :
    let host := Host.ofTable #[.failAt 1]
    let outer := Scope.standard.register ⟨"flaky", 0, .foreign 0⟩
    let requests : List (Nat × Request) :=
      [(9, .eval outer [] "[flaky, 7]"), (9, .traverse 0 false), (9, .next 0),
        (9, .traverse 0 false), (9, .next 0), (9, .traverse 1 true), (9, .next 0)]
    let C := (Client.fresh 0).observed.history (Engine.watched { host }) requests
    C.values.length = 3 ∧ C.machine.host.1 = 2 ∧
      C.log.countP (Event.produces 0) = 1 ∧
      C.log.countP (Event.produces 1) = 0 ∧
      C.unwatched = (Client.fresh 0).history (Engine.actual { host }) requests ∧
      C.OnceOnly host ∧ ∀ event ∈ C.log, ¬ event.aboutElement none := by
  intro host outer requests C
  have hnames : ∀ r ∈ requests, r.2.Names (·.stores = []) := by
    have houter : ∀ name e, outer.lookup name = some e → e.stores = [] := by
      intro name e hlookup
      change (Scope.standard.define "flaky" _).lookup name = some e at hlookup
      rw [Scope.standard, Scope.lookup_define] at hlookup
      split at hlookup
      · cases hlookup
        rfl
      · obtain ⟨b, -, rfl⟩ := Scope.lookup_standard hlookup
        rfl
    simpa [requests, Request.Names] using houter
  have hwell : ∀ r ∈ requests, r.2.Names (WellFormed fun _ => 0) := by
    have houter : ∀ name e, outer.lookup name = some e → WellFormed (fun _ => 0) e :=
      WellFormed.register (WellFormed.standard fun _ => 0) "flaky" 0
    simpa [requests, Request.Names] using houter
  have hrun : C.values.length = 3 ∧ C.machine.host.1 = 2 ∧
      C.log.countP (Event.produces 0) = 1 ∧
      C.log.countP (Event.produces 1) = 0 := by decide +kernel
  have hhost : host.HandsOn := Host.handsOn_ofTable #[.failAt 1]
  have hgives : host.GivesCanonical (fun _ => 0) fun _ => True := Host.givesCanonical_ofTable _ _
  obtain ⟨hsame, honce, -, -, -, hliteral⟩ := cells_once hhost 0 hnames
  exact ⟨hrun.1, hrun.2.1, hrun.2.2.1, hrun.2.2.2, hsame, honce, hliteral _ _ hgives trivial hwell⟩

end LazyExpr
