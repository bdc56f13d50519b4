import LazyExpr.Proofs.Expr.Readable

/-!
# An account of cells

An element of a list is evaluated when it is first asked for, and its value is kept in a cell.
Lists are shared: by copies, by views, by traversals that go on beside each other.  While an element
is evaluated, anything may happen to the cells, but nothing comes to the list that the element
belongs to: the element and its environment are older than the list, and they lead to nothing that
leads to it.

A *heap* keeps account of this.  For each cell it has the cells that one never comes to from what
the cell is for, be it through its expression, through its environment or through elements that are
known.  These include the cells of the same list.

* `Expr.stores` — the lists with cells in an expression.
* `stores_of_readable` — what was read from a text has none but those of its names.
* `Heap` and `Heap.Le` — the account, and how it may grow.
* `Held` — the account is right about lists, and they lead to none of some cells.
* `held_push` — a new list is added to the account.
-/

namespace LazyExpr

/-! ## 1. Lists with cells -/

/-- A list of element expressions with its environment and its first cell. -/
structure Store where
  elements : List Expr
  env : Env
  cell : Nat

/-- The list itself, if it has cells. -/
def ownStore (elements : List Expr) (env : Env) (cell : Option Nat) : List Store :=
  cell.toList.map (⟨elements, env, ·⟩)

mutual

/-- All lists with cells in an expression. -/
def Expr.stores : Expr → List Store
  | .number _ | .bool _ | .str _ | .null | .function _ | .argument _ => []
  | .list l => l.stores
  | .range start second stop => start.stores ++ (storesOption second ++ storesOption stop)
  | .call function argument => function.stores ++ argument.stores
  | .lambda _ _ body => body.stores
  | .closure _ _ body env => body.stores ++ env.stores
  | .applied target arguments => target.stores ++ storesAll arguments
  | .unary _ operand => operand.stores
  | .binary _ left right => left.stores ++ right.stores
  | .leftSection _ left => left.stores
  | .rightSection _ right => right.stores
  | .conditional condition yes no => condition.stores ++ (yes.stores ++ no.stores)
  | .interpolated fragments => storesFragments fragments

/-- All lists with cells in a bound of a range. -/
def storesOption : Option Expr → List Store
  | none => []
  | some e => e.stores

/-- All lists with cells in expressions. -/
def storesAll : List Expr → List Store
  | [] => []
  | e :: es => e.stores ++ storesAll es

/-- All lists with cells in fragments. -/
def storesFragments : List Fragment → List Store
  | [] => []
  | .text _ :: rest => storesFragments rest
  | .embedded e :: rest => e.stores ++ storesFragments rest

/-- All lists with cells in a list, itself first. -/
def LazyList.stores : LazyList → List Store
  | .items elements env cell => ownStore elements env cell ++ (storesAll elements ++ env.stores)
  | .progression _ => []
  | .prepend head tail => head.stores ++ tail.stores
  | .concat first second => first.stores ++ second.stores
  | .mapped function source => function.stores ++ source.stores
  | .filtered predicate source => predicate.stores ++ source.stores
  | .dropped _ source => source.stores

/-- All lists with cells in an environment. -/
def Env.stores : Env → List Store
  | .top => []
  | .frame _ _ arguments parent => storesAll arguments ++ parent.stores

end

theorem mem_storesAll {s : Store} {es : List Expr} : s ∈ storesAll es ↔ ∃ e ∈ es, s ∈ e.stores := by
  induction es with
  | nil => simp [storesAll]
  | cons e es ih => simp [storesAll, ih]

theorem mem_storesFragments {s : Store} {fs : List Fragment} :
    s ∈ storesFragments fs ↔ ∃ e, .embedded e ∈ fs ∧ s ∈ e.stores := by
  induction fs with
  | nil => simp [storesFragments]
  | cons f fs ih =>
    cases f with
    | text => simp [storesFragments, ih]
    | embedded e => simp [storesFragments, ih, or_and_right, exists_or]

theorem mem_storesOption {s : Store} {o : Option Expr} : s ∈ storesOption o ↔
    ∃ e ∈ o, s ∈ e.stores := by
  cases o with
  | none => simp [storesOption]
  | some e => simp [storesOption]

/-- An argument has no lists that its environment has not. -/
theorem Env.stores_of_lookup {slot : Slot} {v : Expr} {env : Env} (h : env.lookup slot = some v) :
    v.stores ⊆ env.stores := by
  intro s hs
  fun_induction Env.lookup slot env with
  | case1 => cases h
  | case2 =>
    rw [Env.stores, List.mem_append, mem_storesAll]
    exact .inl ⟨v, List.mem_of_getElem? h, hs⟩
  | case3 => cases h
  | case4 _ _ _ _ _ _ ih =>
    rw [Env.stores, List.mem_append]
    exact .inr (ih h)

theorem Env.stores_orElse {own here : Env} :
    (own.orElse here).stores ⊆ own.stores ++ here.stores := by
  cases own with
  | top => exact List.subset_append_right _ _
  | frame => exact List.subset_append_left _ _

/-- An expression that a text builds has no lists with cells but those of the names it uses. -/
theorem stores_of_readable {scope : Scope} {e : Expr} (h : Readable scope e) {P : Store → Prop}
    (hscope : ∀ name v, scope.lookup name = some v → ∀ s ∈ v.stores, P s) :
    ∀ s ∈ e.stores, P s := by
  induction h with
  | integer | decimal | bool | null | str =>
    intro s hs
    cases hs
  | name hlookup => exact hscope _ _ hlookup
  | unary _ _ ih | leftSection _ _ ih | rightSection _ _ ih => exact ih hscope
  | binary _ _ _ ihl ihr | call _ _ ihl ihr =>
    exact List.forall_mem_append.mpr ⟨ihl hscope, ihr hscope⟩
  | lambda _ _ _ ih =>
    refine ih fun name v hlookup => ?_
    rw [Scope.inside, Scope.lookup] at hlookup
    rcases Option.or_eq_some_iff.mp hlookup with hlookup | ⟨-, hlookup⟩
    · obtain ⟨index, -, rfl⟩ := Scope.lookup_parameterBindings hlookup
      intro s hs
      cases hs
    · exact hscope name v hlookup
  | conditional _ _ _ ihc ihy ihn =>
    exact List.forall_mem_append.mpr
      ⟨ihc hscope, List.forall_mem_append.mpr ⟨ihy hscope, ihn hscope⟩⟩
  | literal _ ih =>
    intro s hs
    rw [Expr.literal, Expr.stores, LazyList.stores, Env.stores, List.append_nil] at hs
    obtain ⟨e, he, hs⟩ := mem_storesAll.mp hs
    exact ih e he hscope s hs
  | range _ _ _ ih ihsecond ihstop =>
    refine List.forall_mem_append.mpr
      ⟨ih hscope, List.forall_mem_append.mpr ⟨fun s hs => ?_, fun s hs => ?_⟩⟩
    · obtain ⟨e, he, hs⟩ := mem_storesOption.mp hs
      exact ihsecond e he hscope s hs
    · obtain ⟨e, he, hs⟩ := mem_storesOption.mp hs
      exact ihstop e he hscope s hs
  | interpolated _ _ ih =>
    intro s hs
    obtain ⟨e, he, hs⟩ := mem_storesFragments.mp hs
    exact ih e he hscope s hs

/-! ## 2. The account of cells -/

/-- What is known of the cells of a machine, and which of them an evaluation stays away from. -/
structure Heap where
  /-- How many cells there are. -/
  size : Nat
  /-- From what the first cell is for one never comes to the second. -/
  clear : Nat → Nat → Prop
  /-- The first of the cells that were made together with a cell. -/
  batch : Nat → Nat
  /-- The cells that are not come to. -/
  away : Nat → Prop
  clear_lt : ∀ {a x}, clear a x → x < size
  away_lt : ∀ {x}, away x → x < size
  batch_le : ∀ a, batch a ≤ a
  clear_batch : ∀ {a x}, x < size → batch a = batch x → clear a x

namespace Heap

/-- A list with the first cell does not lead to the second, neither as its own nor otherwise. -/
def Apart (H : Heap) (a x : Nat) : Prop := H.clear a x ∧ H.batch a ≠ H.batch x

/-- The account for an evaluation that stays away from other cells. -/
def awayFrom (H : Heap) (away : Nat → Prop) (h : ∀ {x}, away x → x < H.size) : Heap :=
  { H with away, away_lt := h }

/-- The account while the element of a cell is evaluated. -/
def within (H : Heap) (a : Nat) : Heap := H.awayFrom (H.clear a) H.clear_lt

/-- No cells. -/
def empty : Heap where
  size := 0
  clear _ _ := False
  batch := id
  away _ := False
  clear_lt h := h.elim
  away_lt h := h.elim
  batch_le a := Nat.le_refl a
  clear_batch h _ := absurd h (Nat.not_lt_zero _)

/-- How an account may grow: what is known of old cells stays.  A cell comes to a new one only as it
comes to the cells that the evaluation which made the new one stayed away from. -/
structure Le (H H' : Heap) : Prop where
  size : H.size ≤ H'.size
  away : H'.away = H.away
  batch : ∀ {a}, a < H.size → H'.batch a = H.batch a
  batch_new : ∀ {x}, H.size ≤ x → x < H'.size → H.size ≤ H'.batch x
  clear : ∀ {a x}, a < H.size → x < H.size → (H'.clear a x ↔ H.clear a x)
  clear_away : ∀ {a x y}, a < H.size → H.size ≤ x → H'.clear a x → H.away y → H.Apart a y
  clear_like : ∀ {a b x}, a < H.size → b < H.size → H.size ≤ x → H'.clear a x →
    (∀ y, H.Apart a y → H.Apart b y) → H'.clear b x

namespace Le

variable {H H' H'' : Heap}

theorem refl (H : Heap) : H.Le H where
  size := Nat.le_refl _
  away := rfl
  batch _ := rfl
  batch_new h h' := absurd h' (by omega)
  clear _ _ := Iff.rfl
  clear_away _ hx h _ := absurd (H.clear_lt h) (by omega)
  clear_like _ _ hx h _ := absurd (H.clear_lt h) (by omega)

/-- What is known of old cells stays. -/
theorem apart_old (h : H.Le H') {a x : Nat} (ha : a < H.size) (hx : x < H.size) :
    H'.Apart a x ↔ H.Apart a x := by
  rw [Apart, Apart, h.clear ha hx, h.batch ha, h.batch hx]

/-- An old cell and a new one do not belong together. -/
theorem apart_new (h : H.Le H') {a x : Nat} (ha : a < H.size) (hx : H.size ≤ x) :
    H'.Apart a x ↔ H'.clear a x := by
  refine ⟨And.left, fun hclear => ⟨hclear, ?_⟩⟩
  have hbatch := h.batch_new hx (H'.clear_lt hclear)
  have hle := H.batch_le a
  rw [h.batch ha]
  omega

/-- What belongs together with an old cell is old. -/
theorem lt_of_batch (h : H.Le H') {a b : Nat} (ha : a < H.size) (hb : b < H'.size)
    (hbatch : H'.batch b = H'.batch a) : b < H.size := by
  by_contra hge
  have hnew := h.batch_new (Nat.not_lt.mp hge) hb
  have hle := H.batch_le a
  rw [hbatch, h.batch ha] at hnew
  omega

/-- A cell leads to no new cell that another does not lead to, if this is so for the old ones. -/
theorem apart_like (h : H.Le H') {a b : Nat} (ha : a < H.size) (hb : b < H.size)
    (hlike : ∀ y, H.Apart a y → H.Apart b y) {x : Nat} (hx : H'.Apart a x) : H'.Apart b x := by
  rcases Nat.lt_or_ge x H.size with hlt | hge
  · exact (h.apart_old hb hlt).mpr (hlike x ((h.apart_old ha hlt).mp hx))
  · exact (h.apart_new hb hge).mpr (h.clear_like ha hb hge hx.1 hlike)

theorem trans (h : H.Le H') (h' : H'.Le H'') : H.Le H'' where
  size := Nat.le_trans h.size h'.size
  away := h'.away.trans h.away
  batch ha := (h'.batch (Nat.lt_of_lt_of_le ha h.size)).trans (h.batch ha)
  batch_new {x} hx hlt := by
    rcases Nat.lt_or_ge x H'.size with hold | hnew
    · rw [h'.batch hold]
      exact h.batch_new hx hold
    · exact Nat.le_trans h.size (h'.batch_new hnew hlt)
  clear ha hx :=
    (h'.clear (Nat.lt_of_lt_of_le ha h.size) (Nat.lt_of_lt_of_le hx h.size)).trans (h.clear ha hx)
  clear_away {a x y} ha hx hclear hy := by
    have ha' := Nat.lt_of_lt_of_le ha h.size
    rcases Nat.lt_or_ge x H'.size with hold | hnew
    · exact h.clear_away ha hx ((h'.clear ha' hold).mp hclear) hy
    · have hapart := h'.clear_away ha' hnew hclear (h.away ▸ hy)
      exact (h.apart_old ha (H.away_lt hy)).mp hapart
  clear_like {a b x} ha hb hx hclear hlike := by
    have ha' := Nat.lt_of_lt_of_le ha h.size
    have hb' := Nat.lt_of_lt_of_le hb h.size
    rcases Nat.lt_or_ge x H'.size with hold | hnew
    · exact (h'.clear hb' hold).mpr (h.clear_like ha hb hx ((h'.clear ha' hold).mp hclear) hlike)
    · exact h'.clear_like ha' hb' hnew hclear fun y hy => h.apart_like ha hb hlike hy

/-- An evaluation inside another stays away from more. -/
theorem outside {a : Nat} (h : (H.within a).Le H') (ha : ∀ x, H.away x → H.clear a x) :
    H.Le (H'.awayFrom H.away fun hx => Nat.lt_of_lt_of_le (H.away_lt hx) h.size) where
  size := h.size
  away := rfl
  batch := h.batch
  batch_new := h.batch_new
  clear := h.clear
  clear_away hlt hx hclear hy := h.clear_away hlt hx hclear (ha _ hy)
  clear_like := h.clear_like

end Le

end Heap

namespace Store

/-- The lists with cells inside a list with cells. -/
def inner (s : Store) : List Store := storesAll s.elements ++ s.env.stores

/-- All cells of the list are accounted for. -/
def Known (H : Heap) (s : Store) : Prop := ∀ i < s.elements.length, s.cell + i < H.size

/-- The list does not lead to a cell. -/
def Apart (H : Heap) (s : Store) (x : Nat) : Prop := ∀ i < s.elements.length, H.Apart (s.cell + i) x

/-- The account is right about a list. -/
structure Sound (H : Heap) (s : Store) : Prop where
  known : s.Known H
  /-- The cells were made together. -/
  whole : ∀ i < s.elements.length, H.batch (s.cell + i) = H.batch s.cell
  inner_known : ∀ t ∈ s.inner, t.Known H
  inner_apart : ∀ i < s.elements.length, ∀ x, H.clear (s.cell + i) x → ∀ t ∈ s.inner, t.Apart H x

theorem Known.mono {H H' : Heap} {s : Store} (h : s.Known H) (hle : H.Le H') : s.Known H' :=
  fun i hi => Nat.lt_of_lt_of_le (h i hi) hle.size

theorem Apart.mono {H H' : Heap} {s : Store} (hle : H.Le H') (hs : s.Known H) {x : Nat}
    (hx : x < H.size) (h : s.Apart H x) : s.Apart H' x :=
  fun i hi => (hle.apart_old (hs i hi) hx).mpr (h i hi)

/-- What does not lead to the cells that a cell does not lead to, does so no more when the account
grows. -/
theorem Apart.like {H H' : Heap} {s : Store} (hle : H.Le H') (hs : s.Known H) {a : Nat}
    (ha : a < H.size) (h : ∀ y, H.Apart a y → s.Apart H y) {x : Nat} (hx : H'.Apart a x) :
    s.Apart H' x :=
  fun i hi => hle.apart_like ha (hs i hi) (fun y hy => h y hy i hi) hx

theorem Sound.mono {H H' : Heap} {s : Store} (h : s.Sound H) (hle : H.Le H') : s.Sound H' where
  known := h.known.mono hle
  whole i hi := by
    have h0 : s.cell < H.size := Nat.lt_of_le_of_lt (Nat.le_add_right _ i) (h.known i hi)
    rw [hle.batch (h.known i hi), hle.batch h0]
    exact h.whole i hi
  inner_known t ht := (h.inner_known t ht).mono hle
  inner_apart i hi x hx t ht := by
    have hknown := h.known i hi
    rcases Nat.lt_or_ge x H.size with hlt | hge
    · refine .mono hle (h.inner_known t ht) hlt ?_
      exact h.inner_apart i hi x ((hle.clear hknown hlt).mp hx) t ht
    · refine .like hle (h.inner_known t ht) hknown (fun y hy => ?_)
        ((hle.apart_new hknown hge).mpr hx)
      exact h.inner_apart i hi y hy.1 t ht

end Store

/-- The account is right about lists, and they do not lead to some cells. -/
def Held (H : Heap) (away : Nat → Prop) (stores : List Store) : Prop :=
  ∀ s ∈ stores, s.Sound H ∧ ∀ x, away x → s.Apart H x

theorem held_nil {H : Heap} {away : Nat → Prop} : Held H away [] :=
  fun _ hs => absurd hs List.not_mem_nil

theorem held_append {H : Heap} {away : Nat → Prop} {l l' : List Store} :
    Held H away (l ++ l') ↔ Held H away l ∧ Held H away l' := List.forall_mem_append

/-- What the account says of lists does not depend on where an evaluation stays away from. -/
theorem held_awayFrom {H : Heap} {away : Nat → Prop} {h : ∀ {x}, away x → x < H.size}
    {away' : Nat → Prop} {l : List Store} : Held (H.awayFrom away h) away' l ↔ Held H away' l := by
  constructor
  · intro hl s hs
    obtain ⟨hsound, haway⟩ := hl s hs
    exact ⟨⟨hsound.known, hsound.whole, hsound.inner_known, hsound.inner_apart⟩, haway⟩
  · intro hl s hs
    obtain ⟨hsound, haway⟩ := hl s hs
    exact ⟨⟨hsound.known, hsound.whole, hsound.inner_known, hsound.inner_apart⟩, haway⟩

theorem Held.weaken {H : Heap} {away away' : Nat → Prop} {l : List Store} (h : Held H away l)
    (hsub : ∀ x, away' x → away x) : Held H away' l :=
  fun s hs => ⟨(h s hs).1, fun x hx => (h s hs).2 x (hsub x hx)⟩

theorem Held.subset {H : Heap} {away : Nat → Prop} {l l' : List Store} (h : Held H away l)
    (hsub : l' ⊆ l) : Held H away l' := fun s hs => h s (hsub hs)

theorem Held.mono {H H' : Heap} (hle : H.Le H') {l : List Store} (h : Held H H.away l) :
    Held H' H'.away l := by
  intro s hs
  obtain ⟨hsound, haway⟩ := h s hs
  refine ⟨hsound.mono hle, fun x hx => ?_⟩
  rw [hle.away] at hx
  exact (haway x hx).mono hle hsound.known (H.away_lt hx)

/-- What a cell holds leads to no more than what the cell is for. -/
theorem Held.content {H H' : Heap} (hle : H.Le H') {a : Nat} (ha : a < H.size) {l : List Store}
    (h : Held H (H.clear a) l) : Held H' (H'.clear a) l := by
  intro s hs
  obtain ⟨hsound, haway⟩ := h s hs
  refine ⟨hsound.mono hle, fun x hx => ?_⟩
  rcases Nat.lt_or_ge x H.size with hlt | hge
  · exact (haway x ((hle.clear ha hlt).mp hx)).mono hle hsound.known hlt
  · exact .like hle hsound.known ha (fun y hy => haway y hy.1) ((hle.apart_new ha hge).mpr hx)

/-! ## 3. New lists -/

namespace Heap

variable (H : Heap) (k : Nat) (stores : List Store)

/-- What `k` new cells, for a list with these lists in it, lead to. -/
def pushClear (a x : Nat) : Prop :=
  if a < H.size then
    if x < H.size then H.clear a x else x < H.size + k ∧ ∀ y, H.away y → H.Apart a y
  else if x < H.size then ∀ t ∈ stores, t.Apart H x else x < H.size + k

/-- The new cells belong together. -/
def pushBatch (a : Nat) : Nat := if a < H.size then H.batch a else H.size

variable {H k stores} {a x : Nat}

theorem pushClear_old (ha : a < H.size) (hx : x < H.size) :
    H.pushClear k stores a x ↔ H.clear a x := by
  rw [pushClear, if_pos ha, if_pos hx]

theorem pushClear_new (ha : a < H.size) (hx : H.size ≤ x) :
    H.pushClear k stores a x ↔ x < H.size + k ∧ ∀ y, H.away y → H.Apart a y := by
  rw [pushClear, if_pos ha, if_neg (Nat.not_lt.mpr hx)]

theorem pushClear_inner (ha : H.size ≤ a) (hx : x < H.size) :
    H.pushClear k stores a x ↔ ∀ t ∈ stores, t.Apart H x := by
  rw [pushClear, if_neg (Nat.not_lt.mpr ha), if_pos hx]

theorem pushClear_own (ha : H.size ≤ a) (hx : H.size ≤ x) :
    H.pushClear k stores a x ↔ x < H.size + k := by
  rw [pushClear, if_neg (Nat.not_lt.mpr ha), if_neg (Nat.not_lt.mpr hx)]

theorem pushBatch_old (ha : a < H.size) : H.pushBatch a = H.batch a := if_pos ha

theorem pushBatch_new (ha : H.size ≤ a) : H.pushBatch a = H.size := if_neg (Nat.not_lt.mpr ha)

theorem pushClear_lt (h : H.pushClear k stores a x) : x < H.size + k := by
  rcases Nat.lt_or_ge x H.size with hx | hx
  · omega
  · rcases Nat.lt_or_ge a H.size with ha | ha
    · exact ((pushClear_new ha hx).mp h).1
    · exact (pushClear_own ha hx).mp h

theorem pushBatch_le (a : Nat) : H.pushBatch a ≤ a := by
  rcases Nat.lt_or_ge a H.size with ha | ha
  · rw [pushBatch_old ha]
    exact H.batch_le a
  · rwa [pushBatch_new ha]

theorem pushClear_batch (hx : x < H.size + k) (h : H.pushBatch a = H.pushBatch x) :
    H.pushClear k stores a x := by
  have hbatch := H.batch_le
  rcases Nat.lt_or_ge a H.size with ha | ha <;> rcases Nat.lt_or_ge x H.size with hlt | hge
  · rw [pushBatch_old ha, pushBatch_old hlt] at h
    exact (pushClear_old ha hlt).mpr (H.clear_batch hlt h)
  · rw [pushBatch_old ha, pushBatch_new hge] at h
    have := hbatch a
    omega
  · rw [pushBatch_new ha, pushBatch_old hlt] at h
    have := hbatch x
    omega
  · exact (pushClear_own ha hge).mpr hx

variable (H k stores)

/-- The account with `k` more cells, for a list with these lists in it. -/
def push : Heap where
  size := H.size + k
  clear := H.pushClear k stores
  batch := H.pushBatch
  away := H.away
  clear_lt := pushClear_lt
  away_lt hx := Nat.lt_of_lt_of_le (H.away_lt hx) (Nat.le_add_right _ _)
  batch_le := pushBatch_le
  clear_batch := pushClear_batch

theorem le_push : H.Le (H.push k stores) where
  size := Nat.le_add_right _ _
  away := rfl
  batch := pushBatch_old
  batch_new hx _ := Nat.le_of_eq (pushBatch_new hx).symm
  clear := pushClear_old
  clear_away ha hx hclear hy := ((pushClear_new ha hx).mp hclear).2 _ hy
  clear_like ha hb hx hclear hlike := by
    obtain ⟨hlt, haway⟩ := (pushClear_new ha hx).mp hclear
    exact (pushClear_new hb hx).mpr ⟨hlt, fun y hy => hlike y (haway y hy)⟩

end Heap

/-- A new list is accounted for, and it leads to no more than what is in it. -/
theorem held_push {H : Heap} {xs : List Expr} {env : Env}
    (h : Held H H.away (storesAll xs ++ env.stores)) :
    Held (H.push xs.length (storesAll xs ++ env.stores)) H.away
      (LazyList.items xs env (some H.size)).stores := by
  have hle := H.le_push xs.length (storesAll xs ++ env.stores)
  have hinner : Held (H.push xs.length (storesAll xs ++ env.stores)) H.away
      (storesAll xs ++ env.stores) := h.mono hle
  refine held_append.mpr ⟨?_, hinner⟩
  intro s hs
  obtain rfl : s = ⟨xs, env, H.size⟩ := List.mem_singleton.mp hs
  have hge : ∀ i, H.size ≤ H.size + i := fun i => Nat.le_add_right _ i
  refine ⟨⟨fun i hi => Nat.add_lt_add_left hi _, ?_, fun t ht => (hinner t ht).1.known, ?_⟩, ?_⟩
  · intro i _
    exact (Heap.pushBatch_new (hge i)).trans (Heap.pushBatch_new (Nat.le_refl _)).symm
  · intro i _ x hx t ht
    have hknown := (h t ht).1.known
    rcases Nat.lt_or_ge x H.size with hlt | hnew
    · exact (((Heap.pushClear_inner (hge i) hlt).mp hx) t ht).mono hle hknown hlt
    · -- what is in the list stays away from the cells that it is made away from
      intro j hj
      refine (hle.apart_new (hknown j hj) hnew).mpr ((Heap.pushClear_new (hknown j hj) hnew).mpr ?_)
      exact ⟨(Heap.pushClear_own (hge i) hnew).mp hx, fun y hy => (h t ht).2 y hy j hj⟩
  · intro x hx i _
    have hlt := H.away_lt hx
    have hclear : (H.push xs.length (storesAll xs ++ env.stores)).clear (H.size + i) x :=
      (Heap.pushClear_inner (hge i) hlt).mpr fun t ht => (h t ht).2 x hx
    refine ⟨hclear, ?_⟩
    show H.pushBatch (H.size + i) ≠ H.pushBatch x
    rw [Heap.pushBatch_new (hge i), Heap.pushBatch_old hlt]
    have := H.batch_le x
    omega

end LazyExpr
