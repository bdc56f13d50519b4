import LazyExpr.Proofs.Eval.Memo

/-!
# Values whose cells stand for others

Two evaluations of the same expression make two values that are alike, with cells of their own.
Where both evaluations go the same way, each cell of the second value stands for one of the first:
for the cell of the same element in the same list.  A *key* says which, by giving the cell on the
left for each cell that there is on the right.  Two cells on the right may stand for the same cell
on the left, as those of a list that is evaluated twice.

A world of this likeness is a ledger for the cells on the left, and a key; or a ledger alone, where
nothing is said of the cells on the right.

* `Expr.cells` — the cells in an expression, in order, one for each element.
* `Linked` — cells in order that stand for others.
* `Likeness.twins` — alike values whose cells are linked.
-/

namespace LazyExpr

/-! ## 1. The cells of an expression, in order -/

/-- The cells of a number of elements, one after another. -/
def cellsFrom (cell : Option Nat) : (count : Nat) → List (Option Nat)
  | 0 => []
  | count + 1 => cell :: cellsFrom (cell.map (· + 1)) count

mutual

/-- The cells of all elements in an expression, `none` for those without. -/
def Expr.cells : Expr → List (Option Nat)
  | .number _ | .bool _ | .str _ | .null | .function _ | .argument _ => []
  | .list l => l.cells
  | .range start second stop => start.cells ++ (cellsOption second ++ cellsOption stop)
  | .call function argument => function.cells ++ argument.cells
  | .lambda _ _ body => body.cells
  | .closure _ _ body env => body.cells ++ env.cells
  | .applied target arguments => target.cells ++ cellsAll arguments
  | .unary _ operand => operand.cells
  | .binary _ left right => left.cells ++ right.cells
  | .leftSection _ left => left.cells
  | .rightSection _ right => right.cells
  | .conditional condition yes no => condition.cells ++ (yes.cells ++ no.cells)
  | .interpolated fragments => cellsFragments fragments

/-- The cells in a bound of a range. -/
def cellsOption : Option Expr → List (Option Nat)
  | none => []
  | some e => e.cells

/-- The cells in expressions. -/
def cellsAll : List Expr → List (Option Nat)
  | [] => []
  | e :: es => e.cells ++ cellsAll es

/-- The cells in fragments. -/
def cellsFragments : List Fragment → List (Option Nat)
  | [] => []
  | .text _ :: rest => cellsFragments rest
  | .embedded e :: rest => e.cells ++ cellsFragments rest

/-- The cells in a list, those of its own elements first. -/
def LazyList.cells : LazyList → List (Option Nat)
  | .items elements env cell => cellsFrom cell elements.length ++ (cellsAll elements ++ env.cells)
  | .progression _ => []
  | .prepend head tail => head.cells ++ tail.cells
  | .concat first second => first.cells ++ second.cells
  | .mapped function source => function.cells ++ source.cells
  | .filtered predicate source => predicate.cells ++ source.cells
  | .dropped _ source => source.cells

/-- The cells in an environment. -/
def Env.cells : Env → List (Option Nat)
  | .top => []
  | .frame _ _ arguments parent => cellsAll arguments ++ parent.cells

end

@[simp] theorem length_cellsFrom (cell : Option Nat) (count : Nat) :
    (cellsFrom cell count).length = count := by
  induction count generalizing cell with
  | zero => rfl
  | succ count ih => rw [cellsFrom, List.length_cons, ih]

mutual

/-- There are as many cells as elements, whatever they are. -/
theorem Expr.length_cells_erase : ∀ e : Expr, e.erase.cells.length = e.cells.length
  | .number _ | .bool _ | .str _ | .null | .function _ | .argument _ => rfl
  | .list l => l.length_cells_erase
  | .range a b c => by
    simp only [Expr.erase, Expr.cells, List.length_append, a.length_cells_erase,
      length_cellsOption_erase b, length_cellsOption_erase c]
  | .call f a => by
    simp only [Expr.erase, Expr.cells, List.length_append, f.length_cells_erase,
      a.length_cells_erase]
  | .lambda _ _ body => body.length_cells_erase
  | .closure _ _ body env => by
    simp only [Expr.erase, Expr.cells, List.length_append, body.length_cells_erase,
      env.length_cells_erase]
  | .applied target arguments => by
    simp only [Expr.erase, Expr.cells, List.length_append, target.length_cells_erase,
      length_cellsAll_erase arguments]
  | .unary _ e | .leftSection _ e | .rightSection _ e => e.length_cells_erase
  | .binary _ l r => by
    simp only [Expr.erase, Expr.cells, List.length_append, l.length_cells_erase,
      r.length_cells_erase]
  | .conditional c y n => by
    simp only [Expr.erase, Expr.cells, List.length_append, c.length_cells_erase,
      y.length_cells_erase, n.length_cells_erase]
  | .interpolated fragments => length_cellsFragments_erase fragments

theorem length_cellsOption_erase :
    ∀ o : Option Expr, (cellsOption (eraseOption o)).length = (cellsOption o).length
  | none => rfl
  | some e => e.length_cells_erase

theorem length_cellsAll_erase :
    ∀ es : List Expr, (cellsAll (eraseAll es)).length = (cellsAll es).length
  | [] => rfl
  | e :: es => by
    simp only [eraseAll, cellsAll, List.length_append, e.length_cells_erase,
      length_cellsAll_erase es]

theorem length_cellsFragments_erase :
    ∀ fs : List Fragment, (cellsFragments (eraseFragments fs)).length = (cellsFragments fs).length
  | [] => rfl
  | .text _ :: fs => length_cellsFragments_erase fs
  | .embedded e :: fs => by
    simp only [eraseFragments, cellsFragments, List.length_append, e.length_cells_erase,
      length_cellsFragments_erase fs]

theorem LazyList.length_cells_erase : ∀ l : LazyList, l.erase.cells.length = l.cells.length
  | .items elements env _ => by
    simp only [LazyList.erase, LazyList.cells, List.length_append, length_cellsFrom,
      eraseAll_eq_map, List.length_map, env.length_cells_erase]
    rw [← eraseAll_eq_map, length_cellsAll_erase elements]
  | .progression _ => rfl
  | .prepend h t => by
    simp only [LazyList.erase, LazyList.cells, List.length_append, h.length_cells_erase,
      t.length_cells_erase]
  | .concat a b => by
    simp only [LazyList.erase, LazyList.cells, List.length_append, a.length_cells_erase,
      b.length_cells_erase]
  | .mapped f s | .filtered f s => by
    simp only [LazyList.erase, LazyList.cells, List.length_append, f.length_cells_erase,
      s.length_cells_erase]
  | .dropped _ s => s.length_cells_erase

theorem Env.length_cells_erase : ∀ env : Env, env.erase.cells.length = env.cells.length
  | .top => rfl
  | .frame _ _ arguments parent => by
    simp only [Env.erase, Env.cells, List.length_append, length_cellsAll_erase arguments,
      parent.length_cells_erase]

end

theorem Expr.Alike.length_cells {e e' : Expr} (h : e.Alike e') :
    e.cells.length = e'.cells.length := by
  rw [← e.length_cells_erase, h, e'.length_cells_erase]

theorem LazyList.Alike.length_cells {l l' : LazyList} (h : l.Alike l') :
    l.cells.length = l'.cells.length := by
  rw [← l.length_cells_erase, h, l'.length_cells_erase]

theorem Env.Alike.length_cells {env env' : Env} (h : env.Alike env') :
    env.cells.length = env'.cells.length := by
  rw [← env.length_cells_erase, h, env'.length_cells_erase]

theorem length_cellsAll {es es' : List Expr} (h : List.Forall₂ Expr.Alike es es') :
    (cellsAll es).length = (cellsAll es').length := by
  rw [← length_cellsAll_erase, eraseAll_of_alike h, length_cellsAll_erase]

theorem length_cellsOption {o o' : Option Expr} (h : Option.Rel Expr.Alike o o') :
    (cellsOption o).length = (cellsOption o').length := by
  cases h with
  | none => rfl
  | some h => exact h.length_cells

/-- The own cells of a list are those that its claims are about. -/
theorem reduceOption_cellsFrom (env : Env) : ∀ (xs : List Expr) (cell : Option Nat),
    (cellsFrom cell xs.length).reduceOption = (cellClaims env xs cell).map Claim.address
  | [], none | [], some _ => rfl
  | _ :: xs, none => by
    rw [List.length_cons, cellsFrom, List.reduceOption_cons_of_none]
    refine (reduceOption_cellsFrom env xs none).trans ?_
    cases xs <;> rfl
  | x :: xs, some a => by
    rw [List.length_cons, cellsFrom, List.reduceOption_cons_of_some]
    exact congrArg (a :: ·) (reduceOption_cellsFrom env xs (some (a + 1)))

mutual

/-- The cells of an expression are those that its claims are about. -/
theorem Expr.reduceOption_cells : ∀ e : Expr, e.cells.reduceOption = e.claims.map Claim.address
  | .number _ | .bool _ | .str _ | .null | .function _ | .argument _ => rfl
  | .list l => l.reduceOption_cells
  | .range a b c => by
    simp only [Expr.claims, Expr.cells, List.reduceOption_append, List.map_append,
      a.reduceOption_cells, reduceOption_cellsOption b, reduceOption_cellsOption c]
  | .call f a => by
    simp only [Expr.claims, Expr.cells, List.reduceOption_append, List.map_append,
      f.reduceOption_cells, a.reduceOption_cells]
  | .lambda _ _ body => body.reduceOption_cells
  | .closure _ _ body env => by
    simp only [Expr.claims, Expr.cells, List.reduceOption_append, List.map_append,
      body.reduceOption_cells, env.reduceOption_cells]
  | .applied target arguments => by
    simp only [Expr.claims, Expr.cells, List.reduceOption_append, List.map_append,
      target.reduceOption_cells, reduceOption_cellsAll arguments]
  | .unary _ e | .leftSection _ e | .rightSection _ e => e.reduceOption_cells
  | .binary _ l r => by
    simp only [Expr.claims, Expr.cells, List.reduceOption_append, List.map_append,
      l.reduceOption_cells, r.reduceOption_cells]
  | .conditional c y n => by
    simp only [Expr.claims, Expr.cells, List.reduceOption_append, List.map_append,
      c.reduceOption_cells, y.reduceOption_cells, n.reduceOption_cells]
  | .interpolated fragments => reduceOption_cellsFragments fragments

theorem reduceOption_cellsOption :
    ∀ o : Option Expr, (cellsOption o).reduceOption = (claimsOption o).map Claim.address
  | none => rfl
  | some e => e.reduceOption_cells

theorem reduceOption_cellsAll :
    ∀ es : List Expr, (cellsAll es).reduceOption = (claimsAll es).map Claim.address
  | [] => rfl
  | e :: es => by
    simp only [claimsAll, cellsAll, List.reduceOption_append, List.map_append, e.reduceOption_cells,
      reduceOption_cellsAll es]

theorem reduceOption_cellsFragments :
    ∀ fs : List Fragment, (cellsFragments fs).reduceOption = (claimsFragments fs).map Claim.address
  | [] => rfl
  | .text _ :: fs => reduceOption_cellsFragments fs
  | .embedded e :: fs => by
    simp only [claimsFragments, cellsFragments, List.reduceOption_append, List.map_append,
      e.reduceOption_cells, reduceOption_cellsFragments fs]

theorem LazyList.reduceOption_cells :
    ∀ l : LazyList, l.cells.reduceOption = l.claims.map Claim.address
  | .items elements env cell => by
    simp only [LazyList.claims, LazyList.cells, List.reduceOption_append, List.map_append,
      reduceOption_cellsFrom env, reduceOption_cellsAll elements, env.reduceOption_cells]
  | .progression _ => rfl
  | .prepend h t => by
    simp only [LazyList.claims, LazyList.cells, List.reduceOption_append, List.map_append,
      h.reduceOption_cells, t.reduceOption_cells]
  | .concat a b => by
    simp only [LazyList.claims, LazyList.cells, List.reduceOption_append, List.map_append,
      a.reduceOption_cells, b.reduceOption_cells]
  | .mapped f s | .filtered f s => by
    simp only [LazyList.claims, LazyList.cells, List.reduceOption_append, List.map_append,
      f.reduceOption_cells, s.reduceOption_cells]
  | .dropped _ s => s.reduceOption_cells

theorem Env.reduceOption_cells : ∀ env : Env, env.cells.reduceOption = env.claims.map Claim.address
  | .top => rfl
  | .frame _ _ arguments parent => by
    simp only [Env.claims, Env.cells, List.reduceOption_append, List.map_append,
      reduceOption_cellsAll arguments, parent.reduceOption_cells]

end

/-! ## 2. Cells that stand for others -/

/-- For each cell on the right the cell on the left that it stands for. -/
abbrev Key := List Nat

theorem Key.get_mono {Λ Λ' : Key} (h : Λ <+: Λ') {a b : Nat} (hab : Λ[b]? = some a) :
    Λ'[b]? = some a := by
  obtain ⟨new, rfl⟩ := h
  obtain ⟨hlt, -⟩ := List.getElem?_eq_some_iff.mp hab
  exact (List.getElem?_append_left hlt).trans hab

/-- In order, what is on the right stands for what is on the left; nothing is said without a key. -/
def Linked (key : Option Key) (cells cells' : List (Option Nat)) : Prop :=
  ∀ Λ ∈ key, List.Forall₂ (Option.Rel fun a b : Nat => Λ[b]? = some a) cells cells'

/-- A key may grow, or be given up. -/
def KeyLe : Option Key → Option Key → Prop
  | _, none => True
  | some Λ, some Λ' => Λ <+: Λ'
  | none, some _ => False

theorem KeyLe.refl : ∀ key : Option Key, KeyLe key key
  | none => trivial
  | some _ => List.prefix_rfl

theorem KeyLe.trans : ∀ {k₁ k₂ k₃ : Option Key}, KeyLe k₁ k₂ → KeyLe k₂ k₃ → KeyLe k₁ k₃
  | _, _, none, _, _ => trivial
  | some _, some _, some _, h, h' => List.IsPrefix.trans h h'

theorem forall₂_append_iff {α β : Type} {R : α → β → Prop} {as bs : List α} {as' bs' : List β}
    (h : as.length = as'.length) :
    List.Forall₂ R (as ++ bs) (as' ++ bs') ↔ List.Forall₂ R as as' ∧ List.Forall₂ R bs bs' := by
  induction as generalizing as' with
  | nil =>
    obtain rfl := List.eq_nil_of_length_eq_zero h.symm
    simp
  | cons a as ih =>
    cases as' with
    | nil => cases h
    | cons a' as' =>
      simp only [List.cons_append, List.forall₂_cons, ih (Nat.succ.inj h), and_assoc]

namespace Linked

variable {key key' : Option Key} {cells cells' : List (Option Nat)}

theorem idle : Linked none cells cells' := by
  intro Λ hΛ
  cases hΛ

theorem nil : Linked key [] [] := fun _ _ => .nil

theorem at_key {Λ : Key} (hΛ : Λ ∈ key) (hl : Linked key cells cells') :
    Linked (some Λ) cells cells' := by
  cases hΛ
  exact hl

theorem append_iff {as bs as' bs' : List (Option Nat)} (h : as.length = as'.length) :
    Linked key (as ++ bs) (as' ++ bs') ↔ Linked key as as' ∧ Linked key bs bs' := by
  simp only [Linked, forall₂_append_iff h]
  exact ⟨fun hl => ⟨fun Λ hΛ => (hl Λ hΛ).1, fun Λ hΛ => (hl Λ hΛ).2⟩,
    fun hl Λ hΛ => ⟨hl.1 Λ hΛ, hl.2 Λ hΛ⟩⟩

theorem mono (h : KeyLe key key') (hl : Linked key cells cells') : Linked key' cells cells' := by
  intro Λ' hΛ'
  cases hΛ'
  cases key with
  | none => cases h
  | some Λ =>
    refine (hl Λ rfl).imp fun a b hab => ?_
    cases hab with
    | none => exact .none
    | some hab => exact .some (Key.get_mono h hab)

end Linked

/-! ## 3. Twins -/

/-- A ledger for the cells on the left, and a key for those on the right. -/
abbrev TwinWorld := Ledger × Option Key

/-- The cells on the left are in the ledger, and those on the right stand for them. -/
def Carried (w : TwinWorld) (claims : List Claim) (cells cells' : List (Option Nat)) : Prop :=
  (∀ c ∈ claims, w.1.Owns c) ∧ Linked w.2 cells cells'

/-- Alike values with cells that are carried. -/
def Twin (w : TwinWorld) (v v' : Expr) : Prop := v.Alike v' ∧ Carried w v.claims v.cells v'.cells

/-- Alike environments with cells that are carried. -/
def EnvTwin (w : TwinWorld) (env env' : Env) : Prop :=
  env.Alike env' ∧ Carried w env.claims env.cells env'.cells

/-- Worlds grow. -/
def TwinWorld.Le (w w' : TwinWorld) : Prop := w.1 <+: w'.1 ∧ KeyLe w.2 w'.2

theorem TwinWorld.Le.refl (w : TwinWorld) : w.Le w := ⟨List.prefix_rfl, KeyLe.refl w.2⟩

theorem TwinWorld.Le.trans {w₁ w₂ w₃ : TwinWorld} (h : w₁.Le w₂) (h' : w₂.Le w₃) : w₁.Le w₃ :=
  ⟨h.1.trans h'.1, h.2.trans h'.2⟩

namespace Carried

variable {w w' : TwinWorld} {claims : List Claim} {cells cells' : List (Option Nat)}

theorem mono (h : w.Le w') (hc : Carried w claims cells cells') : Carried w' claims cells cells' :=
  ⟨fun c hmem => (hc.1 c hmem).mono h.1, hc.2.mono h.2⟩

theorem nil : Carried w [] [] [] := ⟨by simp, .nil⟩

theorem append_iff {cs ds : List Claim} {as bs as' bs' : List (Option Nat)}
    (h : as.length = as'.length) : Carried w (cs ++ ds) (as ++ bs) (as' ++ bs') ↔
      Carried w cs as as' ∧ Carried w ds bs bs' := by
  simp only [Carried, List.forall_mem_append, Linked.append_iff h]
  exact ⟨fun ⟨⟨h₁, h₂⟩, h₃, h₄⟩ => ⟨⟨h₁, h₃⟩, h₂, h₄⟩, fun ⟨⟨h₁, h₃⟩, h₂, h₄⟩ => ⟨⟨h₁, h₂⟩, h₃, h₄⟩⟩

end Carried

section Twins

variable {w w' : TwinWorld}

theorem Twin.mono (h : w.Le w') {v v' : Expr} (hv : Twin w v v') : Twin w' v v' :=
  ⟨hv.1, hv.2.mono h⟩

theorem EnvTwin.mono (h : w.Le w') {env env' : Env} (henv : EnvTwin w env env') :
    EnvTwin w' env env' :=
  ⟨henv.1, henv.2.mono h⟩

theorem EnvTwin.top : EnvTwin w .top .top := ⟨rfl, .nil⟩

/-- What has no cells is its own twin. -/
theorem Twin.of_atom {v : Expr} (h : v.isAtom = true) : Twin w v v := by
  refine ⟨rfl, ?_⟩
  rw [Expr.claims_atom h]
  cases v <;> first | exact .nil | cases h

theorem twins_iff {vs vs' : List Expr} : List.Forall₂ (Twin w) vs vs' ↔
    List.Forall₂ Expr.Alike vs vs' ∧ Carried w (claimsAll vs) (cellsAll vs) (cellsAll vs') := by
  constructor
  · intro h
    induction h with
    | nil => exact ⟨.nil, .nil⟩
    | cons hv _ ih =>
      exact ⟨.cons hv.1 ih.1, (Carried.append_iff hv.1.length_cells).mpr ⟨hv.2, ih.2⟩⟩
  · rintro ⟨h, hc⟩
    induction h with
    | nil => exact .nil
    | cons hv _ ih =>
      obtain ⟨hc, hcs⟩ := (Carried.append_iff hv.length_cells).mp hc
      exact .cons ⟨hv, hc⟩ (ih hcs)

theorem EnvTwin.frame (d : Nat) (ps : List String) {args args' : List Expr} {env env' : Env}
    (hargs : List.Forall₂ (Twin w) args args') (henv : EnvTwin w env env') :
    EnvTwin w (.frame d ps args env) (.frame d ps args' env') := by
  obtain ⟨halike, hcarried⟩ := twins_iff.mp hargs
  refine ⟨?_, (Carried.append_iff (length_cellsAll halike)).mpr ⟨hcarried, henv.2⟩⟩
  show Env.frame _ _ _ _ = Env.frame _ _ _ _
  rw [eraseAll_of_alike halike, henv.1]

/-- One layer of two environments. -/
theorem EnvTwin.of_frame {d : Nat} {ps : List String} {args : List Expr} {env env₀ : Env}
    (h : EnvTwin w (.frame d ps args env) env₀) : ∃ args' env', env₀ = .frame d ps args' env' ∧
      List.Forall₂ (Twin w) args args' ∧ EnvTwin w env env' := by
  obtain ⟨halike, hcarried⟩ := h
  unfold Env.Alike at halike
  cases env₀ with
  | top => simp only [Env.erase, reduceCtorEq] at halike
  | frame d' ps' args' env' =>
    simp only [Env.erase, Env.frame.injEq] at halike
    obtain ⟨rfl, rfl, hargs, henv⟩ := halike
    have hargs := alike_of_eraseAll hargs
    obtain ⟨h₁, h₂⟩ := (Carried.append_iff (length_cellsAll hargs)).mp hcarried
    exact ⟨args', env', rfl, twins_iff.mpr ⟨hargs, h₁⟩, henv, h₂⟩

theorem EnvTwin.orElse {own own' here here' : Env} (hown : EnvTwin w own own')
    (h : EnvTwin w here here') : EnvTwin w (own.orElse here) (own'.orElse here') := by
  cases own with
  | top =>
    have halike := hown.1
    unfold Env.Alike at halike
    cases own' <;> simp only [Env.erase, reduceCtorEq] at halike
    exact h
  | frame =>
    obtain ⟨args', env', rfl, -, -⟩ := hown.of_frame
    exact hown

theorem rel_getElem? {α β : Type} {R : α → β → Prop} {as : List α} {bs : List β}
    (h : List.Forall₂ R as bs) (i : Nat) : Option.Rel R as[i]? bs[i]? := by
  induction h generalizing i with
  | nil => exact .none
  | cons hab _ ih =>
    cases i with
    | zero => exact .some hab
    | succ i => simpa using ih i

/-- Where one finds an argument, so does the other, and the two are twins. -/
theorem EnvTwin.lookup (slot : Slot) : ∀ {env env' : Env}, EnvTwin w env env' →
    Option.Rel (Twin w) (env.lookup slot) (env'.lookup slot)
  | .top, env', h => by
    have halike := h.1
    unfold Env.Alike at halike
    cases env' <;> simp only [Env.erase, reduceCtorEq] at halike
    exact .none
  | .frame d ps args env, _, h => by
    obtain ⟨args', env', rfl, hargs, henv⟩ := h.of_frame
    simp only [Env.lookup]
    split
    · exact rel_getElem? hargs slot.index
    · split
      · exact .none
      · exact lookup slot henv

end Twins

/-! ## 4. The likeness -/

section Layers

variable {w : TwinWorld}

theorem twin_fragments {fs fs' : List Fragment} (h : List.Forall₂ (FragmentLike Expr.Alike) fs fs')
    (hc : Carried w (claimsFragments fs) (cellsFragments fs) (cellsFragments fs')) :
    List.Forall₂ (FragmentLike (Twin w)) fs fs' := by
  induction h with
  | nil => exact .nil
  | cons hf _ ih =>
    cases hf with
    | text t => exact .cons (.text t) (ih hc)
    | embedded he =>
      obtain ⟨hc, hcs⟩ := (Carried.append_iff he.length_cells).mp hc
      exact .cons (.embedded ⟨he, hc⟩) (ih hcs)

theorem twin_bounds {o o' : Option Expr} (h : Option.Rel Expr.Alike o o')
    (hc : Carried w (claimsOption o) (cellsOption o) (cellsOption o')) :
    Option.Rel (Twin w) o o' := by
  cases h with
  | none => exact .none
  | some h => exact .some ⟨h, hc⟩

/-- What is carried for a list of elements: its own cells, its elements and its environment. -/
theorem Carried.of_items {xs xs' : List Expr} {env env' : Env} {cell cell' : Option Nat}
    (hxs : List.Forall₂ Expr.Alike xs xs') (henv : env.Alike env')
    (hc : Carried w (LazyList.items xs env cell).claims (LazyList.items xs env cell).cells
      (LazyList.items xs' env' cell').cells) :
    Carried w (cellClaims env xs cell) (cellsFrom cell xs.length) (cellsFrom cell' xs'.length) ∧
      List.Forall₂ (Twin w) xs xs' ∧ EnvTwin w env env' := by
  have hlength : (cellsFrom cell xs.length).length = (cellsFrom cell' xs'.length).length := by
    simp [hxs.length_eq]
  obtain ⟨hown, hrest⟩ := (Carried.append_iff hlength).mp hc
  obtain ⟨helements, hclaims⟩ := (Carried.append_iff (length_cellsAll hxs)).mp hrest
  exact ⟨hown, twins_iff.mpr ⟨hxs, helements⟩, henv, hclaims⟩

/-- A list of elements is carried with its own cells, its elements and its environment. -/
theorem Twin.items {xs xs' : List Expr} {env env' : Env} {cell cell' : Option Nat}
    (hown : Carried w (cellClaims env xs cell) (cellsFrom cell xs.length)
      (cellsFrom cell' xs'.length))
    (hxs : List.Forall₂ (Twin w) xs xs') (henv : EnvTwin w env env') :
    Twin w (.list (.items xs env cell)) (.list (.items xs' env' cell')) := by
  obtain ⟨halike, hcarried⟩ := twins_iff.mp hxs
  have hlength : (cellsFrom cell xs.length).length = (cellsFrom cell' xs'.length).length := by
    simp [hxs.length_eq]
  refine ⟨congrArg Expr.list (items_alike halike henv.1 cell cell'), ?_⟩
  exact (Carried.append_iff hlength).mpr
    ⟨hown, (Carried.append_iff (length_cellsAll halike)).mpr ⟨hcarried, henv.2⟩⟩

/-- The cells of a list without its first element. -/
theorem Carried.tail {x x' : Expr} {xs xs' : List Expr} {env : Env} {cell cell' : Option Nat}
    (h : Carried w (cellClaims env (x :: xs) cell) (cellsFrom cell (x :: xs).length)
      (cellsFrom cell' (x' :: xs').length)) :
    Carried w (cellClaims env xs (cell.map (· + 1))) (cellsFrom (cell.map (· + 1)) xs.length)
      (cellsFrom (cell'.map (· + 1)) xs'.length) := by
  refine ⟨fun c hc => h.1 c (cellClaims_tail hc), fun Λ hΛ => ?_⟩
  exact (List.forall₂_cons.mp (h.2 Λ hΛ)).2

/-- Twin lists of elements. -/
theorem Twin.of_items {xs xs' : List Expr} {env env' : Env} {cell cell' : Option Nat}
    (h : Twin w (.list (.items xs env cell)) (.list (.items xs' env' cell'))) :
    Carried w (cellClaims env xs cell) (cellsFrom cell xs.length) (cellsFrom cell' xs'.length) ∧
      List.Forall₂ (Twin w) xs xs' ∧ EnvTwin w env env' := by
  cases LazyList.Alike.layer (Expr.list.inj h.1) with
  | items _ _ hxs henv => exact h.2.of_items hxs henv

/-- What twin lists show. -/
theorem Twin.list_seen {l l' : LazyList} (h : l.Alike l')
    (hc : Carried w l.claims l.cells l'.cells) :
    Seen (fun here here' e e' => EnvTwin w here here' ∧ Twin w e e') (Twin w) (.list l)
      (.list l') := by
  have list : ∀ {l l' : LazyList}, l.Alike l' → Carried w l.claims l.cells l'.cells →
      Twin w (.list l) (.list l') := fun h hc => ⟨congrArg Expr.list h, hc⟩
  cases h.layer with
  | @items xs xs' env env' cell cell' hxs henv =>
    obtain ⟨hown, htwins, henvs⟩ := hc.of_items hxs henv
    cases htwins with
    | nil => exact .nil env env' cell cell'
    | cons hx htail => exact .cons ⟨henvs, hx⟩ (.items hown.tail htail henvs)
  | progression range => exact .built (.progression range)
  | prepend hh ht =>
    obtain ⟨h₁, h₂⟩ := (Carried.append_iff hh.length_cells).mp hc
    exact .built (.prepend ⟨hh, h₁⟩ (list ht h₂))
  | concat ha hb =>
    obtain ⟨h₁, h₂⟩ := (Carried.append_iff ha.length_cells).mp hc
    exact .built (.concat (list ha h₁) (list hb h₂))
  | mapped hf hs =>
    obtain ⟨h₁, h₂⟩ := (Carried.append_iff hf.length_cells).mp hc
    exact .built (.mapped ⟨hf, h₁⟩ (list hs h₂))
  | filtered hp hs =>
    obtain ⟨h₁, h₂⟩ := (Carried.append_iff hp.length_cells).mp hc
    exact .built (.filtered ⟨hp, h₁⟩ (list hs h₂))
  | dropped count hs => exact .built (.dropped count (list hs hc))

end Layers

/-- Twin expressions and values. -/
def Likeness.twins : Likeness Env.lookup Env.lookup where
  World := TwinWorld
  le := TwinWorld.Le
  le_refl := .refl
  le_trans := .trans
  env := EnvTwin
  code w here here' e e' := EnvTwin w here here' ∧ Twin w e e'
  value := Twin
  env_mono h henv := henv.mono h
  code_mono h hcode := ⟨hcode.1.mono h, hcode.2.mono h⟩
  value_mono h hv := hv.mono h
  env_top _ := .top
  code_top h := ⟨.top, h⟩
  code_layer := by
    rintro w here here' e e' ⟨henv, he⟩
    obtain ⟨halike, hc⟩ := he
    cases halike.layer with
    | atom h => exact .done (Expr.isDone_of_atom h) (Expr.isDone_of_atom h) ⟨halike, hc⟩
    | function f => exact .function f
    | argument slot =>
      have hfound := EnvTwin.lookup slot henv
      cases hl : here.lookup slot with
      | none =>
        cases hr : here'.lookup slot with
        | none => exact .stray hl hr rfl
        | some _ => rw [hl, hr] at hfound; cases hfound
      | some v =>
        cases hr : here'.lookup slot with
        | none => rw [hl, hr] at hfound; cases hfound
        | some v' =>
          rw [hl, hr] at hfound
          cases hfound with
          | some hv => exact .bound hl hr hv
    | list h =>
      cases h.layer with
      | items cell cell' hxs hown =>
        obtain ⟨-, htwins, hown⟩ := hc.of_items hxs hown
        have henv' := hown.orElse henv
        exact .literal cell cell' henv' (htwins.imp fun _ _ hx => ⟨henv', hx⟩)
      | _ => exact .done rfl rfl ⟨halike, hc⟩
    | range ha hb hstop =>
      obtain ⟨h₁, h₂⟩ := (Carried.append_iff ha.length_cells).mp hc
      obtain ⟨h₂, h₃⟩ := (Carried.append_iff (length_cellsOption hb)).mp h₂
      refine .range ⟨henv, ha, h₁⟩ ?_ ?_
      · cases twin_bounds hb h₂ with
        | none => exact .none
        | some h => exact .some ⟨henv, h⟩
      · cases twin_bounds hstop h₃ with
        | none => exact .none
        | some h => exact .some ⟨henv, h⟩
    | call hf ha =>
      obtain ⟨h₁, h₂⟩ := (Carried.append_iff hf.length_cells).mp hc
      exact .call ⟨henv, hf, h₁⟩ ⟨henv, ha, h₂⟩
    | lambda d ps h =>
      refine .lambda ⟨?_, (Carried.append_iff h.length_cells).mpr ⟨hc, henv.2⟩⟩
      show Expr.closure _ _ _ _ = Expr.closure _ _ _ _
      rw [h, henv.1]
    | closure => exact .done rfl rfl ⟨halike, hc⟩
    | applied => exact .done rfl rfl ⟨halike, hc⟩
    | unary op h => exact .unary op ⟨henv, h, hc⟩
    | binary op hl hr =>
      obtain ⟨h₁, h₂⟩ := (Carried.append_iff hl.length_cells).mp hc
      exact .binary op ⟨henv, hl, h₁⟩ ⟨henv, hr, h₂⟩
    | leftSection op h => exact .leftSection op ⟨henv, h, hc⟩
    | rightSection op h => exact .rightSection op ⟨henv, h, hc⟩
    | conditional hcond hy hn =>
      obtain ⟨h₁, h₂⟩ := (Carried.append_iff hcond.length_cells).mp hc
      obtain ⟨h₂, h₃⟩ := (Carried.append_iff hy.length_cells).mp h₂
      exact .conditional ⟨henv, hcond, h₁⟩ ⟨henv, hy, h₂⟩ ⟨henv, hn, h₃⟩
    | interpolated h =>
      refine .interpolated ((twin_fragments h hc).imp fun f f' hf => ?_)
      cases hf with
      | text t => exact .text t
      | embedded he => exact .embedded ⟨henv, he⟩
  value_built := by
    intro w v v' h
    cases h with
    | atom h => exact .of_atom h
    | function f => exact ⟨rfl, .nil⟩
    | applied ht ha =>
      obtain ⟨halike, hcarried⟩ := twins_iff.mp ha
      refine ⟨?_, (Carried.append_iff ht.1.length_cells).mpr ⟨ht.2, hcarried⟩⟩
      show Expr.applied _ _ = Expr.applied _ _
      rw [ht.1, eraseAll_of_alike halike]
    | leftSection op h => exact ⟨congrArg (Expr.leftSection op) h.1, h.2⟩
    | rightSection op h => exact ⟨congrArg (Expr.rightSection op) h.1, h.2⟩
    | progression range => exact ⟨rfl, .nil⟩
    | empty => exact ⟨rfl, .nil⟩
    | prepend hh ht =>
      refine ⟨?_, (Carried.append_iff hh.1.length_cells).mpr ⟨hh.2, ht.2⟩⟩
      show Expr.list (.prepend _ _) = Expr.list (.prepend _ _)
      rw [hh.1, Expr.list.inj ht.1]
    | concat ha hb =>
      refine ⟨?_, (Carried.append_iff ha.1.length_cells).mpr ⟨ha.2, hb.2⟩⟩
      show Expr.list (.concat _ _) = Expr.list (.concat _ _)
      rw [Expr.list.inj ha.1, Expr.list.inj hb.1]
    | mapped hf hs =>
      refine ⟨?_, (Carried.append_iff hf.1.length_cells).mpr ⟨hf.2, hs.2⟩⟩
      show Expr.list (.mapped _ _) = Expr.list (.mapped _ _)
      rw [hf.1, Expr.list.inj hs.1]
    | filtered hp hs =>
      refine ⟨?_, (Carried.append_iff hp.1.length_cells).mpr ⟨hp.2, hs.2⟩⟩
      show Expr.list (.filtered _ _) = Expr.list (.filtered _ _)
      rw [hp.1, Expr.list.inj hs.1]
    | dropped count hs =>
      refine ⟨?_, hs.2⟩
      show Expr.list (.dropped _ _) = Expr.list (.dropped _ _)
      rw [Expr.list.inj hs.1]
  value_seen := by
    rintro w v v' ⟨halike, hc⟩
    cases halike.layer with
    | atom h => exact .built (.atom h)
    | function f => exact .built (.function f)
    | applied ht ha =>
      obtain ⟨h₁, h₂⟩ := (Carried.append_iff ht.length_cells).mp hc
      exact .built (.applied ⟨ht, h₁⟩ (twins_iff.mpr ⟨ha, h₂⟩))
    | leftSection op h => exact .built (.leftSection op ⟨h, hc⟩)
    | rightSection op h => exact .built (.rightSection op ⟨h, hc⟩)
    | closure d ps h henv =>
      obtain ⟨h₁, h₂⟩ := (Carried.append_iff h.length_cells).mp hc
      exact .closure rfl fun args args' hargs _ => ⟨.frame d ps hargs ⟨henv, h₂⟩, h, h₁⟩
    | list h => exact Twin.list_seen h hc
    | _ => exact .inert rfl rfl

end LazyExpr
