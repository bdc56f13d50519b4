import LazyExpr.Proofs.Expr.Erasure

/-!
# Evaluations that differ in their cells

To an evaluator, what is equal up to cells is the same.  When elements are remembered, more has to
be known about cells: each is for one element expression in one environment, and no other list has
it for something else.  `Expr.claims` collects what the cells of an expression are for, and the
likeness of this module carries any property of these claims along, on either side.

* `Expr.Alike.layer` — what is alike has the same form and parts that are alike.
* `Likeness.alike` — alike expressions and values, with properties of their claims that may grow.
-/

namespace LazyExpr

/-! ## 1. What cells are for -/

/-- A cell is for the value of an expression in an environment. -/
structure Claim where
  address : Nat
  element : Expr
  env : Env

/-- The cells of a list of elements, one after another. -/
def cellClaims (env : Env) : List Expr → Option Nat → List Claim
  | [], _ => []
  | _ :: _, none => []
  | x :: xs, some cell => ⟨cell, x, env⟩ :: cellClaims env xs (some (cell + 1))

mutual

/-- All cells in an expression. -/
def Expr.claims : Expr → List Claim
  | .number _ | .bool _ | .str _ | .null | .function _ | .argument _ => []
  | .list l => l.claims
  | .range start second stop => start.claims ++ (claimsOption second ++ claimsOption stop)
  | .call function argument => function.claims ++ argument.claims
  | .lambda _ _ body => body.claims
  | .closure _ _ body env => body.claims ++ env.claims
  | .applied target arguments => target.claims ++ claimsAll arguments
  | .unary _ operand => operand.claims
  | .binary _ left right => left.claims ++ right.claims
  | .leftSection _ left => left.claims
  | .rightSection _ right => right.claims
  | .conditional condition yes no => condition.claims ++ (yes.claims ++ no.claims)
  | .interpolated fragments => claimsFragments fragments

/-- All cells in a bound of a range. -/
def claimsOption : Option Expr → List Claim
  | none => []
  | some e => e.claims

/-- All cells in expressions. -/
def claimsAll : List Expr → List Claim
  | [] => []
  | e :: es => e.claims ++ claimsAll es

/-- All cells in fragments. -/
def claimsFragments : List Fragment → List Claim
  | [] => []
  | .text _ :: rest => claimsFragments rest
  | .embedded e :: rest => e.claims ++ claimsFragments rest

/-- All cells in a list, its own first. -/
def LazyList.claims : LazyList → List Claim
  | .items elements env cell => cellClaims env elements cell ++ (claimsAll elements ++ env.claims)
  | .progression _ => []
  | .prepend head tail => head.claims ++ tail.claims
  | .concat first second => first.claims ++ second.claims
  | .mapped function source => function.claims ++ source.claims
  | .filtered predicate source => predicate.claims ++ source.claims
  | .dropped _ source => source.claims

/-- All cells in an environment. -/
def Env.claims : Env → List Claim
  | .top => []
  | .frame _ _ arguments parent => claimsAll arguments ++ parent.claims

end

theorem mem_claimsAll {c : Claim} {es : List Expr} : c ∈ claimsAll es ↔ ∃ e ∈ es, c ∈ e.claims := by
  induction es with
  | nil => simp [claimsAll]
  | cons e es ih => simp [claimsAll, ih]

theorem mem_claimsFragments {c : Claim} {fs : List Fragment} :
    c ∈ claimsFragments fs ↔ ∃ e, .embedded e ∈ fs ∧ c ∈ e.claims := by
  induction fs with
  | nil => simp [claimsFragments]
  | cons f fs ih =>
    cases f with
    | text => simp [claimsFragments, ih]
    | embedded e => simp [claimsFragments, ih, or_and_right, exists_or]

/-- An argument has no cells that its environment has not. -/
theorem Env.claims_of_lookup {slot : Slot} {v : Expr} : ∀ {env : Env}, env.lookup slot = some v →
    ∀ c ∈ v.claims, c ∈ env.claims
  | .frame depth parameters arguments parent, h, c, hc => by
    rw [Env.lookup] at h
    rw [Env.claims, List.mem_append, mem_claimsAll]
    split at h
    · exact .inl ⟨v, List.mem_of_getElem? h, hc⟩
    · split at h
      · cases h
      · exact .inr (Env.claims_of_lookup h c hc)

/-! ## 2. Layers of what is alike -/

/-- Environments that are equal up to cells. -/
def Env.Alike (env env' : Env) : Prop := env.erase = env'.erase

/-- Lists that are equal up to cells. -/
def LazyList.Alike (l l' : LazyList) : Prop := l.erase = l'.erase

/-- One layer of two expressions that are alike. -/
inductive AlikeLayer : Expr → Expr → Prop where
  | atom {e : Expr} (h : e.isAtom = true) : AlikeLayer e e
  | function (f : Function) : AlikeLayer (.function f) (.function f)
  | argument (slot : Slot) : AlikeLayer (.argument slot) (.argument slot)
  | list {l l' : LazyList} (h : l.Alike l') : AlikeLayer (.list l) (.list l')
  | range {a a' : Expr} {b b' c c' : Option Expr} (ha : a.Alike a')
    (hb : Option.Rel Expr.Alike b b')
    (hc : Option.Rel Expr.Alike c c') : AlikeLayer (.range a b c) (.range a' b' c')
  | call {f f' a a' : Expr} (hf : f.Alike f') (ha : a.Alike a') :
    AlikeLayer (.call f a) (.call f' a')
  | lambda (d : Nat) (ps : List String) {b b' : Expr} (h : b.Alike b') :
    AlikeLayer (.lambda d ps b) (.lambda d ps b')
  | closure (d : Nat) (ps : List String) {b b' : Expr} {env env' : Env} (h : b.Alike b')
    (henv : env.Alike env') : AlikeLayer (.closure d ps b env) (.closure d ps b' env')
  | applied {t t' : Expr} {args args' : List Expr} (ht : t.Alike t')
    (ha : List.Forall₂ Expr.Alike args args') : AlikeLayer (.applied t args) (.applied t' args')
  | unary (op : UnaryOp) {e e' : Expr} (h : e.Alike e') : AlikeLayer (.unary op e) (.unary op e')
  | binary (op : BinaryOp) {l l' r r' : Expr} (hl : l.Alike l') (hr : r.Alike r') :
    AlikeLayer (.binary op l r) (.binary op l' r')
  | leftSection (op : BinaryOp) {e e' : Expr} (h : e.Alike e') :
    AlikeLayer (.leftSection op e) (.leftSection op e')
  | rightSection (op : BinaryOp) {e e' : Expr} (h : e.Alike e') :
    AlikeLayer (.rightSection op e) (.rightSection op e')
  | conditional {c c' y y' n n' : Expr} (hc : c.Alike c') (hy : y.Alike y') (hn : n.Alike n') :
    AlikeLayer (.conditional c y n) (.conditional c' y' n')
  | interpolated {fs fs' : List Fragment} (h : List.Forall₂ (FragmentLike Expr.Alike) fs fs') :
    AlikeLayer (.interpolated fs) (.interpolated fs')

theorem optionRel_of_erase {o o' : Option Expr} (h : eraseOption o = eraseOption o') :
    Option.Rel Expr.Alike o o' := by
  cases o <;> cases o' <;> simp only [eraseOption, reduceCtorEq, Option.some.injEq] at h
  · exact .none
  · exact .some h

theorem fragments_of_erase : ∀ {fs fs' : List Fragment}, eraseFragments fs = eraseFragments fs' →
    List.Forall₂ (FragmentLike Expr.Alike) fs fs'
  | [], [], _ => .nil
  | .text t :: fs, .text t' :: fs', h => by
    simp only [eraseFragments, List.cons.injEq, Fragment.text.injEq] at h
    obtain ⟨rfl, h⟩ := h
    exact .cons (.text t) (fragments_of_erase h)
  | .embedded e :: fs, .embedded e' :: fs', h => by
    simp only [eraseFragments, List.cons.injEq, Fragment.embedded.injEq] at h
    exact .cons (.embedded h.1) (fragments_of_erase h.2)
  | [], .text _ :: _, h | [], .embedded _ :: _, h | .text _ :: _, [], h
  | .embedded _ :: _, [], h | .text _ :: _, .embedded _ :: _, h
  | .embedded _ :: _, .text _ :: _, h => by simp [eraseFragments] at h

theorem Expr.Alike.layer {e e' : Expr} (h : e.Alike e') : AlikeLayer e e' := by
  unfold Expr.Alike at h
  cases e with
  | number n => cases e' <;> simp only [Expr.erase, reduceCtorEq] at h; cases h; exact .atom rfl
  | bool b => cases e' <;> simp only [Expr.erase, reduceCtorEq] at h; cases h; exact .atom rfl
  | str t => cases e' <;> simp only [Expr.erase, reduceCtorEq] at h; cases h; exact .atom rfl
  | null => cases e' <;> simp only [Expr.erase, reduceCtorEq] at h; exact .atom rfl
  | list l =>
    cases e' <;> simp only [Expr.erase, reduceCtorEq, Expr.list.injEq] at h
    exact .list h
  | range a b c =>
    cases e' <;> simp only [Expr.erase, reduceCtorEq, Expr.range.injEq] at h
    exact .range h.1 (optionRel_of_erase h.2.1) (optionRel_of_erase h.2.2)
  | call f a =>
    cases e' <;> simp only [Expr.erase, reduceCtorEq, Expr.call.injEq] at h
    exact .call h.1 h.2
  | function f => cases e' <;> simp only [Expr.erase, reduceCtorEq] at h; cases h; exact .function f
  | lambda d ps b =>
    cases e' <;> simp only [Expr.erase, reduceCtorEq, Expr.lambda.injEq] at h
    obtain ⟨rfl, rfl, h⟩ := h
    exact .lambda d ps h
  | closure d ps b env =>
    cases e' <;> simp only [Expr.erase, reduceCtorEq, Expr.closure.injEq] at h
    obtain ⟨rfl, rfl, h, henv⟩ := h
    exact .closure d ps h henv
  | argument slot =>
    cases e' <;> simp only [Expr.erase, reduceCtorEq] at h
    cases h
    exact .argument slot
  | applied t args =>
    cases e' <;> simp only [Expr.erase, reduceCtorEq, Expr.applied.injEq] at h
    exact .applied h.1 (alike_of_eraseAll h.2)
  | unary op e =>
    cases e' <;> simp only [Expr.erase, reduceCtorEq, Expr.unary.injEq] at h
    obtain ⟨rfl, h⟩ := h
    exact .unary op h
  | binary op l r =>
    cases e' <;> simp only [Expr.erase, reduceCtorEq, Expr.binary.injEq] at h
    obtain ⟨rfl, hl, hr⟩ := h
    exact .binary op hl hr
  | leftSection op e =>
    cases e' <;> simp only [Expr.erase, reduceCtorEq, Expr.leftSection.injEq] at h
    obtain ⟨rfl, h⟩ := h
    exact .leftSection op h
  | rightSection op e =>
    cases e' <;> simp only [Expr.erase, reduceCtorEq, Expr.rightSection.injEq] at h
    obtain ⟨rfl, h⟩ := h
    exact .rightSection op h
  | conditional c y n =>
    cases e' <;> simp only [Expr.erase, reduceCtorEq, Expr.conditional.injEq] at h
    exact .conditional h.1 h.2.1 h.2.2
  | interpolated fs =>
    cases e' <;> simp only [Expr.erase, reduceCtorEq, Expr.interpolated.injEq] at h
    exact .interpolated (fragments_of_erase h)

/-- One layer of two lists that are alike. -/
inductive ListAlikeLayer : LazyList → LazyList → Prop where
  | items {xs xs' : List Expr} {env env' : Env} (cell cell' : Option Nat)
    (hxs : List.Forall₂ Expr.Alike xs xs') (henv : env.Alike env') :
    ListAlikeLayer (.items xs env cell) (.items xs' env' cell')
  | progression (range : Progression) : ListAlikeLayer (.progression range) (.progression range)
  | prepend {h h' : Expr} {t t' : LazyList} (hh : h.Alike h') (ht : t.Alike t') :
    ListAlikeLayer (.prepend h t) (.prepend h' t')
  | concat {a a' b b' : LazyList} (ha : a.Alike a') (hb : b.Alike b') :
    ListAlikeLayer (.concat a b) (.concat a' b')
  | mapped {f f' : Expr} {s s' : LazyList} (hf : f.Alike f') (hs : s.Alike s') :
    ListAlikeLayer (.mapped f s) (.mapped f' s')
  | filtered {p p' : Expr} {s s' : LazyList} (hp : p.Alike p') (hs : s.Alike s') :
    ListAlikeLayer (.filtered p s) (.filtered p' s')
  | dropped (count : Nat) {s s' : LazyList} (hs : s.Alike s') :
    ListAlikeLayer (.dropped count s) (.dropped count s')

theorem LazyList.Alike.layer {l l' : LazyList} (h : l.Alike l') : ListAlikeLayer l l' := by
  unfold LazyList.Alike at h
  cases l with
  | items xs env cell =>
    cases l' <;> simp only [LazyList.erase, reduceCtorEq, LazyList.items.injEq] at h
    exact .items _ _ (alike_of_eraseAll h.1) h.2.1
  | progression range =>
    cases l' <;> simp only [LazyList.erase, reduceCtorEq] at h
    cases h
    exact .progression range
  | prepend head tail =>
    cases l' <;> simp only [LazyList.erase, reduceCtorEq, LazyList.prepend.injEq] at h
    exact .prepend h.1 h.2
  | concat a b =>
    cases l' <;> simp only [LazyList.erase, reduceCtorEq, LazyList.concat.injEq] at h
    exact .concat h.1 h.2
  | mapped f s =>
    cases l' <;> simp only [LazyList.erase, reduceCtorEq, LazyList.mapped.injEq] at h
    exact .mapped h.1 h.2
  | filtered p s =>
    cases l' <;> simp only [LazyList.erase, reduceCtorEq, LazyList.filtered.injEq] at h
    exact .filtered h.1 h.2
  | dropped count s =>
    cases l' <;> simp only [LazyList.erase, reduceCtorEq, LazyList.dropped.injEq] at h
    obtain ⟨rfl, h⟩ := h
    exact .dropped count h

/-! ## 3. The likeness -/

/-- Properties of the claims on the two sides, which stay when worlds grow. -/
structure Tenure where
  World : Type
  le : World → World → Prop
  le_refl : ∀ w, le w w
  le_trans : ∀ {w₁ w₂ w₃}, le w₁ w₂ → le w₂ w₃ → le w₁ w₃
  left : World → Claim → Prop
  right : World → Claim → Prop
  left_mono : ∀ {w w' c}, le w w' → left w c → left w' c
  right_mono : ∀ {w w' c}, le w w' → right w c → right w' c

namespace Tenure

variable (T : Tenure) (w : T.World)

/-- The claims on both sides have their properties. -/
def Holds (cs cs' : List Claim) : Prop := (∀ c ∈ cs, T.left w c) ∧ ∀ c ∈ cs', T.right w c

/-- Values, or expressions, that are alike. -/
def Value (v v' : Expr) : Prop := v.Alike v' ∧ T.Holds w v.claims v'.claims

/-- Environments that are alike. -/
def EnvValue (env env' : Env) : Prop := env.Alike env' ∧ T.Holds w env.claims env'.claims

variable {T w}

theorem Holds.mono {w' : T.World} {cs cs' : List Claim} (h : T.le w w') (hc : T.Holds w cs cs') :
    T.Holds w' cs cs' :=
  ⟨fun c hmem => T.left_mono h (hc.1 c hmem), fun c hmem => T.right_mono h (hc.2 c hmem)⟩

theorem Holds.nil : T.Holds w [] [] := ⟨by simp, by simp⟩

/-- What has no cells is the same on both sides. -/
theorem value_of_claims {v : Expr} (h : v.claims = []) : T.Value w v v :=
  ⟨rfl, by rw [h]; exact .nil⟩

theorem holds_append {as bs as' bs' : List Claim} :
    T.Holds w (as ++ bs) (as' ++ bs') ↔ T.Holds w as as' ∧ T.Holds w bs bs' := by
  simp only [Holds, List.forall_mem_append]
  exact ⟨fun ⟨⟨h₁, h₂⟩, h₃, h₄⟩ => ⟨⟨h₁, h₃⟩, h₂, h₄⟩, fun ⟨⟨h₁, h₃⟩, h₂, h₄⟩ => ⟨⟨h₁, h₂⟩, h₃, h₄⟩⟩

theorem values_iff {vs vs' : List Expr} :
    List.Forall₂ (T.Value w) vs vs' ↔
      List.Forall₂ Expr.Alike vs vs' ∧ T.Holds w (claimsAll vs) (claimsAll vs') := by
  constructor
  · intro h
    induction h with
    | nil => exact ⟨.nil, .nil⟩
    | cons hv _ ih => exact ⟨.cons hv.1 ih.1, holds_append.mpr ⟨hv.2, ih.2⟩⟩
  · rintro ⟨h, hc⟩
    induction h with
    | nil => exact .nil
    | cons hv _ ih =>
      obtain ⟨hc, hcs⟩ := holds_append.mp hc
      exact .cons ⟨hv, hc⟩ (ih hcs)

theorem Holds.subset {as bs as' bs' : List Claim} (h : T.Holds w bs bs') (hs : as ⊆ bs)
    (hs' : as' ⊆ bs') : T.Holds w as as' :=
  ⟨fun c hc => h.1 c (hs hc), fun c hc => h.2 c (hs' hc)⟩

theorem env_top : T.EnvValue w .top .top := ⟨rfl, .nil⟩

theorem env_orElse {own own' here here' : Env} (hown : T.EnvValue w own own')
    (h : T.EnvValue w here here') : T.EnvValue w (own.orElse here) (own'.orElse here') := by
  obtain ⟨halike, hclaims⟩ := hown
  unfold Env.Alike at halike
  cases own with
  | top =>
    cases own' <;> simp only [Env.erase, reduceCtorEq] at halike
    exact h
  | frame =>
    cases own' <;> simp only [Env.erase, reduceCtorEq] at halike
    exact ⟨halike, hclaims⟩

theorem env_frame (d : Nat) (ps : List String) {args args' : List Expr} {env env' : Env}
    (hargs : List.Forall₂ (T.Value w) args args') (henv : T.EnvValue w env env') :
    T.EnvValue w (.frame d ps args env) (.frame d ps args' env') := by
  obtain ⟨halike, hclaims⟩ := values_iff.mp hargs
  refine ⟨?_, holds_append.mpr ⟨hclaims, henv.2⟩⟩
  show Env.frame _ _ _ _ = Env.frame _ _ _ _
  rw [eraseAll_of_alike halike, henv.1]

/-- Where one finds an argument, so does the other, and the two are alike. -/
theorem lookup_alike {env env' : Env} (h : T.EnvValue w env env') (slot : Slot) :
    Option.Rel (T.Value w) (env.lookup slot) (env'.lookup slot) := by
  have herase : (env.lookup slot).map Expr.erase = (env'.lookup slot).map Expr.erase := by
    rw [← Env.lookup_erase, ← Env.lookup_erase, h.1]
  cases hl : env.lookup slot with
  | none =>
    cases hr : env'.lookup slot with
    | none => exact .none
    | some v' => rw [hl, hr] at herase; cases herase
  | some v =>
    cases hr : env'.lookup slot with
    | none => rw [hl, hr] at herase; cases herase
    | some v' =>
      rw [hl, hr] at herase
      exact .some ⟨Option.some.inj herase,
        h.2.subset (Env.claims_of_lookup hl) (Env.claims_of_lookup hr)⟩

theorem fragments_alike {fs fs' : List Fragment}
    (h : List.Forall₂ (FragmentLike Expr.Alike) fs fs')
    (hc : T.Holds w (claimsFragments fs) (claimsFragments fs')) :
    List.Forall₂ (FragmentLike (T.Value w)) fs fs' := by
  induction h with
  | nil => exact .nil
  | cons hf _ ih =>
    cases hf with
    | text t => exact .cons (.text t) (ih hc)
    | embedded he =>
      obtain ⟨hc, hcs⟩ := holds_append.mp hc
      exact .cons (.embedded ⟨he, hc⟩) (ih hcs)

theorem bounds_alike {o o' : Option Expr} (h : Option.Rel Expr.Alike o o')
    (hc : T.Holds w (claimsOption o) (claimsOption o')) : Option.Rel (T.Value w) o o' := by
  cases h with
  | none => exact .none
  | some h => exact .some ⟨h, hc⟩

end Tenure

theorem cellClaims_tail {env : Env} {x : Expr} {xs : List Expr} {cell : Option Nat} :
    cellClaims env xs (cell.map (· + 1)) ⊆ cellClaims env (x :: xs) cell := by
  cases cell with
  | none =>
    cases xs <;> exact List.nil_subset _
  | some c => exact List.subset_cons_self _ _

theorem Expr.claims_atom {e : Expr} (h : e.isAtom = true) : e.claims = [] := by
  cases e <;> first | rfl | cases h

/-- What alike lists show. -/
theorem Tenure.list_seen {T : Tenure} {w : T.World} {l l' : LazyList} (h : l.Alike l')
    (hc : T.Holds w l.claims l'.claims) :
    Seen (fun here here' e e' => T.EnvValue w here here' ∧ T.Value w e e') (T.Value w)
      (.list l) (.list l') := by
  have list : ∀ {l l' : LazyList}, l.Alike l' → T.Holds w l.claims l'.claims →
      T.Value w (.list l) (.list l') := fun h hc => ⟨congrArg Expr.list h, hc⟩
  cases h.layer with
  | @items xs xs' env env' cell cell' hxs henv =>
    cases hxs with
    | nil => exact .nil env env' cell cell'
    | @cons x x' xs xs' hx hxs =>
      have hrest := hc.subset (List.subset_append_right _ _) (List.subset_append_right _ _)
      obtain ⟨helements, henvclaims⟩ := Tenure.holds_append.mp hrest
      obtain ⟨hxclaims, hxsclaims⟩ := Tenure.holds_append.mp helements
      refine .cons ⟨⟨henv, henvclaims⟩, hx, hxclaims⟩ (list ?_ ?_)
      · show LazyList.items _ _ _ = LazyList.items _ _ _
        rw [eraseAll_of_alike hxs, henv]
      · have hcells := hc.subset (List.subset_append_left _ _) (List.subset_append_left _ _)
        have htail := hcells.subset cellClaims_tail cellClaims_tail
        exact Tenure.holds_append.mpr ⟨htail, Tenure.holds_append.mpr ⟨hxsclaims, henvclaims⟩⟩
  | progression range => exact .built (.progression range)
  | prepend hh ht =>
    obtain ⟨h₁, h₂⟩ := Tenure.holds_append.mp hc
    exact .built (.prepend ⟨hh, h₁⟩ (list ht h₂))
  | concat ha hb =>
    obtain ⟨h₁, h₂⟩ := Tenure.holds_append.mp hc
    exact .built (.concat (list ha h₁) (list hb h₂))
  | mapped hf hs =>
    obtain ⟨h₁, h₂⟩ := Tenure.holds_append.mp hc
    exact .built (.mapped ⟨hf, h₁⟩ (list hs h₂))
  | filtered hp hs =>
    obtain ⟨h₁, h₂⟩ := Tenure.holds_append.mp hc
    exact .built (.filtered ⟨hp, h₁⟩ (list hs h₂))
  | dropped count hs => exact .built (.dropped count (list hs hc))

/-- Alike expressions and values, whose claims have the properties of a tenure. -/
def Likeness.alike (T : Tenure) : Likeness Env.lookup Env.lookup where
  World := T.World
  le := T.le
  le_refl := T.le_refl
  le_trans := T.le_trans
  env := T.EnvValue
  code w here here' e e' := T.EnvValue w here here' ∧ T.Value w e e'
  value := T.Value
  env_mono h henv := ⟨henv.1, henv.2.mono h⟩
  code_mono h hcode := ⟨⟨hcode.1.1, hcode.1.2.mono h⟩, hcode.2.1, hcode.2.2.mono h⟩
  value_mono h hv := ⟨hv.1, hv.2.mono h⟩
  env_top _ := Tenure.env_top
  code_top h := ⟨Tenure.env_top, h⟩
  code_layer := by
    rintro w here here' e e' ⟨henv, he⟩
    obtain ⟨halike, hc⟩ := he
    cases halike.layer with
    | atom h => exact .done (Expr.isDone_of_atom h) (Expr.isDone_of_atom h) ⟨halike, hc⟩
    | function f => exact .function f
    | argument slot =>
      have hfound := Tenure.lookup_alike henv slot
      cases hl : here.lookup slot with
      | none =>
        cases hr : here'.lookup slot with
        | none => exact .stray hl hr rfl
        | some _ => rw [hl, hr] at hfound; cases hfound
      | some v =>
        cases hr : here'.lookup slot with
        | none => rw [hl, hr] at hfound; cases hfound
        | some v' =>
          rw [hl, hr] at hfound
          cases hfound with
          | some hv => exact .bound hl hr hv
    | list h =>
      cases h.layer with
      | items cell cell' hxs hown =>
        have hrest := hc.subset (List.subset_append_right _ _) (List.subset_append_right _ _)
        obtain ⟨helements, hclaims⟩ := Tenure.holds_append.mp hrest
        have henv' := Tenure.env_orElse ⟨hown, hclaims⟩ henv
        refine .literal cell cell' henv' ?_
        exact (Tenure.values_iff.mpr ⟨hxs, helements⟩).imp fun _ _ hx => ⟨henv', hx⟩
      | _ => exact .done rfl rfl ⟨halike, hc⟩
    | range ha hb hstop =>
      obtain ⟨h₁, h₂⟩ := Tenure.holds_append.mp hc
      obtain ⟨h₂, h₃⟩ := Tenure.holds_append.mp h₂
      refine .range ⟨henv, ha, h₁⟩ ?_ ?_
      · cases Tenure.bounds_alike hb h₂ with
        | none => exact .none
        | some h => exact .some ⟨henv, h⟩
      · cases Tenure.bounds_alike hstop h₃ with
        | none => exact .none
        | some h => exact .some ⟨henv, h⟩
    | call hf ha =>
      obtain ⟨h₁, h₂⟩ := Tenure.holds_append.mp hc
      exact .call ⟨henv, hf, h₁⟩ ⟨henv, ha, h₂⟩
    | lambda d ps h =>
      refine .lambda ⟨?_, Tenure.holds_append.mpr ⟨hc, henv.2⟩⟩
      show Expr.closure _ _ _ _ = Expr.closure _ _ _ _
      rw [h, henv.1]
    | closure => exact .done rfl rfl ⟨halike, hc⟩
    | applied => exact .done rfl rfl ⟨halike, hc⟩
    | unary op h => exact .unary op ⟨henv, h, hc⟩
    | binary op hl hr =>
      obtain ⟨h₁, h₂⟩ := Tenure.holds_append.mp hc
      exact .binary op ⟨henv, hl, h₁⟩ ⟨henv, hr, h₂⟩
    | leftSection op h => exact .leftSection op ⟨henv, h, hc⟩
    | rightSection op h => exact .rightSection op ⟨henv, h, hc⟩
    | conditional hcond hy hn =>
      obtain ⟨h₁, h₂⟩ := Tenure.holds_append.mp hc
      obtain ⟨h₂, h₃⟩ := Tenure.holds_append.mp h₂
      exact .conditional ⟨henv, hcond, h₁⟩ ⟨henv, hy, h₂⟩ ⟨henv, hn, h₃⟩
    | interpolated h =>
      refine .interpolated ((Tenure.fragments_alike h hc).imp fun f f' hf => ?_)
      cases hf with
      | text t => exact .text t
      | embedded he => exact .embedded ⟨henv, he⟩
  value_built := by
    intro w v v' h
    cases h with
    | @atom e h => exact ⟨rfl, by rw [Expr.claims_atom h]; exact .nil⟩
    | function f => exact ⟨rfl, .nil⟩
    | applied ht ha =>
      obtain ⟨halike, hclaims⟩ := Tenure.values_iff.mp ha
      refine ⟨?_, Tenure.holds_append.mpr ⟨ht.2, hclaims⟩⟩
      show Expr.applied _ _ = Expr.applied _ _
      rw [ht.1, eraseAll_of_alike halike]
    | leftSection op h => exact ⟨congrArg (Expr.leftSection op) h.1, h.2⟩
    | rightSection op h => exact ⟨congrArg (Expr.rightSection op) h.1, h.2⟩
    | progression range => exact ⟨rfl, .nil⟩
    | empty => exact ⟨rfl, .nil⟩
    | prepend hh ht =>
      refine ⟨?_, Tenure.holds_append.mpr ⟨hh.2, ht.2⟩⟩
      show Expr.list (.prepend _ _) = Expr.list (.prepend _ _)
      rw [hh.1, Expr.list.inj ht.1]
    | concat ha hb =>
      refine ⟨?_, Tenure.holds_append.mpr ⟨ha.2, hb.2⟩⟩
      show Expr.list (.concat _ _) = Expr.list (.concat _ _)
      rw [Expr.list.inj ha.1, Expr.list.inj hb.1]
    | mapped hf hs =>
      refine ⟨?_, Tenure.holds_append.mpr ⟨hf.2, hs.2⟩⟩
      show Expr.list (.mapped _ _) = Expr.list (.mapped _ _)
      rw [hf.1, Expr.list.inj hs.1]
    | filtered hp hs =>
      refine ⟨?_, Tenure.holds_append.mpr ⟨hp.2, hs.2⟩⟩
      show Expr.list (.filtered _ _) = Expr.list (.filtered _ _)
      rw [hp.1, Expr.list.inj hs.1]
    | dropped count hs =>
      refine ⟨?_, hs.2⟩
      show Expr.list (.dropped _ _) = Expr.list (.dropped _ _)
      rw [Expr.list.inj hs.1]
  value_seen := by
    rintro w v v' ⟨halike, hc⟩
    cases halike.layer with
    | atom h => exact .built (.atom h)
    | function f => exact .built (.function f)
    | applied ht ha =>
      obtain ⟨h₁, h₂⟩ := Tenure.holds_append.mp hc
      exact .built (.applied ⟨ht, h₁⟩ (Tenure.values_iff.mpr ⟨ha, h₂⟩))
    | leftSection op h => exact .built (.leftSection op ⟨h, hc⟩)
    | rightSection op h => exact .built (.rightSection op ⟨h, hc⟩)
    | closure d ps h henv =>
      obtain ⟨h₁, h₂⟩ := Tenure.holds_append.mp hc
      exact .closure rfl fun args args' hargs _ => ⟨Tenure.env_frame d ps hargs ⟨henv, h₂⟩, h, h₁⟩
    | list h => exact Tenure.list_seen h hc
    | _ => exact .inert rfl rfl

end LazyExpr
