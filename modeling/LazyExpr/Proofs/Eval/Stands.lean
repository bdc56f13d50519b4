import LazyExpr.Proofs.Eval.Likeness
import LazyExpr.Proofs.Expr.Reread

/-!
# Values that stand for others

What is read for a function or a list that captured arguments is not the same value: its lambdas may
stand at other depths, and what was captured is in its code.  It stands for that value, and so does
every value that the two are evaluated to.

* `Stands view v v'`: `v'` stands for `v`.  Closures of which one is read for the other stand for
  each other if their calls have arguments that do.
* `Stands.showsIn`: **what stands for a value is shown like it**, in whatever environment.
* `Likeness.stands`: to an evaluator, what stands for a value is the same.  Where the one is found
  for a slot, the other may be code that is still to be evaluated (`Respelled`).
-/

namespace LazyExpr

/-! ## 1. Standing for -/

/-- What two expressions are compared as: values, or code that is evaluated in two environments. -/
inductive View where
  | value
  | code (here here' : Env)

/-- `Stands view e e'`: what is on the right does the same as what is on the left. -/
inductive Stands : View → Expr → Expr → Prop where
  | atom {v : Expr} (h : v.isAtom = true) : Stands .value v v
  | function (f : Function) : Stands .value (.function f) (.function f)
  | applied {f f' : Expr} {args args' : List Expr} (hf : Stands .value f f')
    (hlength : args.length = args'.length)
    (h : ∀ (i : Nat) x x', args[i]? = some x → args'[i]? = some x' → Stands .value x x') :
    Stands .value (.applied f args) (.applied f' args')
  | leftSection (op : BinaryOp) {v v' : Expr} (h : Stands .value v v') :
    Stands .value (.leftSection op v) (.leftSection op v')
  | rightSection (op : BinaryOp) {v v' : Expr} (h : Stands .value v v') :
    Stands .value (.rightSection op v) (.rightSection op v')
  | closure {fixed : Bool} {region : Region} {scope : Scope} {depth : Nat} {names : List String}
    {body body' : Expr} {env env' : Env}
    (h : Reread fixed (.code region) (scope.inside names) body body')
    (hfit : Suits fixed region scope env env') (hdepth : region.Aligned depth (scope.depth + 1))
    (hvalues : ∀ slot slot' v v', region.Own slot slot' → env.lookup slot = some v →
      env'.lookup slot' = some v' → Stands .value v v') :
    Stands .value (.closure depth names body env) (.closure (scope.depth + 1) names body' env')
  | items {xs xs' : List Expr} {env env' : Env} (cell cell' : Option Nat)
    (hlength : xs.length = xs'.length)
    (h : ∀ (i : Nat) x x', xs[i]? = some x → xs'[i]? = some x' → Stands (.code env env') x x') :
    Stands .value (.list (.items xs env cell)) (.list (.items xs' env' cell'))
  | progression (p : Progression) : Stands .value (.list (.progression p)) (.list (.progression p))
  | prepend {x x' : Expr} {l l' : LazyList} (hx : Stands .value x x')
    (hl : Stands .value (.list l) (.list l')) :
    Stands .value (.list (.prepend x l)) (.list (.prepend x' l'))
  | concat {a a' b b' : LazyList} (ha : Stands .value (.list a) (.list a'))
    (hb : Stands .value (.list b) (.list b')) :
    Stands .value (.list (.concat a b)) (.list (.concat a' b'))
  | mapped {f f' : Expr} {l l' : LazyList} (hf : Stands .value f f')
    (hl : Stands .value (.list l) (.list l')) :
    Stands .value (.list (.mapped f l)) (.list (.mapped f' l'))
  | filtered {p p' : Expr} {l l' : LazyList} (hp : Stands .value p p')
    (hl : Stands .value (.list l) (.list l')) :
    Stands .value (.list (.filtered p l)) (.list (.filtered p' l'))
  | dropped (count : Nat) {l l' : LazyList} (hl : Stands .value (.list l) (.list l')) :
    Stands .value (.list (.dropped count l)) (.list (.dropped count l'))
  /-- A value that is evaluated once more. -/
  | again {v v' : Expr} (h : Stands .value v v') : Stands (.code .top .top) v v'
  /-- Code and what was read for it.  Outside of every call there are no slots to look up. -/
  | reread {fixed : Bool} {region : Region} {scope : Scope} {e e' : Expr} {here here' : Env}
    (h : Reread fixed (.code region) scope e e') (hfit : Suits fixed region scope here here')
    (hleft : here = .top → region = .closed) (hright : here' = .top → fixed = true)
    (hvalues : ∀ slot slot' v v', region.Own slot slot' → here.lookup slot = some v →
      here'.lookup slot' = some v' → Stands .value v v') :
    Stands (.code here here') e e'

/-- Lists that are related at every position. -/
theorem forall₂_of_getElem? {α β : Type} {R : α → β → Prop} {xs : List α} {ys : List β}
    (hlength : xs.length = ys.length)
    (h : ∀ (i : Nat) x y, xs[i]? = some x → ys[i]? = some y → R x y) : List.Forall₂ R xs ys := by
  rw [List.forall₂_iff_get]
  refine ⟨hlength, fun i hi hi' => h i _ _ ?_ ?_⟩
  · exact List.getElem?_eq_getElem hi
  · exact List.getElem?_eq_getElem hi'

theorem getElem?_of_forall₂ {α β : Type} {R : α → β → Prop} {xs : List α} {ys : List β}
    (h : List.Forall₂ R xs ys) {i : Nat} {x : α} {y : β} (hx : xs[i]? = some x)
    (hy : ys[i]? = some y) :
    R x y := by
  obtain ⟨hi, rfl⟩ := List.getElem?_eq_some_iff.mp hx
  obtain ⟨hi', rfl⟩ := List.getElem?_eq_some_iff.mp hy
  exact h.get hi hi'

namespace Stands

theorem applied_of {f f' : Expr} {args args' : List Expr} (hf : Stands .value f f')
    (h : List.Forall₂ (Stands .value) args args') :
    Stands .value (.applied f args) (.applied f' args') :=
  .applied hf h.length_eq fun _ _ _ hx hx' => getElem?_of_forall₂ h hx hx'

theorem items_of {xs xs' : List Expr} {env env' : Env} (cell cell' : Option Nat)
    (h : List.Forall₂ (Stands (.code env env')) xs xs') :
    Stands .value (.list (.items xs env cell)) (.list (.items xs' env' cell')) :=
  .items cell cell' h.length_eq fun _ _ _ hx hx' => getElem?_of_forall₂ h hx hx'

/-! ## 2. What is shown -/

/-- Where two expressions are shown, with any environments around those that they have
themselves. -/
def ShowsIn (env env' : Env) : View → Expr → Expr → Prop
  | .value => ShownAlike env env'
  | .code here here' => ShownAlike (here.orElse env) (here'.orElse env')

/-- Outside of every call the environment around makes no difference. -/
theorem suits_orElse {fixed : Bool} {region : Region} {scope : Scope} {here here' : Env}
    (hfit : Suits fixed region scope here here') (hleft : here = .top → region = .closed)
    (hright : here' = .top → fixed = true) (env env' : Env) :
    Suits fixed region scope (here.orElse env) (here'.orElse env') := by
  have hsame' : fixed = false → here'.orElse env' = here' := by
    intro hfixed
    cases here' with
    | top => rw [hright rfl] at hfixed; cases hfixed
    | frame => rfl
  cases here with
  | top =>
    rw [hleft rfl]
    exact .closed fun hfixed => by rw [hsame' hfixed]; exact hfit.below hfixed
  | frame =>
    refine ⟨hfit.captured, fun hfixed => ?_, fun hfixed => ?_⟩
    · rw [hsame' hfixed]
      exact hfit.own hfixed
    · rw [hsame' hfixed]
      exact hfit.below hfixed

/-- **What stands for a value is shown like it.** -/
theorem showsIn {view : View} {e e' : Expr} (h : Stands view e e') :
    ∀ env env', ShowsIn env env' view e e' := by
  induction h with
  | atom h => exact fun _ _ => .atom h
  | function f => exact fun _ _ => .function f
  | applied _ hlength _ ihf ih =>
    exact fun env env' => .applied (ihf env env')
      (forall₂_of_getElem? hlength fun i x x' hx hx' => ih i x x' hx hx' env env')
  | leftSection op _ ih => exact fun env env' => .leftSection op (ih env env')
  | rightSection op _ ih => exact fun env env' => .rightSection op (ih env env')
  | @closure fixed region scope depth names body body' env env' h hfit _ _ ih =>
    intro around around'
    have hbody : ShownAlike env env' body body' :=
      h.shownAlike (hfit.lambda names) fun _ slot slot' v v' hslot hv hv' =>
        ih slot slot' v v' hslot hv hv' env env'
    have hlambda : ShownAlike env env' (.lambda depth names body)
      (.lambda (scope.depth + 1) names body') :=
      hbody.lambda
    have hleft : ShownAlike around env' (.closure depth names body env) _ := .closure hlambda
    exact .symm (.closure hleft.symm)
  | items cell cell' hlength _ ih =>
    exact fun env env' => .items cell cell'
      (forall₂_of_getElem? hlength fun i x x' hx hx' => ih i x x' hx hx' env env')
  | progression p => exact fun _ _ => .progression p
  -- both views are shown like the code that makes the right one
  | prepend _ _ ihx ihl =>
    intro env env'
    have hx : ShownAlike env env' _ _ := ihx env env'
    have hl : ShownAlike env env' _ _ := ihl env env'
    exact (hx.prepend hl).trans (hx.right.prepend hl.right).symm
  | concat _ _ iha ihb =>
    intro env env'
    have ha : ShownAlike env env' _ _ := iha env env'
    have hb : ShownAlike env env' _ _ := ihb env env'
    exact (ha.concat hb).trans (ha.right.concat hb.right).symm
  | mapped _ _ ihf ihl =>
    intro env env'
    have hf : ShownAlike env env' _ _ := ihf env env'
    have hl : ShownAlike env env' _ _ := ihl env env'
    exact (hf.mapped hl).trans (hf.right.mapped hl.right).symm
  | filtered _ _ ihp ihl =>
    intro env env'
    have hp : ShownAlike env env' _ _ := ihp env env'
    have hl : ShownAlike env env' _ _ := ihl env env'
    exact (hp.filtered hl).trans (hp.right.filtered hl.right).symm
  | dropped count _ ihl => exact fun env env' => .dropped_list count (ihl env env')
  | again _ ih => exact ih
  | @reread fixed region scope e e' here here' h hfit hleft hright _ ih =>
    intro env env'
    refine h.shownAlike (suits_orElse hfit hleft hright env env') ?_
    intro hfixed slot slot' v v' hslot hv hv'
    cases here with
    | top =>
      rw [hleft rfl] at hslot
      exact hslot.elim
    | frame =>
      cases here' with
      | top => rw [hright rfl] at hfixed; cases hfixed
      | frame => exact ih slot slot' v v' hslot hv hv' _ _

end Stands

/-! ## 3. What is the same -/

/-- What is found in two calls for a slot of the region: nothing in lambdas that are deeper, an
argument in the lambda that is called, or what is found in the calls around. -/
theorem Region.Own.lookup_frame {region : Region} {slot slot' : Slot}
    (hslot : region.Own slot slot')
    {depth depth' : Nat} (hdepth : region.Aligned depth depth') (names : List String)
    (args args' : List Expr) (env env' : Env) :
    let found := (Env.frame depth names args env).lookup slot
    let found' := (Env.frame depth' names args' env').lookup slot'
    (found = none ∧ found' = none) ∨ (found = args[slot.index]? ∧ found' = args'[slot.index]?) ∨
      (found = env.lookup slot ∧ found' = env'.lookup slot') := by
  intro found found'
  cases region with
  | closed => exact hslot.elim
  | inside base low low' =>
    obtain ⟨hlow, heq, hindex, -⟩ := hslot
    obtain ⟨hlow', heq'⟩ := hdepth
    rcases Nat.lt_trichotomy depth slot.depth with hlt | hsame | hlt
    · refine .inl ⟨?_, ?_⟩
      · exact (if_neg (by omega)).trans (if_pos hlt)
      · exact (if_neg (by omega)).trans (if_pos (by omega))
    · refine .inr (.inl ⟨if_pos hsame, ?_⟩)
      rw [← hindex]
      exact if_pos (by omega)
    · refine .inr (.inr ⟨?_, ?_⟩)
      · exact (if_neg (by omega)).trans (if_neg (by omega))
      · exact (if_neg (by omega)).trans (if_neg (by omega))

/-- In a call, more is found for the slots of the lambda. -/
theorem Suits.frame {fixed : Bool} {region : Region} {scope : Scope} {env env' : Env} {depth : Nat}
    {names : List String} {args args' : List Expr} (h : Suits fixed region scope env env')
    (hdepth : region.Aligned depth (scope.depth + 1)) (hlength : args.length = args'.length) :
    Suits fixed region (scope.inside names) (.frame depth names args env)
      (.frame (scope.depth + 1) names args' env') where
  captured := by
    intro slot v hslot
    have hbase := h.captured hslot
    cases region with
    | closed => cases hslot
    | inside base low low' =>
      obtain ⟨hlow, -⟩ := hdepth
      have hbelow : slot.depth < low := by
        by_contra hnot
        rw [Region.captured, if_neg hnot] at hslot
        cases hslot
      rw [Env.lookup, if_neg (by omega), if_neg (by omega)]
      exact hbase
  own := by
    intro hfixed slot slot' hslot
    rcases hslot.lookup_frame hdepth names args args' env env' with ⟨hv, hv'⟩
      | ⟨hv, hv'⟩ | ⟨hv, hv'⟩
    · rw [hv, hv']
    · rw [hv, hv', List.getElem?_eq_none_iff, List.getElem?_eq_none_iff, hlength]
    · rw [hv, hv']
      exact h.own hfixed hslot
  below := fun _ => Nat.lt_succ_self _

/-- A slot that belongs to the region is found among the arguments, or in the calls around. -/
theorem stands_frame {region : Region} {env env' : Env} {depth depth' : Nat} {names : List String}
    {args args' : List Expr} (hdepth : region.Aligned depth depth')
    (hargs : List.Forall₂ (Stands .value) args args')
    (hvalues : ∀ slot slot' v v', region.Own slot slot' → env.lookup slot = some v →
      env'.lookup slot' = some v' → Stands .value v v')
    {slot slot' : Slot} {v v' : Expr} (hslot : region.Own slot slot')
    (hv : (Env.frame depth names args env).lookup slot = some v)
    (hv' : (Env.frame depth' names args' env').lookup slot' = some v') : Stands .value v v' := by
  rcases hslot.lookup_frame hdepth names args args' env env' with ⟨h, h'⟩ | ⟨h, h'⟩ | ⟨h, h'⟩
  · rw [h] at hv
    cases hv
  · exact getElem?_of_forall₂ hargs (h ▸ hv) (h' ▸ hv')
  · exact hvalues slot slot' v v' hslot (h ▸ hv) (h' ▸ hv')

/-- Code that was read in this scope may be evaluated in this environment. -/
structure Env.Admits (env : Env) (fixed : Bool) (scope : Scope) : Prop where
  below : fixed = false → env.Below (scope.depth + 1)
  top : env = .top → fixed = true ∨ scope.depth = 0

/-- What is found at once on the left is code on the right: the expression that makes it. -/
inductive Respelled (here here' : Env) : Expr → Expr → Prop where
  | captured {fixed : Bool} {scope : Scope} {slot : Slot} {v e' : Expr}
    (hslot : here.lookup slot = some v) (h : Reread fixed .value scope v e')
    (hroom : here'.Admits fixed scope) : Respelled here here' (.argument slot) e'
  | done {fixed : Bool} {scope : Scope} {v e' : Expr} (hdone : v.isDone = true)
    (h : Reread fixed .value scope v e') (hroom : here'.Admits fixed scope) :
      Respelled here here' v e'

/-- One layer of code. -/
abbrev StandsLayer (here here' : Env) : Expr → Expr → Prop :=
  CodeLayer Env.lookup Env.lookup (fun _ _ => True) (fun here here' => Stands (.code here here'))
    (Stands .value) Respelled here here'

theorem Env.orElse_top (env : Env) : env.orElse .top = env := by
  cases env <;> rfl

/-- One layer of a value that is evaluated once more. -/
theorem layer_again {v v' : Expr} (h : Stands .value v v') : StandsLayer .top .top v v' := by
  cases h with
  | function f => exact .function f
  | leftSection op h => exact .leftSection op (.again h)
  | rightSection op h => exact .rightSection op (.again h)
  | @items xs xs' env env' cell cell' hlength h =>
    refine .literal cell cell' trivial ?_
    rw [Env.orElse_top, Env.orElse_top]
    exact forall₂_of_getElem? hlength h
  | atom hatom => exact .done (Expr.isDone_of_atom hatom) (Expr.isDone_of_atom hatom) (.atom hatom)
  | applied hf hlength h => exact .done rfl rfl (.applied hf hlength h)
  | closure h hfit hdepth hvalues => exact .done rfl rfl (.closure h hfit hdepth hvalues)
  | progression p => exact .done rfl rfl (.progression p)
  | prepend hx hl => exact .done rfl rfl (.prepend hx hl)
  | concat ha hb => exact .done rfl rfl (.concat ha hb)
  | mapped hf hl => exact .done rfl rfl (.mapped hf hl)
  | filtered hp hl => exact .done rfl rfl (.filtered hp hl)
  | dropped count hl => exact .done rfl rfl (.dropped count hl)

/-- Where a list was made, nothing is found for slots of lambdas in it. -/
theorem lookup_elements {own here : Env} {depth : Nat} {slot slot' : Slot}
    (hslot : (own.region depth).Own slot slot') : (own.orElse here).lookup slot = none := by
  cases own with
  | top => exact hslot.elim
  | frame d names arguments parent =>
    have hbelow : (Env.frame d names arguments parent).Below (d + 1) := Nat.lt_succ_self d
    exact hbelow.lookup_eq_none hslot.1

/-- An element of a list and what was read for it. -/
theorem stands_element {fixed : Bool} {scope : Scope} {own here here' : Env} {x x' : Expr}
    (hroom : here'.Admits fixed scope)
    (h : Reread (fixed || decide (scope.depth = 0)) (.code (own.region scope.depth)) scope x x') :
    Stands (.code (own.orElse here) here') x x' := by
  refine .reread h (.elements fun hfixed => ?_) ?_ ?_ ?_
  · exact hroom.below (Bool.or_eq_false_iff.mp hfixed).1
  · intro htop
    cases own with
    | top => rfl
    | frame => cases htop
  · intro htop
    rcases hroom.top htop with hfixed | hdepth
    · rw [hfixed, Bool.true_or]
    · rw [decide_eq_true hdepth, Bool.or_true]
  · intro slot slot' v v' hslot hv _
    rw [lookup_elements hslot] at hv
    cases hv

/-- One layer of a value and of the expression that was read for it. -/
theorem layer_embedded {fixed : Bool} {scope : Scope} {v e' : Expr} {here here' : Env}
    (h : Reread fixed .value scope v e') (hroom : here'.Admits fixed scope)
    (hsub : ∀ {u u'}, Reread fixed .value scope u u' → Stands (.code here here') u u') :
    StandsLayer here here' v e' := by
  cases h with
  | builtin => exact .function _
  | leftSection op h => exact .leftSection op (hsub h)
  | rightSection _ h => exact .rightSection _ (hsub h)
  | items cell g h =>
    exact .literal cell none trivial (forall₂_map fun x hx => stands_element hroom (h x hx))
  | number hstays hzero => exact .other (.done rfl (.number hstays hzero) hroom)
  | bool b => exact .done rfl rfl (.atom rfl)
  | str text => exact .done rfl rfl (.atom rfl)
  | null => exact .done rfl rfl (.atom rfl)
  | closure hne hnames henv h => exact .other (.done rfl (.closure hne hnames henv h) hroom)
  | applied g hf h hne hlength => exact .other (.done rfl (.applied g hf h hne hlength) hroom)
  | progression h => exact .other (.done rfl (.progression h) hroom)
  | prepend hx hl => exact .other (.done rfl (.prepend hx hl) hroom)
  | concat ha hb => exact .other (.done rfl (.concat ha hb) hroom)
  | mapped hname hf hl => exact .other (.done rfl (.mapped hname hf hl) hroom)
  | filtered hname hp hl => exact .other (.done rfl (.filtered hname hp hl) hroom)
  | dropped hname hcount hl => exact .other (.done rfl (.dropped hname hcount hl) hroom)

/-- One layer of code and of what was read for it. -/
theorem layer_reread {fixed : Bool} {region : Region} {scope : Scope} {e e' : Expr}
    {here here' : Env}
    (h : Reread fixed (.code region) scope e e') (hfit : Suits fixed region scope here here')
    (hleft : here = .top → region = .closed) (hright : here' = .top → fixed = true)
    (hvalues : ∀ slot slot' v v', region.Own slot slot' → here.lookup slot = some v →
      here'.lookup slot' = some v' → Stands .value v v') : StandsLayer here here' e e' := by
  have hsub : ∀ {e e'}, Reread fixed (.code region) scope e e' → Stands (.code here here') e e' :=
    fun h => .reread h hfit hleft hright hvalues
  have hroom : here'.Admits fixed scope := ⟨hfit.below, fun htop => .inl (hright htop)⟩
  cases h with
  | number hstays hzero => exact .other (.done rfl (.number hstays hzero) hroom)
  | bool b => exact .done rfl rfl (.atom rfl)
  | str text => exact .done rfl rfl (.atom rfl)
  | null => exact .done rfl rfl (.atom rfl)
  | builtin => exact .function _
  | leftSection op h => exact .leftSection op (hsub h)
  | rightSection _ h => exact .rightSection _ (hsub h)
  | embedded h => exact layer_embedded h hroom fun h => hsub (.embedded h)
  | captured hslot h => exact .other (.captured (hfit.captured hslot) h hroom)
  | parameter hslot =>
    rcases hfit.lookup hslot with ⟨hv, hv'⟩ | ⟨v, v', hv, hv'⟩
    · exact .stray hv hv' hslot.name_eq.symm
    · exact .bound hv hv' (hvalues _ _ _ _ hslot hv hv')
  | unary op h => exact .unary op (hsub h)
  | binary op hl hr => exact .binary op (hsub hl) (hsub hr)
  | call hf ha => exact .call (hsub hf) (hsub ha)
  | lambda _ _ hdepth h => exact .lambda (.closure h hfit hdepth hvalues)
  | conditional hc hy hn => exact .conditional (hsub hc) (hsub hy) (hsub hn)
  | literal g h => exact .literal none none trivial (forall₂_map fun x hx => hsub (h x hx))
  | range g hstart hsecond hstop =>
    exact .range (hsub hstart) (optionRel_map fun e he => hsub (hsecond e he))
      (optionRel_map fun e he => hsub (hstop e he))
  | interpolated g h => exact .interpolated (forall₂_mapExpr fun e he => hsub (h e he))

/-- **To an evaluator, what stands for a value is the same.** -/
def Likeness.stands : Likeness Env.lookup Env.lookup where
  World := Unit
  le _ _ := True
  le_refl _ := trivial
  le_trans _ _ := trivial
  env _ _ _ := True
  code _ here here' := Stands (.code here here')
  value _ := Stands .value
  other _ := Respelled
  env_mono _ h := h
  code_mono _ h := h
  value_mono _ h := h
  env_top _ := trivial
  code_top h := .again h
  code_layer := by
    intro _ here here' e e' h
    cases h with
    | again h => exact layer_again h
    | reread h hfit hleft hright hvalues => exact layer_reread h hfit hleft hright hvalues
  value_built := by
    intro _ v v' h
    cases h with
    | atom h => exact .atom h
    | function f => exact .function f
    | applied hf h => exact .applied_of hf h
    | leftSection op h => exact .leftSection op h
    | rightSection op h => exact .rightSection op h
    | progression p => exact .progression p
    | empty => exact .items_of none none .nil
    | prepend hx hl => exact .prepend hx hl
    | concat ha hb => exact .concat ha hb
    | mapped hf hl => exact .mapped hf hl
    | filtered hp hl => exact .filtered hp hl
    | dropped count hl => exact .dropped count hl
  value_seen := by
    intro _ v v' h
    cases h with
    | atom h => exact .built (.atom h)
    | function f => exact .built (.function f)
    | applied hf hlength h => exact .built (.applied hf (forall₂_of_getElem? hlength h))
    | leftSection op h => exact .built (.leftSection op h)
    | rightSection op h => exact .built (.rightSection op h)
    | progression p => exact .built (.progression p)
    | prepend hx hl => exact .built (.prepend hx hl)
    | concat ha hb => exact .built (.concat ha hb)
    | mapped hf hl => exact .built (.mapped hf hl)
    | filtered hp hl => exact .built (.filtered hp hl)
    | dropped count hl => exact .built (.dropped count hl)
    | @closure fixed region scope depth names body body' env env' h hfit hdepth hvalues =>
      refine .closure rfl fun args args' hargs _ => ?_
      refine .reread h (hfit.frame hdepth hargs.length_eq) (fun h => ?_) (fun h => ?_) ?_
      · cases h
      · cases h
      · exact fun slot slot' v v' hslot hv hv' => stands_frame hdepth hargs hvalues hslot hv hv'
    | @items xs xs' env env' cell cell' hlength h =>
      have hall := forall₂_of_getElem? hlength h
      cases hall with
      | nil => exact .nil env env' cell cell'
      | cons hx hxs => exact .cons hx (.items_of _ _ hxs)

end LazyExpr
