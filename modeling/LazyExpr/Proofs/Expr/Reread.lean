import LazyExpr.Proofs.Expr.Inlined

/-!
# Captured arguments in a text

A function or a list is shown with the arguments that it captured in their places.  Where these are
read again, a lambda may stand at another depth, an argument is written as the expression that makes
it, and a list that was evaluated is a literal.

* `Reread fixed place scope e e'`: where `e` is shown in a text with the names of `scope`, the
  expression `e'` is read.  There is one rule for each form, and the rules leave out what is shown
  as something else: a negative zero, a whole decimal without a digit behind the point, the least
  integer, a built-in function under a parameter of its name, and a parameter inside a list literal
  that was evaluated outside of every call.
* `Reread.readable`: what is read is an expression of the scope.
* `Reread.shownAlike`: **what is read is shown like what was shown.**
-/

namespace LazyExpr

/-! ## 1. Numbers -/

/-- A number is read as it was: it is not the least integer, which is a difference, and it has a
digit behind the point. -/
def Number.Stays : Number → Prop
  | .integer n => n ≠ Int64.minValue
  | .decimal d => d.pointed = d

/-- A zero with a minus sign. -/
def Number.isNegativeZero : Number → Bool
  | .integer _ => false
  | .decimal d => d.negative && d.isZero

theorem source_spelling {n : Number} (h : n.Stays) : n.spelling.source = n.source := by
  cases n with
  | integer n =>
    by_cases hneg : n < 0
    · obtain ⟨hsource, hnonneg⟩ := source_of_negative h hneg
      have hopposite : ¬ -n < 0 := by simpa [Int64.lt_iff_toInt_lt] using hnonneg
      have hprecedence : (Expr.integer (-n)).precedence = Precedence.atom := by
        simp [Expr.integer, Expr.precedence, Number.precedence, Number.isNegative, hopposite]
      rw [Number.spelling_negative h hneg, hsource, Expr.source, hprecedence]
      rfl
    · rw [Number.spelling_nonnegative h hneg]
      rfl
  | decimal d =>
    cases hneg : d.negative with
    | true =>
      have hprecedence : (Expr.decimal d.neg.pointed).precedence = Precedence.atom := by
        simp [Expr.decimal, Expr.precedence, Number.precedence, Number.isNegative,
          Decimal.isNegative, Decimal.neg, hneg]
      rw [Number.spelling_decimal_negative hneg, Expr.source, hprecedence]
      exact (congrArg ("-" ++ ·) d.neg.source_pointed).trans (Decimal.source_of_negative hneg).symm
    | false =>
      rw [Number.spelling_decimal hneg]
      exact d.source_pointed

theorem precedence_spelling {n : Number} (h : n.Stays) (hzero : n.isNegativeZero = false) :
    n.spelling.precedence = n.precedence := by
  cases n with
  | integer n =>
    have hmin : n ≠ Int64.minValue := h
    by_cases hneg : n < 0
    · rw [Number.spelling_negative hmin hneg]
      simp [Number.precedence, Number.isNegative, hmin, hneg, Expr.precedence]
    · rw [Number.spelling_nonnegative hmin hneg]
      rfl
  | decimal d =>
    have hzero : d.negative = true → d.isZero = false := by
      simpa [Number.isNegativeZero] using hzero
    cases hneg : d.negative with
    | true =>
      rw [Number.spelling_decimal_negative hneg]
      simp [Number.precedence, Number.isNegative, Decimal.isNegative, hneg, hzero hneg,
        Expr.precedence]
    | false =>
      have hpointed : d.pointed = d := h
      rw [Number.spelling_decimal hneg, hpointed]
      rfl

theorem readable_spelling (scope : Scope) (n : Number) : Readable scope n.spelling := by
  cases n with
  | integer n =>
    by_cases hmin : n = Int64.minValue
    · rw [Number.spelling, if_pos hmin]
      exact .binary .sub (.unary .negate (.integer (by decide))) (.integer (by decide))
    · by_cases hneg : n < 0
      · rw [Number.spelling_negative hmin hneg]
        exact .unary .negate (.integer (source_of_negative hmin hneg).2)
      · rw [Number.spelling_nonnegative hmin hneg]
        exact .integer (by simpa [Int64.lt_iff_toInt_lt] using hneg)
  | decimal d =>
    cases hneg : d.negative with
    | true =>
      rw [Number.spelling_decimal_negative hneg]
      exact .unary .negate (.decimal (d.neg.isLiteral_pointed (by simp [Decimal.neg, hneg])))
    | false =>
      rw [Number.spelling_decimal hneg]
      exact .decimal (d.isLiteral_pointed hneg)

/-- The spelling of a number has no slots. -/
theorem inlines_spelling (env : Env) (n : Number) : Inlines env n.spelling n.spelling := by
  cases n with
  | integer n =>
    simp only [Number.spelling]
    split
    · exact .binary .sub (.unary .negate (.atom rfl)) (.atom rfl)
    · split
      · exact .unary .negate (.atom rfl)
      · exact .atom rfl
  | decimal d =>
    simp only [Number.spelling]
    split
    · exact .unary .negate (.atom rfl)
    · exact .atom rfl

/-- What is written of a progression is read as it was, and the progression comes back. -/
structure Progression.Returns (p : Progression) : Prop where
  start : p.start.Stays
  second : ∀ n ∈ p.second?, n.Stays
  stop : ∀ n ∈ p.stop, n.Stays
  step : ∃ step, rangeStep? p.start p.second? = some step ∧ .ofBounds p.start step p.stop = p

/-! ## 2. Where slots are looked up -/

/-- Where the slots of code are looked up. -/
inductive Region where
  /-- There are no slots but those of lambdas in the code. -/
  | closed
  /-- Slots of lambdas less deep than `low` belong to the calls `base`; the lambdas from `low` on
  are lambdas from `low'` on where the text is read. -/
  | inside (base : Env) (low low' : Nat)

namespace Region

/-- The captured argument of a slot. -/
def captured : Region → Slot → Option Expr
  | closed, _ => none
  | inside base low _, slot => if slot.depth < low then base.lookup slot else none

/-- A slot of the code and the slot that is read for it. -/
def Own : Region → Slot → Slot → Prop
  | closed, _, _ => False
  | inside _ low low', slot, slot' => low ≤ slot.depth ∧ slot'.depth + low = slot.depth + low' ∧
    slot'.index = slot.index ∧ slot'.name = slot.name

/-- A lambda of this depth is a lambda of that depth where the text is read. -/
def Aligned : Region → Nat → Nat → Prop
  | closed, _, _ => True
  | inside _ low low', depth, depth' => low ≤ depth ∧ depth' + low = depth + low'

theorem Own.name_eq {region : Region} {slot slot' : Slot} (h : region.Own slot slot') :
    slot'.name = slot.name := by
  cases region with
  | closed => exact h.elim
  | inside => exact h.2.2.2

end Region

namespace Env

/-- All calls belong to lambdas less deep than `depth`. -/
def Below (depth : Nat) : Env → Prop
  | top => True
  | frame d _ _ _ => d < depth

/-- The region of code in this environment, which is read under `depth` lambdas. -/
def region (env : Env) (depth : Nat) : Region :=
  match env with
  | top => .closed
  | frame d _ _ _ => .inside env (d + 1) (depth + 1)

theorem Below.mono {env : Env} {d d' : Nat} (h : env.Below d) (hle : d ≤ d') : env.Below d' := by
  cases env with
  | top => trivial
  | frame => exact Nat.lt_of_lt_of_le h hle

/-- A slot of a deeper lambda has no argument. -/
theorem Below.lookup_eq_none {env : Env} {d : Nat} (h : env.Below d) {slot : Slot}
    (hslot : d ≤ slot.depth) :
    env.lookup slot = none := by
  cases env with
  | top => rfl
  | frame depth =>
    have hlt : depth < d := h
    rw [lookup, if_neg (by omega), if_pos (by omega)]

end Env

/-- What an expression is shown as: a value, or code in a region. -/
inductive Place where
  | value
  | code (region : Region)

/-- The region that the slots of an expression in this place belong to. -/
def Place.region : Place → Region
  | value => .closed
  | code region => region

/-! ## 3. What is read -/

/-- The fragment with another embedded expression. -/
def Fragment.mapExpr (f : Expr → Expr) : Fragment → Fragment
  | text t => text t
  | embedded e => embedded (f e)

section Map

variable {R : Expr → Expr → Prop} {g : Expr → Expr}

theorem forall₂_map {xs : List Expr} (h : ∀ x ∈ xs, R x (g x)) : List.Forall₂ R xs (xs.map g) := by
  rw [List.forall₂_map_right_iff, List.forall₂_same]
  exact h

theorem optionRel_map {o : Option Expr} (h : ∀ e ∈ o, R e (g e)) : Option.Rel R o (o.map g) := by
  cases o with
  | none => exact .none
  | some e => exact .some (h e rfl)

theorem forall₂_mapExpr {fragments : List Fragment} (h : ∀ e, .embedded e ∈ fragments → R e (g e)) :
    List.Forall₂ (FragmentLike R) fragments (fragments.map (.mapExpr g)) := by
  rw [List.forall₂_map_right_iff, List.forall₂_same]
  intro fragment hmem
  cases fragment with
  | text t => exact .text t
  | embedded e => exact .embedded (h e hmem)

end Map

/-- `Reread fixed place scope e e'`: where `e` is shown in a text with the names of `scope`, `e'` is
read. If `fixed`, parameters must not occur, because what is read is evaluated outside of every
call. -/
inductive Reread : Bool → Place → Scope → Expr → Expr → Prop where
  | number {fixed : Bool} {place : Place} {scope : Scope} {n : Number} (h : n.Stays)
    (hzero : n.isNegativeZero = false) : Reread fixed place scope (.number n) n.spelling
  | bool {fixed : Bool} {place : Place} {scope : Scope} (b : Bool) :
    Reread fixed place scope (.bool b) (.bool b)
  | str {fixed : Bool} {place : Place} {scope : Scope} (text : String) :
    Reread fixed place scope (.str text) (.str text)
  | null {fixed : Bool} {place : Place} {scope : Scope} : Reread fixed place scope .null .null
  | builtin {fixed : Bool} {place : Place} {scope : Scope} {b : Builtin}
    (h : scope.lookup b.name = some (.function b.toFunction)) :
    Reread fixed place scope (.function b.toFunction) (.function b.toFunction)
  | leftSection {fixed : Bool} {place : Place} {scope : Scope} (op : BinaryOp) {e e' : Expr}
    (h : Reread fixed place scope e e') :
    Reread fixed place scope (.leftSection op e) (.leftSection op e')
  | rightSection {fixed : Bool} {place : Place} {scope : Scope} {op : BinaryOp} (hop : op ≠ .sub)
    {e e' : Expr} (h : Reread fixed place scope e e') :
    Reread fixed place scope (.rightSection op e) (.rightSection op e')
  -- values
  | closure {fixed : Bool} {scope : Scope} {depth : Nat} {names : List String} {body body' : Expr}
    {env : Env} (hne : names ≠ []) (hnames : ∀ name ∈ names, Lexeme.IsName name)
    (henv : env.Below depth)
    (h : Reread fixed (.code (.inside env depth (scope.depth + 1)))
      (scope.inside names) body body') :
    Reread fixed .value scope (.closure depth names body env)
      (.lambda (scope.depth + 1) names body')
  | applied {fixed : Bool} {scope : Scope} {f f' : Expr} {args : List Expr} (g : Expr → Expr)
    (hf : Reread fixed .value scope f f') (h : ∀ x ∈ args, Reread fixed .value scope x (g x))
    (hne : args ≠ []) (hlength : args.length < f.takes) :
    Reread fixed .value scope (.applied f args) (f'.callAll (args.map g))
  | items {fixed : Bool} {scope : Scope} {xs : List Expr} {env : Env} (cell : Option Nat)
    (g : Expr → Expr)
    (h : ∀ x ∈ xs, Reread (fixed || decide (scope.depth = 0)) (.code (env.region scope.depth)) scope
      x (g x)) :
    Reread fixed .value scope (.list (.items xs env cell)) (.literal (xs.map g))
  | progression {fixed : Bool} {scope : Scope} {p : Progression} (h : p.Returns) :
    Reread fixed .value scope (.list (.progression p)) p.spelling
  | prepend {fixed : Bool} {scope : Scope} {x x' l' : Expr} {l : LazyList}
    (hx : Reread fixed .value scope x x') (hl : Reread fixed .value scope (.list l) l') :
    Reread fixed .value scope (.list (.prepend x l)) (.binary .prepend x' l')
  | concat {fixed : Bool} {scope : Scope} {a b : LazyList} {a' b' : Expr}
    (ha : Reread fixed .value scope (.list a) a') (hb : Reread fixed .value scope (.list b) b') :
    Reread fixed .value scope (.list (.concat a b)) (.binary .concat a' b')
  | mapped {fixed : Bool} {scope : Scope} {f f' l' : Expr} {l : LazyList}
    (hname : scope.lookup Builtin.map.name = some (.function Builtin.map.toFunction))
    (hf : Reread fixed .value scope f f') (hl : Reread fixed .value scope (.list l) l') :
    Reread fixed .value scope (.list (.mapped f l))
      (.call (.call (.function Builtin.map.toFunction) f') l')
  | filtered {fixed : Bool} {scope : Scope} {f f' l' : Expr} {l : LazyList}
    (hname : scope.lookup Builtin.filter.name = some (.function Builtin.filter.toFunction))
    (hf : Reread fixed .value scope f f') (hl : Reread fixed .value scope (.list l) l') :
    Reread fixed .value scope (.list (.filtered f l))
      (.call (.call (.function Builtin.filter.toFunction) f') l')
  | dropped {fixed : Bool} {scope : Scope} {count : Nat} {l' : Expr} {l : LazyList}
    (hname : scope.lookup Builtin.drop.name = some (.function Builtin.drop.toFunction))
    (hcount : count < 2 ^ 63) (hl : Reread fixed .value scope (.list l) l') :
    Reread fixed .value scope (.list (.dropped count l))
      (.call (.call (.function Builtin.drop.toFunction) (.integer (.ofNat count))) l')
  -- code
  /-- The elements of an evaluated list may be values. -/
  | embedded {fixed : Bool} {scope : Scope} {v e' : Expr} (h : Reread fixed .value scope v e') :
    Reread fixed (.code .closed) scope v e'
  /-- A captured argument is shown in the place of its slot. -/
  | captured {fixed : Bool} {region : Region} {scope : Scope} {slot : Slot} {v e' : Expr}
    (hslot : region.captured slot = some v) (h : Reread fixed .value scope v e') :
    Reread fixed (.code region) scope (.argument slot) e'
  | parameter {region : Region} {scope : Scope} {slot slot' : Slot} (hslot : region.Own slot slot')
    (hname : scope.lookup slot'.name = some (.argument slot')) :
    Reread false (.code region) scope (.argument slot) (.argument slot')
  | unary {fixed : Bool} {region : Region} {scope : Scope} (op : UnaryOp) {e e' : Expr}
    (h : Reread fixed (.code region) scope e e') :
    Reread fixed (.code region) scope (.unary op e) (.unary op e')
  | binary {fixed : Bool} {region : Region} {scope : Scope} (op : BinaryOp) {l l' r r' : Expr}
    (hl : Reread fixed (.code region) scope l l') (hr : Reread fixed (.code region) scope r r') :
    Reread fixed (.code region) scope (.binary op l r) (.binary op l' r')
  | call {fixed : Bool} {region : Region} {scope : Scope} {f f' a a' : Expr}
    (hf : Reread fixed (.code region) scope f f') (ha : Reread fixed (.code region) scope a a') :
    Reread fixed (.code region) scope (.call f a) (.call f' a')
  | lambda {fixed : Bool} {region : Region} {scope : Scope} {depth : Nat} {names : List String}
    {body body' : Expr} (hne : names ≠ []) (hnames : ∀ name ∈ names, Lexeme.IsName name)
    (hdepth : region.Aligned depth (scope.depth + 1))
    (h : Reread fixed (.code region) (scope.inside names) body body') :
    Reread fixed (.code region) scope (.lambda depth names body)
      (.lambda (scope.depth + 1) names body')
  | conditional {fixed : Bool} {region : Region} {scope : Scope} {c c' y y' n n' : Expr}
    (hc : Reread fixed (.code region) scope c c') (hy : Reread fixed (.code region) scope y y')
    (hn : Reread fixed (.code region) scope n n') :
    Reread fixed (.code region) scope (.conditional c y n) (.conditional c' y' n')
  | literal {fixed : Bool} {region : Region} {scope : Scope} {xs : List Expr} (g : Expr → Expr)
    (h : ∀ x ∈ xs, Reread fixed (.code region) scope x (g x)) :
    Reread fixed (.code region) scope (.literal xs) (.literal (xs.map g))
  | range {fixed : Bool} {region : Region} {scope : Scope} {start : Expr}
    {second stop : Option Expr}
    (g : Expr → Expr) (hstart : Reread fixed (.code region) scope start (g start))
    (hsecond : ∀ e ∈ second, Reread fixed (.code region) scope e (g e))
    (hstop : ∀ e ∈ stop, Reread fixed (.code region) scope e (g e)) :
    Reread fixed (.code region) scope (.range start second stop)
      (.range (g start) (second.map g) (stop.map g))
  | interpolated {fixed : Bool} {region : Region} {scope : Scope} {fragments : List Fragment}
    (g : Expr → Expr) (h : ∀ e, .embedded e ∈ fragments → Reread fixed (.code region) scope e (g e))
    (hsplit : SplitTexts (fragments.map Fragment.text?)) :
    Reread fixed (.code region) scope (.interpolated fragments)
      (.interpolated (fragments.map (.mapExpr g)))

/-! ## 4. It is an expression of the scope -/

/-- **What is read is an expression of the scope.** -/
theorem Reread.readable {fixed : Bool} {place : Place} {scope : Scope} {e e' : Expr}
    (h : Reread fixed place scope e e') : Readable scope e' := by
  induction h with
  | @number _ _ scope n => exact readable_spelling scope n
  | bool b => exact .bool b
  | str text => exact .str text
  | null => exact .null
  | builtin h => exact .name h
  | leftSection op _ ih => exact .leftSection op ih
  | rightSection hop _ ih => exact .rightSection hop ih
  | closure hne hnames _ _ ih => exact .lambda hne hnames ih
  | applied g _ _ _ _ ihf ih => exact .callAll ihf (List.forall_mem_map.mpr ih)
  | items cell g _ ih => exact .literal (List.forall_mem_map.mpr ih)
  | @progression _ scope p =>
    exact .range (readable_spelling scope p.start)
      (Option.forall_mem_map.mpr fun n _ => readable_spelling scope n)
      (Option.forall_mem_map.mpr fun n _ => readable_spelling scope n)
  | prepend _ _ ihx ihl => exact .binary .prepend ihx ihl
  | concat _ _ iha ihb => exact .binary .concat iha ihb
  | mapped hname _ _ ihf ihl => exact .call (.call (.name hname) ihf) ihl
  | filtered hname _ _ ihf ihl => exact .call (.call (.name hname) ihf) ihl
  | dropped hname hcount _ ihl =>
    have hint := Int64.toInt_ofNat_of_lt hcount
    exact .call (.call (.name hname) (.integer (by omega))) ihl
  | embedded _ ih => exact ih
  | captured _ _ ih => exact ih
  | parameter _ hname => exact .name hname
  | unary op _ ih => exact .unary op ih
  | binary op _ _ ihl ihr => exact .binary op ihl ihr
  | call _ _ ihf iha => exact .call ihf iha
  | lambda hne hnames _ _ ih => exact .lambda hne hnames ih
  | conditional _ _ _ ihc ihy ihn => exact .conditional ihc ihy ihn
  | literal g _ ih => exact .literal (List.forall_mem_map.mpr ih)
  | range g _ _ _ ihstart ihsecond ihstop =>
    exact .range ihstart (Option.forall_mem_map.mpr ihsecond) (Option.forall_mem_map.mpr ihstop)
  | interpolated g _ hsplit ih =>
    refine .interpolated (fun e he => ?_) ?_
    · obtain ⟨fragment, hmem, heq⟩ := List.mem_map.mp he
      cases fragment with
      | text t => cases heq
      | embedded x =>
        cases heq
        exact ih x hmem
    · have htexts : Fragment.text? ∘ Fragment.mapExpr g = Fragment.text? := by
        funext fragment
        cases fragment <;> rfl
      rw [List.map_map, htexts]
      exact hsplit

/-! ## 5. It is shown alike -/

/-- What stands in the region is shown in `env`, and what is read for it, in `env'`. -/
structure Suits (fixed : Bool) (region : Region) (scope : Scope) (env env' : Env) : Prop where
  captured : ∀ {slot v}, region.captured slot = some v → env.lookup slot = some v
  own : fixed = false → ∀ {slot slot'}, region.Own slot slot' →
    (env.lookup slot = none ↔ env'.lookup slot' = none)
  below : fixed = false → env'.Below (scope.depth + 1)

namespace Suits

variable {fixed : Bool} {region : Region} {scope : Scope} {env env' : Env}

theorem closed (h : fixed = false → env'.Below (scope.depth + 1)) :
    Suits fixed .closed scope env env' where
  captured := by rintro _ _ ⟨⟩
  own := fun _ _ _ => False.elim
  below := h

/-- Where a closure was made, there is nothing yet for its parameters. -/
theorem inside {depth : Nat} (henv : env.Below depth)
    (h : fixed = false → env'.Below (scope.depth + 1)) :
    Suits fixed (.inside env depth (scope.depth + 1)) scope env env' where
  captured := by
    intro slot v hslot
    rw [Region.captured] at hslot
    split at hslot
    · exact hslot
    · cases hslot
  own := by
    rintro hfixed slot slot' ⟨hlow, hdepth, -, -⟩
    have hright : env'.lookup slot' = none := (h hfixed).lookup_eq_none (by omega)
    rw [henv.lookup_eq_none hlow, hright]
  below := h

/-- Where a list was made, there is nothing for the parameters of lambdas in it. -/
theorem elements {own here : Env}
    (h : fixed = false → env'.Below (scope.depth + 1)) :
    Suits fixed (own.region scope.depth) scope (own.orElse here) env' := by
  cases own with
  | top => exact .closed h
  | frame d => exact .inside (Nat.lt_succ_self d) h

theorem lambda (h : Suits fixed region scope env env') (names : List String) :
    Suits fixed region (scope.inside names) env env' where
  captured := h.captured
  own := h.own
  below := fun hfixed => (h.below hfixed).mono (Nat.le_succ _)

/-- A slot of a lambda has an argument on both sides, or on neither. -/
theorem lookup (h : Suits false region scope env env') {slot slot' : Slot}
    (hslot : region.Own slot slot') : (env.lookup slot = none ∧ env'.lookup slot' = none) ∨
      ∃ v v', env.lookup slot = some v ∧ env'.lookup slot' = some v' := by
  have hsame := h.own rfl hslot
  cases hv : env.lookup slot with
  | none => exact .inl ⟨rfl, hsame.mp hv⟩
  | some v =>
    cases hv' : env'.lookup slot' with
    | none => rw [hsame.mpr hv'] at hv; cases hv
    | some v' => exact .inr ⟨v, v', rfl, rfl⟩

end Suits

/-- Slots of the region's own lambdas are bound to values that are shown alike. -/
def ShowsAlike (region : Region) (env env' : Env) : Prop :=
  ∀ slot slot' v v', region.Own slot slot' → env.lookup slot = some v →
    env'.lookup slot' = some v' → ShownAlike env env' v v'

theorem showsAlike_inside {base env' : Env} {low low' : Nat} (h : base.Below low) :
    ShowsAlike (.inside base low low') base env' := by
  rintro slot slot' v v' ⟨hlow, -⟩ hslot
  rw [h.lookup_eq_none hlow] at hslot
  cases hslot

theorem showsAlike_elements {own here env' : Env} {depth : Nat} :
    ShowsAlike (own.region depth) (own.orElse here) env' := by
  cases own with
  | top => exact fun _ _ _ _ => False.elim
  | frame d => exact showsAlike_inside (Nat.lt_succ_self d)

/-- A progression is written as its range literal is. -/
theorem source_spelling_progression {p : Progression} (h : p.Returns) :
    p.spelling.source = p.source := by
  rw [source_progression, Progression.spelling, ← source_spelling h.start]
  have hsecond : ∀ n ∈ p.second?, n.spelling.source = n.source :=
    fun n hn => source_spelling (h.second n hn)
  have hstop : ∀ n ∈ p.stop, n.spelling.source = n.source :=
    fun n hn => source_spelling (h.stop n hn)
  cases hs : p.second? with
  | none =>
    cases hp : p.stop with
    | none => rfl
    | some stop => simp [Expr.source, hstop stop hp]
  | some second =>
    cases hp : p.stop with
    | none => simp [Expr.source, hsecond second hs]
    | some stop => simp [Expr.source, hsecond second hs, hstop stop hp]

theorem shownAlike_progression {env env' : Env} {p : Progression} (h : p.Returns) :
    ShownAlike env env' (.list (.progression p)) p.spelling := by
  have hinlines : ∀ o : Option Number,
      Option.Rel (Inlines env') (o.map Number.spelling) (o.map Number.spelling) := by
    rintro (_ | n)
    · exact .none
    · exact .some (inlines_spelling env' n)
  have hliteral : Inlines env' p.spelling p.spelling :=
    .range (inlines_spelling env' p.start) (hinlines p.second?) (hinlines p.stop)
  exact ⟨_, _, .progression p, hliteral, source_spelling_progression h, rfl⟩

/-- **What is read is shown like what was shown.** -/
theorem Reread.shownAlike {fixed : Bool} {place : Place} {scope : Scope} {e e' : Expr}
    (h : Reread fixed place scope e e') {env env' : Env}
    (hfit : Suits fixed place.region scope env env')
    (hvalues : fixed = false → ShowsAlike place.region env env') : ShownAlike env env' e e' := by
  have hclosed : ∀ {env env' : Env}, ShowsAlike .closed env env' := fun _ _ _ _ => False.elim
  induction h generalizing env env' with
  | @number _ _ _ n hstays hzero =>
    exact .spelling ⟨source_spelling hstays, precedence_spelling hstays hzero⟩
      (inlines_spelling env' n)
  | bool | str | null => exact .atom rfl
  | builtin => exact .function _
  | leftSection op _ ih => exact .leftSection op (ih hfit hvalues)
  | rightSection _ _ ih => exact .rightSection _ (ih hfit hvalues)
  | closure _ _ henv _ ih =>
    exact .closure
      (.lambda (ih (.lambda (.inside henv hfit.below) _) fun _ => showsAlike_inside henv))
  | applied g _ _ hne _ ihf ih =>
    exact .received (ihf hfit hvalues) (forall₂_map fun x hx => ih x hx hfit hvalues) hne
  | items cell g _ ih =>
    refine .items cell none
      (forall₂_map fun x hx => ih x hx (.elements fun hfixed => ?_) fun _ => ?_)
    · exact hfit.below (Bool.or_eq_false_iff.mp hfixed).1
    · exact showsAlike_elements
  | progression h => exact shownAlike_progression h
  | prepend _ _ ihx ihl => exact .prepend (ihx hfit hvalues) (ihl hfit hvalues)
  | concat _ _ iha ihb => exact .concat (iha hfit hvalues) (ihb hfit hvalues)
  | mapped _ _ _ ihf ihl => exact .mapped (ihf hfit hvalues) (ihl hfit hvalues)
  | filtered _ _ _ ihf ihl => exact .filtered (ihf hfit hvalues) (ihl hfit hvalues)
  | dropped _ hcount _ ihl => exact .dropped hcount (ihl hfit hvalues)
  | embedded _ ih => exact ih hfit fun _ => hclosed
  | captured hslot _ ih =>
    exact .bound (hfit.captured hslot) (ih (.closed hfit.below) fun _ => hclosed)
  | parameter hslot =>
    rcases hfit.lookup hslot with ⟨hv, hv'⟩ | ⟨v, v', hv, hv'⟩
    · exact .free hv hv' hslot.name_eq.symm
    · exact .bound hv (.symm (.bound hv' (hvalues rfl _ _ _ _ hslot hv hv').symm))
  | unary op _ ih => exact .unary op (ih hfit hvalues)
  | binary op _ _ ihl ihr => exact .binary op (ihl hfit hvalues) (ihr hfit hvalues)
  | call _ _ ihf iha => exact .call (ihf hfit hvalues) (iha hfit hvalues)
  | lambda _ _ _ _ ih => exact .lambda (ih (hfit.lambda _) hvalues)
  | conditional _ _ _ ihc ihy ihn =>
    exact .conditional (ihc hfit hvalues) (ihy hfit hvalues) (ihn hfit hvalues)
  | literal g _ ih => exact .items none none (forall₂_map fun x hx => ih x hx hfit hvalues)
  | range g _ _ _ ihstart ihsecond ihstop =>
    exact .range (ihstart hfit hvalues) (optionRel_map fun e he => ihsecond e he hfit hvalues)
      (optionRel_map fun e he => ihstop e he hfit hvalues)
  | interpolated g _ _ ih =>
    exact .interpolated (forall₂_mapExpr fun e he => ih e he hfit hvalues)

/-- What is read is all that was shown. -/
theorem Reread.display {v e' : Expr} (h : Reread false .value .standard v e') :
    ∃ n, ∀ fuel, n ≤ fuel → v.display? fuel = some e'.source := by
  have hfit : Suits false .closed .standard .top .top := .closed fun _ => trivial
  obtain ⟨u, u', ⟨n, hv⟩, he', htext⟩ := h.shownAlike hfit fun _ _ _ _ _ => False.elim
  obtain rfl : e' = u' := Inlines.unique (exists_staysAt h.readable Scope.faithful_standard) he'
  exact ⟨n, fun fuel hfuel => by rw [Expr.display?, hv fuel hfuel, Option.map_some, htext.1]⟩

end LazyExpr
