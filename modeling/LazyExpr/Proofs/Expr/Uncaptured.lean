import LazyExpr.Proofs.Expr.Data

/-!
# Values that captured nothing

A function is shown with the arguments that it captured in their places, and there a name or a sign
may come to mean something else.  Where nothing was captured, nothing can: closures made outside of
every call, built-in functions, functions that have received some such values, sections and views of
lists.

* `Uncaptured v`: `v` is such a value, its numbers are shown exactly, and none of them is a negative
  zero.
* `written_uncaptured`: **the source text of such a value is read as its spelling**, at the strength
  it is written with.
* `display_uncaptured`: such a value is shown as its source text.
-/

namespace LazyExpr

/-! ## 1. The values -/

/-- `Callee f k`: a function that captured nothing and takes `k` arguments. -/
inductive Callee : Expr → Nat → Prop where
  | builtin (b : Builtin) : Callee (.function b.toFunction) b.arity
  | closure {parameters : List String} {body : Expr}
    (h : Readable .standard (.lambda 1 parameters body)) :
    Callee (.closure 1 parameters body .top) parameters.length

/-- The number of arguments that a function takes. -/
def Expr.takes : Expr → Nat
  | .function f => f.arity
  | .closure _ parameters _ _ => parameters.length
  | _ => 0

theorem Callee.takes_eq {f : Expr} {k : Nat} (h : Callee f k) : f.takes = k := by
  cases h <;> rfl

/-- Values into whose text no captured argument is put. -/
inductive Uncaptured : Expr → Prop where
  | integer (n : Int64) : Uncaptured (.integer n)
  | decimal {d : Decimal} (hscale : d.pointed = d) (hzero : d.negative = true → d.isZero = false) :
    Uncaptured (.decimal d)
  | bool (b : Bool) : Uncaptured (.bool b)
  | str (text : String) : Uncaptured (.str text)
  | null : Uncaptured .null
  | callee {f : Expr} {k : Nat} (h : Callee f k) : Uncaptured f
  | applied {f a : Expr} {k : Nat} {args : List Expr} (hf : Callee f k)
    (h : ∀ x ∈ a :: args, Uncaptured x) (hk : (a :: args).length < k) :
    Uncaptured (.applied f (a :: args))
  | leftSection (op : BinaryOp) {a : Expr} (h : Uncaptured a) : Uncaptured (.leftSection op a)
  | rightSection {op : BinaryOp} (hop : op ≠ .sub) {a : Expr} (h : Uncaptured a) :
    Uncaptured (.rightSection op a)
  /-- The elements of a list literal are evaluated only when they are asked for. -/
  | items {xs : List Expr} (cell : Option Nat) (h : ∀ x ∈ xs, Readable .standard x) :
    Uncaptured (.list (.items xs .top cell))
  | progression {p : Progression} (h : p.OfLiteral) : Uncaptured (.list (.progression p))
  | prepend {x : Expr} {l : LazyList} (hx : Uncaptured x) (hl : Uncaptured (.list l)) :
    Uncaptured (.list (.prepend x l))
  | concat {a b : LazyList} (ha : Uncaptured (.list a)) (hb : Uncaptured (.list b)) :
    Uncaptured (.list (.concat a b))
  | mapped {f : Expr} {l : LazyList} (hf : Uncaptured f) (hl : Uncaptured (.list l)) :
    Uncaptured (.list (.mapped f l))
  | filtered {p : Expr} {l : LazyList} (hp : Uncaptured p) (hl : Uncaptured (.list l)) :
    Uncaptured (.list (.filtered p l))
  | dropped {count : Nat} {l : LazyList} (hcount : count < 2 ^ 63) (hl : Uncaptured (.list l)) :
    Uncaptured (.list (.dropped count l))

/-! ## 2. Expressions are their own spelling -/

/-- An expression from a text is its own spelling. -/
theorem spelling_of_readable {scope : Scope} {e : Expr} (h : Readable scope e)
    (hscope : scope.Faithful) :
    e.spelling = e := by
  induction h with
  | @integer _ n hn =>
    have hneg : ¬n < 0 := by simpa [Int64.lt_iff_toInt_lt] using hn
    have hmin : n ≠ Int64.minValue := by
      rintro rfl
      exact absurd hn (by decide)
    simp [Expr.integer, Expr.spelling, Number.spelling, hneg, hmin]
  | @decimal _ d hd =>
    have hpointed : d.pointed = d := by
      refine dif_neg fun hroom => ?_
      rcases hd.2 with hscale | hfull
      · omega
      · omega
    simp [Expr.decimal, Expr.spelling, Number.spelling, hd.1, hpointed]
  | name hlookup =>
    obtain ⟨-, ⟨f, rfl, -⟩ | ⟨slot, rfl, -⟩⟩ := hscope _ _ hlookup
    · rfl
    · rfl
  | leftSection op _ ih => rw [Expr.spelling, ih hscope]
  | rightSection hop _ ih => rw [Expr.spelling, ih hscope]
  | @literal _ elements _ ih =>
    have hself : elements.map Expr.spelling = elements.map id :=
      List.map_congr_left fun x hx => ih x hx hscope
    rw [Expr.literal, Expr.spelling, LazyList.spelling, spellings_eq_map, hself, List.map_id]
    rfl
  | _ => rfl

/-! ## 3. What is read -/

/-- Some text is read as the spelling of the value, at the strength that the value is written
with. -/
def Spelled (v : Expr) : Prop :=
  ∃ ts, Written .standard v.source v.spelling v.precedence ts

/-- A value in the place of an operand or an argument. -/
theorem Spelled.bracketed {v : Expr} (h : Spelled v) {least : Nat}
    (hleast : least ≤ Precedence.atom) :
    ∃ p ts, Written .standard (bracketed least v.precedence v.source) v.spelling p ts ∧
    least ≤ p := by
  obtain ⟨ts, hwritten⟩ := h
  exact hwritten.bracketed hleast

theorem written_builtin (b : Builtin) :
    Written .standard b.name (.function b.toFunction) Precedence.atom [.identifier b.name] := by
  refine written_name b.isName ?_
  cases b <;> rfl

/-- A function in front of its arguments. -/
theorem written_arguments {f a : Expr} {text : String} {p : Nat} {ts : List Token}
    {args : List Expr} (hf : Written .standard text f p ts) (hp : Precedence.application ≤ p)
    (h : ∀ x ∈ a :: args, Spelled x) :
    ∃ us, Written .standard (text ++ argumentsSource (a :: args))
      (f.callAll (spellings (a :: args)))
      Precedence.application us := by
  induction args generalizing f a text p ts with
  | nil =>
    obtain ⟨q, us, ha, hq⟩ := (h a (by simp)).bracketed (Nat.le_refl Precedence.atom)
    have hcall := written_call hf hp ha hq
    exact ⟨_, by simpa [argumentsSource, spellings, Expr.callAll, String.append_assoc] using hcall⟩
  | cons b args ih =>
    obtain ⟨q, us, ha, hq⟩ := (h a (by simp)).bracketed (Nat.le_refl Precedence.atom)
    have hcall := written_call hf hp ha hq
    obtain ⟨vs, hall⟩ := ih (a := b) hcall (Nat.le_refl _) fun x hx =>
      h x (List.mem_cons_of_mem a hx)
    rw [argumentsSource, spellings, Expr.callAll, List.foldl_cons]
    exact ⟨vs, by simpa [Expr.callAll, String.append_assoc] using hall⟩

theorem spelled_callee {f : Expr} {k : Nat} (h : Callee f k) : Spelled f := by
  cases h with
  | builtin b => exact ⟨_, written_builtin b⟩
  | closure h => exact written_source h Scope.faithful_standard

/-- A built-in function that keeps a value and a list for later is written as their application. -/
theorem spelled_view (b : Builtin) {x : Expr} {l : LazyList} {text : String} {p : Nat}
    {ts : List Token} (hx : Written .standard text x p ts) (hp : Precedence.atom ≤ p)
    (hl : Spelled (.list l)) :
    ∃ us, Written .standard (b.name ++ " " ++ text ++ " " ++
        bracketed Precedence.atom l.precedence l.source)
      (.call (.call (.function b.toFunction) x) l.spelling) Precedence.application us := by
  obtain ⟨q, us, hl, hq⟩ := hl.bracketed (Nat.le_refl Precedence.atom)
  have hfirst := written_call (written_builtin b) (by decide) hx hp
  exact ⟨_, written_call hfirst (Nat.le_refl _) hl hq⟩

theorem spelled_binary (op : BinaryOp) {x y : Expr} (hx : Spelled x) (hy : Spelled y) :
    ∃ ts, Written .standard (bracketed op.leftPrecedence x.precedence x.source ++
        (" " ++ op.symbol ++ " ") ++ bracketed op.rightPrecedence y.precedence y.source)
      (.binary op x.spelling y.spelling) op.precedence ts := by
  have hstrength : op.leftPrecedence ≤ Precedence.atom ∧ op.rightPrecedence ≤ Precedence.atom := by
    cases op <;> decide
  obtain ⟨_, _, hx, hp⟩ := hx.bracketed hstrength.1
  obtain ⟨_, _, hy, hq⟩ := hy.bracketed hstrength.2
  have hwritten := written_binary hx hp hy hq
  exact ⟨_, by simpa [String.append_assoc] using hwritten⟩

/-- **The source text of a value that captured nothing is read as its spelling.** -/
theorem written_uncaptured {v : Expr} (h : Uncaptured v) : Spelled v := by
  induction h with
  | integer n =>
    obtain ⟨ts, hwritten, -⟩ := written_number .standard (.integer n)
    exact ⟨ts, hwritten⟩
  | @decimal d _ hzero =>
    obtain ⟨ts, hwritten, -⟩ := written_number .standard (.decimal d)
    have hstrength : (Number.decimal d).strength = (Number.decimal d).precedence := by
      cases hneg : d.negative with
      | true =>
        simp [Number.strength, Number.precedence, Number.isNegative, Decimal.isNegative, hneg,
          hzero hneg]
      | false =>
        simp [Number.strength, Number.precedence, Number.isNegative, Decimal.isNegative, hneg]
    rw [hstrength] at hwritten
    exact ⟨ts, hwritten⟩
  | bool b => exact ⟨_, written_bool b⟩
  | str text => exact ⟨_, written_str text⟩
  | null => exact ⟨_, written_null⟩
  | callee h => exact spelled_callee h
  | applied hf _ _ ih =>
    obtain ⟨_, _, hf, hp⟩ :=
      (spelled_callee hf).bracketed (by decide : Precedence.application ≤ Precedence.atom)
    exact written_arguments hf hp ih
  | leftSection op _ ih =>
    have hstrength : op.leftPrecedence ≤ Precedence.atom := by cases op <;> decide
    obtain ⟨_, _, h, hp⟩ := ih.bracketed hstrength
    exact ⟨_, written_leftSection h hp⟩
  | @rightSection op hop _ _ ih =>
    have hstrength : op.rightPrecedence ≤ Precedence.atom := by cases op <;> decide
    obtain ⟨_, _, h, -⟩ := ih.bracketed hstrength
    exact ⟨_, written_rightSection hop h⟩
  | @items xs cell h =>
    have hliteral : Readable .standard (.literal xs) := .literal h
    obtain ⟨ts, hwritten⟩ := written_source hliteral Scope.faithful_standard
    have hspelling : (Expr.list (.items xs .top cell)).spelling = .literal xs :=
      spelling_of_readable hliteral Scope.faithful_standard
    have hsource : (Expr.list (.items xs .top cell)).source = (Expr.literal xs).source :=
      source_items_congr (List.forall₂_same.mpr fun _ _ => rfl) .top .top none cell
    refine ⟨ts, ?_⟩
    rw [hspelling, hsource]
    exact hwritten
  | @progression p =>
    obtain ⟨ts, hwritten, -⟩ := written_progression .standard p
    exact ⟨ts, hwritten⟩
  | prepend _ _ ihx ihl =>
    have hview := spelled_binary .prepend ihx ihl
    rw [show " " ++ BinaryOp.prepend.symbol ++ " " = " : " by decide] at hview
    exact hview
  | concat _ _ iha ihb =>
    have hview := spelled_binary .concat iha ihb
    rw [show " " ++ BinaryOp.concat.symbol ++ " " = " ++ " by decide] at hview
    exact hview
  | @mapped f l _ _ ihf ihl =>
    obtain ⟨_, _, hf, hp⟩ := ihf.bracketed (Nat.le_refl Precedence.atom)
    have hview := spelled_view .map hf hp ihl
    rw [show Builtin.map.name ++ " " = "map " by decide] at hview
    exact hview
  | filtered _ _ ihf ihl =>
    obtain ⟨_, _, hf, hp⟩ := ihf.bracketed (Nat.le_refl Precedence.atom)
    have hview := spelled_view .filter hf hp ihl
    rw [show Builtin.filter.name ++ " " = "filter " by decide] at hview
    exact hview
  | @dropped count l hcount _ ihl =>
    have hint : (Int64.ofNat count).toInt = count := by
      rw [Int64.toInt_ofNat_of_lt hcount]
    have hwritten : Written .standard (String.ofList (Nat.toDigits 10 count))
      (.integer (.ofNat count))
        Precedence.atom [.integer (.ofNat count)] := by
      have hnonneg : 0 ≤ (Int64.ofNat count).toInt := by omega
      have hwritten : Written .standard _ _ _ _ := written_integer hnonneg
      rw [source_integer hnonneg, hint] at hwritten
      exact hwritten
    have hview := spelled_view .drop hwritten (Nat.le_refl _) ihl
    rw [show Builtin.drop.name ++ " " = "drop " by decide] at hview
    exact hview

/-! ## 4. What is shown -/

/-- The two are written alike. -/
def SameText (v v' : Expr) : Prop := v'.source = v.source ∧ v'.precedence = v.precedence

/-- With captured arguments in their places the value is still written as it is. -/
def ShownAt (v : Expr) (n : Nat) : Prop :=
  ∀ fuel, n ≤ fuel → ∃ v', v.inline fuel .top = some v' ∧ SameText v v'

/-- A bound for each of some expressions gives one for all of them. -/
theorem exists_bound_all {P : Expr → Nat → Prop} (hmono : ∀ {x n m}, P x n → n ≤ m → P x m)
    {xs : List Expr} (h : ∀ x ∈ xs, ∃ n, P x n) : ∃ n, ∀ x ∈ xs, P x n := by
  induction xs with
  | nil => exact ⟨0, nofun⟩
  | cons x xs ih =>
    obtain ⟨n, hx⟩ := h x (by simp)
    obtain ⟨m, hxs⟩ := ih fun y hy => h y (by simp [hy])
    refine ⟨max n m, List.forall_mem_cons.mpr ⟨hmono hx (Nat.le_max_left n m), fun y hy => ?_⟩⟩
    exact hmono (hxs y hy) (Nat.le_max_right n m)

theorem ShownAt.mono {v : Expr} {n m : Nat} (h : ShownAt v n) (hle : n ≤ m) : ShownAt v m :=
  fun fuel hfuel => h fuel (Nat.le_trans hle hfuel)

/-- A list inside a view. -/
theorem ShownAt.inside {l : LazyList} {n fuel : Nat} (h : ShownAt (.list l) n) (hfuel : n ≤ fuel) :
    ∃ l', l.inline fuel .top = some l' ∧ SameText (.list l) (.list l') := by
  obtain ⟨v, hinline, hsame⟩ := h (fuel + 1) (Nat.le_succ_of_le hfuel)
  rw [Expr.inline, Option.map_eq_some_iff] at hinline
  obtain ⟨l', hl, rfl⟩ := hinline
  exact ⟨l', hl, hsame⟩

theorem arguments_shown {fuel : Nat} {xs : List Expr}
    (h : ∀ x ∈ xs, ∃ x', x.inline fuel .top = some x' ∧ SameText x x') :
    ∃ ys, xs.mapM (Expr.inline fuel .top) = some ys ∧ argumentsSource ys = argumentsSource xs := by
  induction xs with
  | nil => exact ⟨[], rfl, rfl⟩
  | cons x xs ih =>
    obtain ⟨x', hx, hsource, hprecedence⟩ := h x (by simp)
    obtain ⟨ys, hys, htexts⟩ := ih fun y hy => h y (by simp [hy])
    refine ⟨x' :: ys, by simp [List.mapM_cons, hx, hys], ?_⟩
    rw [argumentsSource, argumentsSource, hsource, hprecedence, htexts]

/-- What stays as it is when it has been read is shown so as a value. -/
theorem shownAt_of_readable {e v : Expr} (h : Readable .standard e) (hsame : SameText v e)
    (hinline : ∀ fuel, v.inline (fuel + 1) .top = e.inline (fuel + 1) .top) : ∃ n, ShownAt v n := by
  obtain ⟨n, hstays⟩ := exists_staysAt h Scope.faithful_standard
  refine ⟨n + 1, fun fuel hfuel => ⟨e, ?_, hsame⟩⟩
  obtain ⟨fuel, rfl⟩ : ∃ f, fuel = f + 1 := ⟨fuel - 1, by omega⟩
  rw [hinline, hstays _ (by omega)]

/-- A form that is shown with two steps more than its parts. -/
theorem exists_shownAt_step {v : Expr} (n : Nat) (h : ∀ fuel, n ≤ fuel →
    ∃ v', v.inline (fuel + 2) .top = some v' ∧ SameText v v') : ∃ n, ShownAt v n := by
  refine ⟨n + 2, fun fuel hfuel => ?_⟩
  obtain ⟨fuel, rfl⟩ : ∃ f, fuel = f + 2 := ⟨fuel - 2, by omega⟩
  exact h fuel (by omega)

/-- A view of a list with a value beside it. -/
theorem exists_shownAt_view (make : Expr → LazyList → LazyList) {x : Expr} {l : LazyList}
    (hinline : ∀ fuel, (make x l).inline (fuel + 1) .top = do
      let x ← x.inline fuel .top
      let l ← l.inline fuel .top
      return make x l)
    (hsame : ∀ x' l', SameText x x' → SameText (.list l) (.list l') →
      SameText (.list (make x l)) (.list (make x' l')))
    (hx : ∃ n, ShownAt x n) (hl : ∃ n, ShownAt (.list l) n) :
    ∃ n, ShownAt (.list (make x l)) n := by
  obtain ⟨n, hx⟩ := hx
  obtain ⟨m, hl⟩ := hl
  refine exists_shownAt_step (max n m) fun fuel hfuel => ?_
  obtain ⟨x', hx', hxtext⟩ := hx fuel (by omega)
  obtain ⟨l', hl', hltext⟩ := hl.inside (Nat.le_trans (Nat.le_max_right n m) hfuel)
  refine ⟨.list (make x' l'), ?_, hsame x' l' hxtext hltext⟩
  rw [Expr.inline, hinline, hx', hl']
  rfl

theorem exists_shownAt_callee {f : Expr} {k : Nat} (h : Callee f k) : ∃ n, ShownAt f n := by
  cases h with
  | builtin b => exact exists_shownAt_step 0 fun fuel _ => ⟨_, rfl, rfl, rfl⟩
  | closure h => exact shownAt_of_readable h ⟨rfl, rfl⟩ fun fuel => rfl

theorem exists_shownAt {v : Expr} (h : Uncaptured v) : ∃ n, ShownAt v n := by
  induction h with
  | integer | decimal | bool | str | null | progression =>
    exact exists_shownAt_step 0 fun fuel _ => ⟨_, rfl, rfl, rfl⟩
  | callee h => exact exists_shownAt_callee h
  | applied hf _ _ ih =>
    obtain ⟨n, hf⟩ := exists_shownAt_callee hf
    obtain ⟨m, hargs⟩ := exists_bound_all (P := ShownAt) ShownAt.mono ih
    refine exists_shownAt_step (max n m) fun fuel hfuel => ?_
    obtain ⟨f', hf', hsource, hprecedence⟩ := hf (fuel + 1) (by omega)
    obtain ⟨ys, hys, htexts⟩ := arguments_shown fun x hx => hargs x hx (fuel + 1) (by omega)
    refine ⟨.applied f' ys, by rw [Expr.inline, hf', hys]; rfl, ?_, rfl⟩
    rw [Expr.source, Expr.source, hsource, hprecedence, htexts]
  | leftSection op _ ih =>
    obtain ⟨n, h⟩ := ih
    refine exists_shownAt_step n fun fuel hfuel => ?_
    obtain ⟨a, ha, hsource, hprecedence⟩ := h (fuel + 1) (by omega)
    refine ⟨.leftSection op a, by rw [Expr.inline, ha]; rfl, ?_, rfl⟩
    rw [Expr.source, Expr.source, hsource, hprecedence]
  | @rightSection op _ _ _ ih =>
    obtain ⟨n, h⟩ := ih
    refine exists_shownAt_step n fun fuel hfuel => ?_
    obtain ⟨a, ha, hsource, hprecedence⟩ := h (fuel + 1) (by omega)
    refine ⟨.rightSection op a, by rw [Expr.inline, ha]; rfl, ?_, rfl⟩
    rw [Expr.source, Expr.source, hsource, hprecedence]
  | @items xs cell h =>
    have hliteral : Readable .standard (.literal xs) := .literal h
    have hsource : (Expr.literal xs).source = (Expr.list (.items xs .top cell)).source :=
      source_items_congr (List.forall₂_same.mpr fun _ _ => rfl) .top .top cell none
    refine shownAt_of_readable hliteral ⟨hsource, rfl⟩ fun fuel => ?_
    cases fuel <;> rfl
  | prepend _ _ ihx ihl =>
    refine exists_shownAt_view .prepend (fun _ => rfl) ?_ ihx ihl
    rintro x' l' ⟨hsource, hprecedence⟩ ⟨hsource', hprecedence'⟩
    simp only [Expr.source, Expr.precedence] at hsource' hprecedence'
    refine ⟨?_, rfl⟩
    rw [Expr.source, Expr.source, LazyList.source, LazyList.source, hsource, hprecedence, hsource',
      hprecedence']
  | @concat a b _ _ iha ihb =>
    obtain ⟨n, ha⟩ := iha
    obtain ⟨m, hb⟩ := ihb
    refine exists_shownAt_step (max n m) fun fuel hfuel => ?_
    obtain ⟨a', ha', hsource, hprecedence⟩ := ha.inside (Nat.le_trans (Nat.le_max_left n m) hfuel)
    obtain ⟨b', hb', hsource', hprecedence'⟩ :=
      hb.inside (Nat.le_trans (Nat.le_max_right n m) hfuel)
    simp only [Expr.source, Expr.precedence] at hsource hprecedence hsource' hprecedence'
    refine ⟨.list (.concat a' b'), by rw [Expr.inline, LazyList.inline, ha', hb']; rfl, ?_, rfl⟩
    rw [Expr.source, Expr.source, LazyList.source, LazyList.source, hsource, hprecedence, hsource',
      hprecedence']
  | mapped _ _ ihf ihl =>
    refine exists_shownAt_view .mapped (fun _ => rfl) ?_ ihf ihl
    rintro f' l' ⟨hsource, hprecedence⟩ ⟨hsource', hprecedence'⟩
    simp only [Expr.source, Expr.precedence] at hsource' hprecedence'
    refine ⟨?_, rfl⟩
    rw [Expr.source, Expr.source, LazyList.source, LazyList.source, hsource, hprecedence, hsource',
      hprecedence']
  | filtered _ _ ihp ihl =>
    refine exists_shownAt_view .filtered (fun _ => rfl) ?_ ihp ihl
    rintro p' l' ⟨hsource, hprecedence⟩ ⟨hsource', hprecedence'⟩
    simp only [Expr.source, Expr.precedence] at hsource' hprecedence'
    refine ⟨?_, rfl⟩
    rw [Expr.source, Expr.source, LazyList.source, LazyList.source, hsource, hprecedence, hsource',
      hprecedence']
  | @dropped count l _ _ ihl =>
    obtain ⟨n, hl⟩ := ihl
    refine exists_shownAt_step n fun fuel hfuel => ?_
    obtain ⟨l', hl', hsource, hprecedence⟩ := hl.inside hfuel
    simp only [Expr.source, Expr.precedence] at hsource hprecedence
    refine ⟨.list (.dropped count l'), by rw [Expr.inline, LazyList.inline, hl']; rfl, ?_, rfl⟩
    rw [Expr.source, Expr.source, LazyList.source, LazyList.source, hsource, hprecedence]

/-- A value that captured nothing is shown as its source text. -/
theorem display_uncaptured {v : Expr} (h : Uncaptured v) :
    ∃ n, ∀ fuel, n ≤ fuel → v.display? fuel = some v.source := by
  obtain ⟨n, hshown⟩ := exists_shownAt h
  refine ⟨n, fun fuel hfuel => ?_⟩
  obtain ⟨v', hinline, hsource, -⟩ := hshown fuel hfuel
  rw [Expr.display?, hinline, Option.map_some, hsource]

end LazyExpr
