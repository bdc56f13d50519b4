import LazyExpr.Proofs.Eval.Recall
import LazyExpr.Proofs.List.Rebuilt

/-!
# Values evaluated once more

Evaluating a value gives the value back, but a list of expressions gets new cells.  What was known
of its elements has to be found out again, and may be nested more deeply this time, since then it is
shared with nothing that was evaluated before.  Otherwise nothing can be told from the two when they
are shown.

* `Shows` — what a value shows in the end.
* `Shows.copy` — **a copy that knows less shows the same, or ends at the limit.**
* `again_shows` — evaluating a value again, showing what that gives, and showing what materializing
  gives.
* `again_limited` — a value that is shown as it is, and cannot be shown once it was evaluated again.
-/

namespace LazyExpr

open Eval

/-! ## 1. What a value shows -/

section Shows

variable {v v' : Expr} {m m' m₁ : Machine Unit} {r r' : Except Fault String}

/-- What a value shows in the end, with as much fuel as it takes: its text, or a fault. -/
def Shows (v : Expr) (m : Machine Unit) (r : Except Fault String) (m' : Machine Unit) : Prop :=
  ∃ k, ∀ j, k ≤ j → attempt (render .standard j v) m = .ok r m'

/-- The same text, or faults that are equal up to cells and have the same message. -/
inductive SameShown : Except Fault String → Except Fault String → Prop where
  | text (text : String) : SameShown (.ok text) (.ok text)
  | fault {e e' : Fault} (h : e.erase = e'.erase)
    (hmessage : ∀ fuel, e.message? fuel = e'.message? fuel) :
    SameShown (.error e) (.error e')

theorem SameShown.of_erase {e e' : Fault} (h : e.erase = e'.erase) :
    SameShown (.error e) (.error e') :=
  .fault h fun fuel => by rw [← e.message_erase, h, e'.message_erase]

/-- The run that ends with what is shown. -/
def shownRun (r : Except Fault String) (m : Machine Unit) : Ended Unit String :=
  match r with
  | .ok text => .ok text m
  | .error e => .error (.fault e) m

theorem attempt_iff {x : Eval Unit String} : attempt x m = .ok r m' ↔ x m = shownRun r m' := by
  unfold attempt shownRun
  rcases x m with ⟨text, m₁⟩ | ⟨_ | _, m₁⟩ <;> cases r <;> simp

theorem shows_iff : Shows v m r m' ↔ ∃ k, ∀ j, k ≤ j → render .standard j v m = shownRun r m' := by
  simp only [Shows, attempt_iff]

/-- What is shown with some fuel is shown with more. -/
theorem shows_of_attempt {k : Nat} (h : attempt (render .standard k v) m = .ok r m') :
    Shows v m r m' := by
  have hsteady : Setting.standard.Steady := ⟨fun _ _ => .give .null, display_mono⟩
  have hrun := attempt_iff.mp h
  refine shows_iff.mpr ⟨k, fun j hj => ?_⟩
  rw [← hrun]
  refine render_more _ hsteady hj m fun m₁ hfuel => ?_
  rw [hrun] at hfuel
  cases r <;> cases hfuel

/-- **A copy on a machine that knows less shows the same, or ends at the limit.** -/
theorem Shows.copy {Γ : Ledger} {Λ : Key} (hm : Γ.Fits m)
    (hs : Settled Unit (some maxDepth) Γ m.cells)
    (hv : ∀ c ∈ v.claims, Γ.Owns c) (hshows : Shows v m r m₁) (hcopy : Copy Λ v v')
    (hm' : Backed m₁.cells Λ m') (hdepth : m.depth ≤ m'.depth) :
    ∃ r' m₂, Shows v' m' r' m₂ ∧ (r' = .error (.recursionLimit maxDepth) ∨ SameShown r r') := by
  obtain ⟨k, hk⟩ := shows_iff.mp hshows
  have hreplayed : ReplayedBy (σ := Unit) (some maxDepth) (Γ, some Λ) _ _ _ :=
    .render (hcopy.twin hv) k
  have hreplays := hreplayed (Γ, some Λ) (.refl _) m hm hs
  have hrun : render (.builtins Unit true (some maxDepth)) k v m = shownRun r m₁ :=
    hk k (Nat.le_refl k)
  have hends : EndIn (fun j => render .standard j v' m') fun ended =>
      ∃ r' m₂, ended = shownRun r' m₂ ∧
        (r' = .error (.recursionLimit maxDepth) ∨ SameShown r r') := by
    refine EndIn.of_shift (n := k) ?_
    cases r with
    | ok text =>
      refine (hreplays.value rfl hrun (.refl _) hm').imp fun ended hended => ?_
      cases hended with
      | ok _ _ _ h =>
        obtain ⟨-, -, w₀, -, -, rfl⟩ := h
        exact ⟨.ok text, _, rfl, .inr (.text text)⟩
      | limited hl m₂ =>
        cases hl
        exact ⟨_, m₂, rfl, .inl rfl⟩
    | error e =>
      refine (hreplays.fault rfl hrun hm' hdepth).imp fun ended hended => ?_
      cases hended with
      | same h m₂ => exact ⟨.error _, m₂, rfl, .inr (.of_erase h)⟩
      | limited hl m₂ =>
        cases hl
        exact ⟨_, m₂, rfl, .inl rfl⟩
  obtain ⟨_, ⟨r', m₂, rfl, hr'⟩, hlater⟩ := hends
  exact ⟨r', m₂, shows_iff.mpr hlater, hr'⟩

end Shows

/-! ## 2. Machines with other cells -/

section Copies

variable {σ : Type} {arities : Nat → Nat} {Γ : Ledger} {m : Machine σ} {v : Expr}

/-- Cells that are among the first ones stand for themselves. -/
theorem linked_self {n : Nat} {cells : List (Option Nat)} (h : ∀ b ∈ cells.reduceOption, b < n)
    (new : Key) : Linked (some (List.range n ++ new)) cells cells := by
  rintro _ ⟨⟩
  refine List.forall₂_same.mpr fun cell hcell => ?_
  cases cell with
  | none => exact .none
  | some b =>
    have hb : b < n := h b (List.reduceOption_mem_iff.mpr hcell)
    refine .some ?_
    rw [List.getElem?_append_left (by simpa using hb), List.getElem?_range hb]

/-- The cells of claims that are in order are cells of the machine. -/
theorem Ledger.Fits.lt_size (hm : Γ.Fits m) {claims : List Claim} (h : ∀ c ∈ claims, Γ.Owns c) :
    ∀ b ∈ claims.map Claim.address, b < m.cells.size := by
  intro b hb
  obtain ⟨c, hc, rfl⟩ := List.mem_map.mp hb
  rw [← hm.size]
  exact (List.getElem?_eq_some_iff.mp (h c hc)).1

/-- A value is a copy of itself. -/
theorem Ledger.Fits.copy_self (hm : Γ.Fits m) (hv : ∀ c ∈ v.claims, Γ.Owns c) (new : Key) :
    Copy (List.range m.cells.size ++ new) v v :=
  ⟨rfl, linked_self (v.reduceOption_cells ▸ hm.lt_size hv) new⟩

/-- A machine knows no more than some cells that hold all that it knows. -/
theorem Ledger.Fits.backed (hm : Γ.Fits m) {C : Cells} (hC : KnownIn m.cells C) :
    Backed C (List.range m.cells.size) m where
  plain := hm.plain
  size := List.length_range
  known {b u} hb := by
    obtain ⟨x, env, hat, hclaims, -⟩ := hm.filled hb
    have hlt : b < m.cells.size := hm.size ▸ (List.getElem?_eq_some_iff.mp hat).1
    have hcopy := hm.copy_self hclaims []
    rw [List.append_nil] at hcopy
    exact ⟨b, u, List.getElem?_range hlt, hC b u hb, hcopy⟩

/-- The cells that a value gets new ones for when it is evaluated. -/
def Expr.ownCells : Expr → List Nat
  | .list (.items xs _ cell) => List.range' (cell.getD 0) xs.length
  | .leftSection _ v | .rightSection _ v => v.ownCells
  | _ => []

theorem Expr.length_ownCells (v : Expr) : v.ownCells.length = v.newCells := by
  fun_induction Expr.ownCells v with
  | case1 xs env cell => exact List.length_range'
  | case2 _ _ ih | case3 _ _ ih => exact ih
  | case4 v hitems hleft hright =>
    cases v with
    | list l =>
      cases l with
      | items xs env cell => exact absurd rfl (hitems xs env cell)
      | _ => rfl
    | leftSection op v => exact absurd rfl (hleft op v)
    | rightSection op v => exact absurd rfl (hright op v)
    | _ => rfl

/-- The value of a value is a copy of it, with new cells that stand for its own. -/
theorem Ledger.Fits.copy_again (hm : Γ.Fits m) (hv : ∀ c ∈ v.claims, Γ.Owns c)
    (hcanonical : Canonical arities v) :
    Copy (List.range m.cells.size ++ v.ownCells) v (v.again m.cells.size) := by
  refine ⟨(v.again_alike _).symm, ?_⟩
  fun_induction Expr.again m.cells.size v with
  | case1 xs env cell =>
    obtain ⟨-, hrest⟩ := List.forall_mem_append.mp hv
    refine (Linked.append_iff (by simp)).mpr ⟨?_, linked_self ?_ _⟩
    · cases hcanonical.toList with
      | items hcell =>
        rcases hcell with rfl | hcell
        · exact .nil
        · obtain ⟨a, rfl⟩ := Option.isSome_iff_exists.mp hcell
          have hown := linked_new (List.range m.cells.size) a xs.length
          rw [List.length_range] at hown
          exact hown
    · rw [List.reduceOption_append, reduceOption_cellsAll,
        env.reduceOption_cells, ← List.map_append]
      exact hm.lt_size hrest
  | case2 op v ih =>
    cases hcanonical with
    | atom h => cases h
    | leftSection _ h => exact ih hv h
  | case3 op v ih =>
    cases hcanonical with
    | atom h => cases h
    | rightSection _ h => exact ih hv h
  | case4 v => exact linked_self (v.reduceOption_cells ▸ hm.lt_size hv) _

end Copies

/-! ## 3. Programs -/

section Programs

variable {arities : Nat → Nat} {m m' : Machine Unit} {v : Expr}

/-- A value on a machine that is in order. -/
structure Placed (arities : Nat → Nat) (Γ : Ledger) (v : Expr) (m : Machine Unit) : Prop where
  fits : Γ.Fits m
  settled : Settled Unit (some maxDepth) Γ m.cells
  claims : ∀ c ∈ v.claims, Γ.Owns c
  depth : m.depth = 0
  canonical : Canonical arities v
  cells : CanonicalCells arities m

theorem Setting.standard_canonical :
    (Regime.canonical arities fun _ => True).Laws Setting.standard :=
  Setting.builtins_canonical true (some maxDepth)

/-- What a program gives is in order. -/
theorem placed_of_program {source : String} {e : Expr} {n : Nat}
    (hparse : parseIn .standard source = .ok e)
    (hrun : eval .standard n .top e (.fresh ()) = .ok v m) : ∃ Γ, Placed arities Γ v m := by
  have hcode : Twin ([], none) e e := .self (by simp [claims_of_parseIn hparse])
  have hsettled : Settled Unit (some maxDepth) [] (Machine.fresh ()).cells := by
    intro a x env u howns
    cases howns
  have hreplayed : ReplayedBy (σ := Unit) (some maxDepth) ([], none) _ _ _ :=
    replayable_all n .top hcode
  have hreplays := hreplayed ([], none) (.refl _) (.fresh ()) (Ledger.fits_fresh ()) hsettled
  change Replays _ _ _ _ (eval .standard n .top e (.fresh ())) _ at hreplays
  rw [hrun] at hreplays
  obtain ⟨Γ, hordered, hgives⟩ := hreplays.alone
  obtain ⟨u, w₀, -, h₀, htwin⟩ := hgives v m rfl
  have hreads := Regime.canonical_reads arities (fun _ : Unit => True) (w := ())
    (fun name e hname => ⟨.top, WellFormed.standard arities name e hname⟩) hparse
  have hholds := (Setting.standard_canonical.sound n).eval hreads
  obtain ⟨hcells, hvalue⟩ := hholds.canonical (m := .fresh ()) nofun
  change CanonicalCells _ (Ended.machine (eval .standard n .top e (.fresh ()))) at hcells
  rw [hrun] at hcells
  exact ⟨Γ, hordered.fits, hordered.settled, (htwin.mono h₀).2.1, hreplays.depth,
    hvalue v m hrun, hcells⟩

/-- Showing a value leaves it in order. -/
theorem Placed.shown {Γ : Ledger} (hv : Placed arities Γ v m) {r : Except Fault String}
    (hshows : Shows v m r m') : KnownIn m.cells m'.cells ∧ ∃ Γ', Placed arities Γ' v m' := by
  obtain ⟨k, hk⟩ := shows_iff.mp hshows
  have hrun : render .standard k v m = shownRun r m' := hk k (Nat.le_refl k)
  have hmachine : (Ended.machine (render .standard k v m)) = m' := by
    rw [hrun]
    cases r <;> rfl
  have htwin : Twin (Γ, none) v v := .self hv.claims
  have hreplayed : ReplayedBy (σ := Unit) (some maxDepth) (Γ, none) _ _ _ := .render htwin k
  have hreplays := hreplayed (Γ, none) (.refl _) m hv.fits hv.settled
  change Replays _ _ _ _ (render .standard k v m) _ at hreplays
  obtain ⟨Γ', hordered, -⟩ := hreplays.alone
  have hgrows := hreplays.grows
  have hdepth := hreplays.depth
  have hholds := ((Setting.standard_canonical.sound k).materialize (w := ()) hv.canonical).bind
    (Q := fun _ _ => True) fun w₁ u h₁ _ =>
      Regime.Holds.fueled (o := u.display? k) fun _ _ => trivial
  obtain ⟨hcells, -⟩ := hholds.canonical hv.cells
  change CanonicalCells _ (Ended.machine (render .standard k v m)) at hcells
  rw [hmachine] at hordered hgrows hdepth hcells
  exact ⟨hgrows, Γ', hordered.fits, hordered.settled, fun c hc => (hv.claims c hc).mono hordered.le,
    hdepth.trans hv.depth, hv.canonical, hcells⟩

/-- Materializing a value gives one that is materialized, on a machine in order. -/
theorem Placed.materialize {Γ : Ledger} (hv : Placed arities Γ v m) {n : Nat} {u : Expr}
    (hrun : materialize .standard n v m = .ok u m') :
    m'.Plain ∧ m'.depth = 0 ∧ Materialized arities u := by
  have htwin : Twin (Γ, none) v v := .self hv.claims
  have hreplays := (Bond.replay_sound Unit (some maxDepth) n).materialize htwin
    (Γ, none) (.refl _) m
    hv.fits hv.settled
  change Replays _ _ _ _ (Eval.materialize .standard n v m) _ at hreplays
  rw [hrun] at hreplays
  obtain ⟨Γ', hordered, -⟩ := hreplays.alone
  refine ⟨hordered.fits.plain, hreplays.depth.trans hv.depth, ?_⟩
  exact (materialize_materialized Setting.standard_canonical hv.canonical hv.cells hrun).2

/-- A value shows itself again, or ends at the limit, after it was evaluated once more. -/
theorem Placed.again {Γ Γ' : Ledger} {M : Machine Unit} (hv : Placed arities Γ v m)
    (hM : Placed arities Γ' v M) {r : Except Fault String} (hshows : Shows v m r m')
    (hknown : KnownIn M.cells m'.cells) :
    ∃ r' m₂, Shows (v.again M.cells.size) (M.withCells v.newCells) r' m₂ ∧
      (r' = .error (.recursionLimit maxDepth) ∨ SameShown r r') := by
  have hback := (hM.fits.backed hknown).append v.ownCells
  rw [v.length_ownCells] at hback
  have hdepth : m.depth ≤ M.depth := Nat.le_of_eq (hv.depth.trans hM.depth.symm)
  exact hshows.copy hv.fits hv.settled hv.claims
    (hM.fits.copy_again hM.claims hv.canonical) hback hdepth

/-- A value shows the same wherever no more is known than when it was shown. -/
theorem Placed.shows {Γ Γ' : Ledger} {M : Machine Unit} (hv : Placed arities Γ v m)
    (hM : Placed arities Γ' v M) {r : Except Fault String} (hshows : Shows v m r m')
    (hknown : KnownIn M.cells m'.cells) :
    ∃ r' m₂, Shows v M r' m₂ ∧ (r' = .error (.recursionLimit maxDepth) ∨ SameShown r r') := by
  have hcopy := hM.fits.copy_self hM.claims []
  rw [List.append_nil] at hcopy
  have hdepth : m.depth ≤ M.depth := Nat.le_of_eq (hv.depth.trans hM.depth.symm)
  exact hshows.copy hv.fits hv.settled hv.claims hcopy (hM.fits.backed hknown) hdepth

/-- What materializes a value is what it shows. -/
theorem Shows.materialized {r : Except Fault String} (hshows : Shows v m r m') {n : Nat} {u : Expr}
    {m₁ : Machine Unit} (hrun : materialize .standard n v m = .ok u m₁) :
    ∃ text, r = .ok text ∧ ∃ k, ∀ i, k ≤ i → u.display? i = some text := by
  obtain ⟨k, hk⟩ := shows_iff.mp hshows
  have hwritten : ∀ i, max k n ≤ i → fueled (u.display? i) m₁ = shownRun r m' := by
    intro i hi
    have hsteady : Setting.standard.Steady := ⟨fun _ _ => .give .null, display_mono⟩
    have hmore : materialize .standard i v m = .ok u m₁ := by
      rw [← hrun]
      exact materialize_more _ hsteady (Nat.le_trans (Nat.le_max_right k n) hi) m
        (by rw [hrun]; nofun)
    rw [← hk i (Nat.le_trans (Nat.le_max_left k n) hi), render, bind_run, hmore]
    rfl
  have hdisplay : ∀ i, max k n ≤ i → ∃ text, u.display? i = some text ∧ r = .ok text := by
    intro i hi
    have h := hwritten i hi
    cases hd : u.display? i with
    | none =>
      rw [hd] at h
      cases r <;> cases h
    | some text =>
      rw [hd] at h
      cases r <;> cases h
      exact ⟨text, rfl, rfl⟩
  obtain ⟨text, -, rfl⟩ := hdisplay _ (Nat.le_refl _)
  refine ⟨text, rfl, max k n, fun i hi => ?_⟩
  obtain ⟨text', hd, htext⟩ := hdisplay i hi
  rw [hd, Except.ok.inj htext]

/-- What is materialized to itself shows how it is written, unless an element is too deep. -/
theorem shows_rebuilt {u : Expr} {a k : Nat} {text : String}
    (hends : EndIn (fun j => materialize .standard j u m)
      (Rebuilds a m (Overdeep u) fun u' => u'.Alike u))
    (htext : ∀ i, k ≤ i → u.display? i = some text) :
    ∃ m₂, (¬Overdeep u → Shows u m (.ok text) m₂) ∧
      (Overdeep u → Shows u m (.error (.recursionLimit maxDepth)) m₂) := by
  obtain ⟨ended, hended, k', hlater⟩ := hends
  replace hlater : ∀ i, k' ≤ i → materialize .standard i u m = ended := hlater
  cases hended with
  | @ok u' m₂ _ hflat hu =>
    refine ⟨m₂, fun _ => shows_iff.mpr ⟨max k k', fun i hi => ?_⟩, fun hdeep => absurd hdeep hflat⟩
    rw [render, bind_run, hlater i (Nat.le_trans (Nat.le_max_right k k') hi)]
    show fueled (u'.display? i) m₂ = _
    rw [display_alike hu i, htext i (Nat.le_trans (Nat.le_max_left k k') hi)]
    rfl
  | limited m₂ hdeep =>
    refine ⟨m₂, fun hflat => absurd hdeep hflat, fun _ => shows_iff.mpr ⟨k', fun i hi => ?_⟩⟩
    rw [render, bind_run, hlater i hi]
    rfl

/-- **Evaluating or materializing a value changes nothing that it shows.** Let a program give a
value, and let `M` be the machine before or after the value is shown.

Evaluating the value once more fails if there are as many sections around it as evaluations may be
nested, and else it gives a value that shows the same text or the same fault; unless it ends at the
limit, since the elements of its lists have to be evaluated again.

If the value can be materialized, what is reached through elements in the result are infinite lists
and lists of values; the result is written as the value is shown; and it shows the same, unless one
of its elements has as many sections around it as evaluations may be nested, and then it ends at the
limit. -/
theorem again_shows (arities : Nat → Nat) {source : String} {e : Expr} {n : Nat}
    (hparse : parseIn .standard source = .ok e)
    (hrun : eval .standard n .top e (.fresh ()) = .ok v m)
    {r : Except Fault String} (hshows : Shows v m r m') {M : Machine Unit} (hM : M = m ∨ M = m') :
    (∀ j, v.sections < j → eval .standard j .top v M =
      if maxDepth ≤ v.sections then .error (.fault (.recursionLimit maxDepth)) M
      else .ok (v.again M.cells.size) (M.withCells v.newCells)) ∧
    (∃ r' m₂, Shows (v.again M.cells.size) (M.withCells v.newCells) r' m₂ ∧
      (r' = .error (.recursionLimit maxDepth) ∨ SameShown r r')) ∧
    ∀ j u m₁, materialize .standard j v M = .ok u m₁ →
      Materialized arities u ∧ ∃ text, r = .ok text ∧ (∃ k, ∀ i, k ≤ i → u.display? i = some text) ∧
        ∃ m₂, (¬Overdeep u → Shows u m₁ (.ok text) m₂) ∧
          (Overdeep u → Shows u m₁ (.error (.recursionLimit maxDepth)) m₂) := by
  obtain ⟨Γ, hv⟩ : ∃ Γ, Placed arities Γ v m := placed_of_program hparse hrun
  obtain ⟨hgrows, Γ₁, hv₁⟩ := hv.shown hshows
  obtain ⟨⟨Γ', hplaced⟩, hknown⟩ : (∃ Γ', Placed arities Γ' v M) ∧ KnownIn M.cells m'.cells := by
    rcases hM with rfl | rfl
    · exact ⟨⟨Γ, hv⟩, hgrows⟩
    · exact ⟨⟨Γ₁, hv₁⟩, .refl _⟩
  refine ⟨fun j hj => ?_, hv.again hplaced hshows hknown, fun j u m₁ hmaterialize => ?_⟩
  · split
    · next hdeep => exact eval_again_limited hj hplaced.fits.plain (by omega)
    · exact eval_again hplaced.canonical hj hplaced.fits.plain (by rw [hplaced.depth]; omega)
  · obtain ⟨hplain, hdepth, hmaterialized⟩ := hplaced.materialize hmaterialize
    obtain ⟨r', m₂, hshows', hsame⟩ := hv.shows hplaced hshows hknown
    obtain ⟨text, rfl, k, htext⟩ := hshows'.materialized hmaterialize
    obtain ⟨a, hends⟩ : ∃ a, EndIn (fun j => materialize .standard j u m₁)
      (Rebuilds a m₁ (Overdeep u) _) :=
      hmaterialized.rebuilt hplain hdepth fun xs env cell hu =>
        materialize_vacant (hu ▸ hmaterialize)
    refine ⟨hmaterialized, text, ?_, ⟨k, htext⟩, shows_rebuilt hends htext⟩
    rcases hsame with hlimited | hsame
    · cases hlimited
    · cases hsame
      rfl

/-- What a program shows, and what it shows once its value was evaluated again. -/
def showsTwice (n : Nat) (e : Expr) : Eval Unit (Except Fault String × Except Fault String) := do
  let v ← eval .standard n .top e
  let shown ← attempt (render .standard n v)
  let v' ← eval .standard n .top v
  let shown' ← attempt (render .standard n v')
  pure (shown, shown')

/-- A run of two parts gives a value if both do. -/
theorem ok_of_bind_run {σ α β : Type} {x : Eval σ α} {f : α → Eval σ β} {b : β} {m m₁ : Machine σ}
    (h : (x >>= f) m = .ok b m₁) : ∃ a m', x m = .ok a m' ∧ f a m' = .ok b m₁ := by
  rw [bind_run] at h
  generalize x m = r at h
  cases r with
  | ok a m' => exact ⟨a, m', rfl, h⟩
  | error => cases h

/-- The parts of such a run. -/
theorem shows_of_showsTwice {n : Nat} {e : Expr} {r r' : Except Fault String}
    (h : Eval.result (showsTwice n e) (.fresh ()) = .ok (r, r')) :
    ∃ v m m₁, eval .standard n .top e (.fresh ()) = .ok v m ∧ Shows v m r m₁ ∧
      ∃ v' m₂ m₃, eval .standard n .top v m₁ = .ok v' m₂ ∧ Shows v' m₂ r' m₃ := by
  obtain ⟨m₄, hrun⟩ : ∃ m, showsTwice n e (.fresh ()) = .ok (r, r') m := by
    unfold Eval.result at h
    generalize showsTwice n e (.fresh ()) = ended at h
    rcases ended with ⟨pair, m⟩ | ⟨halt, m⟩
    · exact ⟨m, by rw [Except.ok.inj h]⟩
    · cases h
  obtain ⟨v, m, heval, hrun⟩ := ok_of_bind_run hrun
  obtain ⟨r₁, m₁, hshown, hrun⟩ := ok_of_bind_run hrun
  obtain ⟨v', m₂, hagain, hrun⟩ := ok_of_bind_run hrun
  obtain ⟨r₂, m₃, hshown', hrun⟩ := ok_of_bind_run hrun
  cases hrun
  exact ⟨v, m, m₁, heval, shows_of_attempt hshown, v', m₂, m₄, hagain, shows_of_attempt hshown'⟩

end Programs

/-- A list of lists that was shown. -/
theorem again_shows_nested :
    ∃ e v m m', parseIn .standard "[[true], null]" = .ok e ∧
      eval .standard 9 .top e (.fresh ()) = .ok v m ∧ Shows v m (.ok "[[true], null]") m' ∧
      ∃ r' m₂, Shows (v.again m'.cells.size) (m'.withCells v.newCells) r' m₂ ∧
        (r' = .error (.recursionLimit maxDepth) ∨ SameShown (.ok "[[true], null]") r') := by
  have hparse : parseIn .standard "[[true], null]" =
    .ok (.literal [.literal [.bool true], .null]) := by cbv
  have htwice : Eval.result (showsTwice 9 (.literal [.literal [.bool true], .null])) (.fresh ()) =
    .ok (.ok "[[true], null]", .ok "[[true], null]") := by cbv
  obtain ⟨v, m, m', hrun, hshows, -⟩ := shows_of_showsTwice htwice
  exact ⟨_, v, m, m', hparse, hrun, hshows,
    (again_shows (fun _ => 0) hparse hrun hshows (.inr rfl)).2.1⟩

/-- An expression behind so many negations. -/
def Expr.negated (e : Expr) : Nat → Expr
  | 0 => e
  | n + 1 => .unary .not (e.negated n)

set_option maxRecDepth 4000 in
/-- A list of one element, which is a list again.  While the program is evaluated, the second
element of that is found out first, and is known when the first one needs it.  Once the list was
evaluated again, the first element comes first, and finds nothing known. -/
theorem again_limited :
    ∃ e, parseIn .standard ("(\\g -> (\\xs -> if head (tail (head xs)) then xs else xs) " ++
        "[(\\a -> [[g a], head a]) [g [g [g [true]]]]]) " ++
        "(\\a -> !!!!!!!!!!!!!!!!!!!!!!!!!!!!!!(head a))") = .ok e ∧
      ∃ v m m₁, eval .standard 250 .top e (.fresh ()) = .ok v m ∧
      Shows v m (.ok "[[[true], true]]") m₁ ∧ ∃ v' m₂ m₃, eval .standard 250 .top v m₁ = .ok v' m₂ ∧
          Shows v' m₂ (.error (.recursionLimit maxDepth)) m₃ := by
  let head (e : Expr) : Expr := .call (.function Builtin.head.toFunction) e
  let tail (e : Expr) : Expr := .call (.function Builtin.tail.toFunction) e
  let g (e : Expr) : Expr := .call (.argument ⟨1, 0, "g"⟩) e
  let xs : Expr := .argument ⟨2, 0, "xs"⟩
  let a (depth : Nat) : Expr := .argument ⟨depth, 0, "a"⟩
  let pair : Expr := .lambda 2 ["a"] (.literal [.literal [g (a 2)], head (a 2)])
  let inner : Expr := .literal [g (.literal [g (.literal [g (.literal [.bool true])])])]
  let e : Expr := .call
    (.lambda 1 ["g"] (.call (.lambda 2 ["xs"] (.conditional (head (tail (head xs))) xs xs))
      (.literal [.call pair inner])))
    (.lambda 1 ["a"] ((head (a 1)).negated 30))
  have htwice : Eval.result (showsTwice 250 e) (.fresh ()) =
    .ok (.ok "[[[true], true]]", .error (.recursionLimit maxDepth)) := by cbv
  exact ⟨e, by cbv, shows_of_showsTwice htwice⟩

end LazyExpr
