import LazyExpr.Proofs.Eval.Canonical
import LazyExpr.Proofs.List.Outcomes

/-!
# The elements of lists are values

A list of elements that were taken from another one is evaluated like any list when it is traversed:
each of its elements is evaluated once more.  That gives the elements back, since they are values
already.  They are, because all that an application comes to hold is canonical, and so is what a
canonical list gives.

* `Canonical.isValue`: what is canonical has the form of a value.
* `CanonicalList.has_isValue`: **the elements of a canonical list are values.**
* `Reached.canonical`: all that an application holds is canonical, whatever it has done.
-/

namespace LazyExpr

open Eval

variable {σ : Type} {arities : Nat → Nat}

/-! ## 1. Canonical values -/

theorem Canonical.isValue {v : Expr} : Canonical arities v → v.isValue = true
  | .atom h => by cases v <;> first | rfl | cases h
  | .list _ | .closure .. | .applied .. => rfl
  | .function hpos _ => bne_iff_ne.mpr (Nat.ne_of_gt hpos)
  | .leftSection _ h | .rightSection _ h => h.isValue

/-- The contents of all cells are canonical. -/
def CanonicalCells (arities : Nat → Nat) (m : Machine σ) : Prop :=
  ∀ a v, m.cell? a = some v → Canonical arities v

theorem CanonicalCells.observed {m : Machine σ} (h : CanonicalCells arities m) :
    CanonicalMachine arities (fun _ => True) m.observed where
  cells := h
  state := trivial
  events := nofun

/-- An evaluation that keeps to canonical values does so when it is not watched. -/
theorem Regime.Holds.canonical {α : Type} {P : Unit → α → Prop}
    {x : Eval (σ × List Event) α} {y : Eval σ α}
    (h : (Regime.canonical arities fun _ => True).Holds () P x y) {m : Machine σ}
    (hm : CanonicalCells arities m) :
    CanonicalCells arities (Ended.machine (y m)) ∧ ∀ a m', y m = .ok a m' → P () a := by
  obtain ⟨hsame, _, -, hfits, -, hP⟩ := h m.observed hm.observed
  change y m = _ at hsame
  rw [hsame]
  generalize x m.observed = r at hfits hP
  cases r with
  | ok a m' =>
    refine ⟨hfits.cells, ?_⟩
    rintro _ _ ⟨⟩
    exact hP a m' rfl
  | error halt m' => exact ⟨hfits.cells, nofun⟩

/-! ## 2. Elements -/

/-- A first element and the list behind it, both canonical. -/
def CanonicalPulled (arities : Nat → Nat) (p : Option (Expr × LazyList)) : Prop :=
  ∀ x rest, p = some (x, rest) → Canonical arities x ∧ CanonicalList arities rest

theorem holds_pull {S : Setting σ} (h : (Regime.canonical arities fun _ => True).Laws S) (n : Nat)
    {l : LazyList} (hl : CanonicalList arities l) :
    (Regime.canonical arities fun _ => True).Holds () (fun _ => CanonicalPulled arities)
      ((Engine.watched S n).advance l >>= raise) (pull S n l) := by
  refine ((h.sound n).advance (w := ()) (Canonical.list hl)).bind ?_
  rintro _ ⟨_ | _ | x, rest⟩ - ⟨hrest, hx⟩
  · exact .fail _
  · exact .pure nofun
  · refine .pure ?_
    rintro _ _ ⟨⟩
    exact ⟨hx x rfl, hrest.toList⟩

theorem Setting.builtins_canonical (remembers : Bool) (limit : Option Nat) :
    (Regime.canonical arities fun _ => True).Laws (Setting.builtins σ remembers limit) :=
  Regime.canonical_laws rfl fun _ _ _ _ => .give (.atom rfl)

/-- What a canonical list gives is canonical, but for its cells. -/
theorem pullAnswer_canonical {n : Nat} {l rest : LazyList} {x : Expr} (hl : CanonicalList arities l)
    (h : pullAnswer n l = .value (some (x, rest))) :
    x.isValue = true ∧ ∃ rest', CanonicalList arities rest' ∧ rest'.Alike rest := by
  have hcells : CanonicalCells arities (Machine.fresh ()) := nofun
  obtain ⟨-, hpulled⟩ := (holds_pull (Setting.builtins_canonical false none) n hl).canonical hcells
  change ∀ a m', pull .cacheFree n l (.fresh ()) = .ok a m' → _ at hpulled
  rw [pullAnswer] at h
  generalize pull .cacheFree n l (.fresh ()) = r at h hpulled
  rcases r with ⟨_ | p, m⟩ | ⟨_ | _, m⟩
  · cases h
  · cases h
    obtain ⟨hx, hrest⟩ := hpulled _ m rfl p.1 p.2 rfl
    exact ⟨by rw [Expr.isValue_erase, hx.isValue], p.2, hrest, p.2.alike_erase⟩
  · cases h
  · cases h

/-- **The elements of a canonical list are values.** -/
theorem CanonicalList.has_isValue {l : LazyList} (hl : CanonicalList arities l) {k : Nat} {x : Expr}
    (h : l.Has k (.value (some x))) : x.isValue = true := by
  induction k generalizing l with
  | zero =>
    obtain ⟨rest, ⟨-, n, hn⟩, -⟩ := LazyList.tends_pull_some h
    exact (pullAnswer_canonical hl (hn n (Nat.le_refl n))).1
  | succ k ih =>
    obtain ⟨(_ | y) | e | _, hb⟩ := h.before (Nat.zero_le (k + 1))
    · cases h.unique (hb.over (Nat.zero_le (k + 1)))
    · obtain ⟨rest, ⟨-, n, hn⟩, hrest⟩ := LazyList.tends_pull_some hb
      obtain ⟨-, rest', hcanonical, halike⟩ := pullAnswer_canonical hl (hn n (Nat.le_refl n))
      exact ih hcanonical ((LazyList.has_alike halike k _).mpr ((hrest k _).mpr h))
    · cases h.unique (hb.failed (Nat.succ_pos k))
    · exact absurd rfl hb.1

/-! ## 3. All that an application holds -/

theorem Session.setting_canonical (s : Session) :
    (Regime.canonical arities fun _ => True).Laws s.setting :=
  Regime.canonical_laws rfl (Host.givesCanonical_ofTable s.natives arities)

/-- A run of a session that keeps to canonical values. -/
theorem Session.run_canonical {α : Type} {P : Unit → α → Prop} {s : Session} (token : Nat)
    {x : Eval (Nat × List Event) α} {y : Eval Nat α}
    (h : (Regime.canonical arities fun _ => True).Holds () P x y)
    (hs : CanonicalCells arities s.machine) :
    CanonicalCells arities (s.run token y).2.machine ∧ ∀ a, (s.run token y).1 = .ok a → P () a := by
  obtain ⟨hcells, hP⟩ := h.canonical (m := { s.machine with cancelled := s.isCancelled token }) hs
  rw [Session.run]
  generalize y { s.machine with cancelled := s.isCancelled token } = r at hcells hP ⊢
  cases r with
  | ok a m =>
    refine ⟨hcells, ?_⟩
    rintro _ ⟨⟩
    exact hP a m rfl
  | error halt m =>
    refine ⟨hcells, ?_⟩
    rintro _ ⟨⟩

/-- What is asked for keeps to canonical values. -/
theorem Asks.canonical {S : Setting Nat} (h : (Regime.canonical arities fun _ => True).Laws S)
    {values : List Expr} (hvalues : ∀ v ∈ values, Canonical arities v) {y : Eval Nat Expr}
    (hy : Asks S values y) :
    ∃ x, (Regime.canonical arities fun _ => True).Holds () (fun _ => Canonical arities) x y := by
  cases hy with
  | program fuel hparse =>
    have hcode := Regime.canonical_reads arities (fun _ : Nat => True) (w := ())
      (fun name e hname => ⟨.top, WellFormed.standard arities name e hname⟩) hparse
    exact ⟨_, (h.sound fuel).eval hcode⟩
  | again fuel hv => exact ⟨_, (h.sound fuel).eval (h.code_top (w := ()) (hvalues _ hv))⟩
  | apply fuel hf ha => exact ⟨_, (h.sound fuel).apply (w := ()) (hvalues _ hf) (hvalues _ ha)⟩
  | materialize fuel hv => exact ⟨_, (h.sound fuel).materialize (w := ()) (hvalues _ hv)⟩
  | newList hvs => exact ⟨_, Regime.holds_makeList_top h (w := ()) fun v hv => hvalues v (hvs v hv)⟩

theorem Views.canonical {values : List Expr}
    (hvalues : ∀ v ∈ values, Canonical arities v) {l : LazyList}
    (h : Views values l) : CanonicalList arities l := by
  have hlist : ∀ {l}, .list l ∈ values → CanonicalList arities l := fun hl => (hvalues _ hl).toList
  cases h with
  | progression p => exact .progression p
  | prepend hh ht => exact .prepend (hvalues _ hh) (hlist ht)
  | concat ha hb => exact .concat (hlist ha) (hlist hb)
  | mapped hf hs => exact .mapped (hvalues _ hf) (hlist hs)
  | filtered hp hs => exact .filtered (hvalues _ hp) (hlist hs)
  | dropped count hs => exact .dropped count (hlist hs)

/-- One step of a traversal of a canonical list. -/
theorem Session.Fits.next_canonical {s s' : Session} {Γ : Ledger} (hs : s.Fits Γ)
    (hcells : CanonicalCells arities s.machine) {t t' : Traversal} {token fuel : Nat}
    {o : Except Failure (Option Expr)} (htoken : t.token = some token)
    (ht : t.finished = false → CanonicalList arities t.rest)
    (hnext : s.nextWithin fuel t = (o, t', s')) :
    CanonicalCells arities s'.machine ∧ (∀ x ∈ outcomeValue o, Canonical arities x) ∧
      (t'.finished = false → CanonicalList arities t'.rest) := by
  cases hfinished : t.finished with
  | true =>
    rw [Session.nextWithin, htoken, hfinished] at hnext
    cases hnext
    refine ⟨hcells, fun x hx => ?_, ht⟩
    cases hx
  | false =>
    obtain ⟨rest, hpull⟩ := hs.nextWithin htoken hfinished fuel
    rw [hpull] at hnext
    have hpulls := holds_pull (σ := Nat) (Setting.builtins_canonical true (some maxDepth)) fuel
      (ht hfinished)
    obtain ⟨hcells, hpulled⟩ := Regime.Holds.canonical hpulls hcells
    generalize pull (.builtins Nat true (some maxDepth)) fuel t.rest s.machine =
      r at hcells hpulled hnext
    rcases r with ⟨_ | ⟨x, rest⟩, m⟩ | ⟨halt, m⟩
    · cases hnext
      refine ⟨hcells, fun x hx => ?_, fun hgoing => ?_⟩
      · cases hx
      · cases hgoing
    · cases hnext
      obtain ⟨hx, hrest⟩ := hpulled _ m rfl x rest rfl
      refine ⟨hcells, fun y hy => ?_, fun _ => hrest⟩
      obtain rfl := List.mem_singleton.mp hy
      exact hx
    · cases hnext
      refine ⟨hcells, fun x hx => ?_, fun hgoing => ?_⟩
      · cases hx
      · cases hgoing

/-- All that an application holds is canonical. -/
structure Holding.Canonical (arities : Nat → Nat) (H : Holding) : Prop where
  cells : CanonicalCells arities H.session.machine
  values : ∀ v ∈ H.values, LazyExpr.Canonical arities v
  visits : ∀ v ∈ H.visits, v.traversal.finished = false → CanonicalList arities v.traversal.rest

/-- **All that an application holds is canonical**, whatever it has done. -/
theorem Reached.canonical {H : Holding} (h : Reached H) : H.Canonical arities := by
  induction h with
  | fresh => exact ⟨nofun, nofun, nofun⟩
  | @ask H _ y hy ih =>
    obtain ⟨x, hx⟩ := hy.canonical H.session.setting_canonical ih.values
    obtain ⟨hcells, hvalue⟩ := Session.run_canonical H.session.current hx ih.cells
    refine ⟨hcells, fun v hv => ?_, ih.visits⟩
    rcases List.mem_append.mp hv with hv | hv
    · generalize (H.session.run H.session.current y).1 = r at hv hvalue
      cases r with
      | error => cases hv
      | ok u =>
        obtain rfl := List.mem_singleton.mp hv
        exact hvalue v rfl
    · exact ih.values v hv
  | view _ hl ih =>
    refine ⟨ih.cells, fun v hv => ?_, ih.visits⟩
    rcases List.mem_cons.mp hv with rfl | hv
    · exact .list (hl.canonical ih.values)
    · exact ih.values v hv
  | start _ hl ih =>
    refine ⟨ih.cells, ih.values, fun v hv => ?_⟩
    rcases List.mem_append.mp hv with hv | hv
    · exact ih.visits v hv
    · obtain rfl := List.mem_singleton.mp hv
      exact fun _ => (ih.values _ hl).toList
  | step h fuel hv hnext _ ih =>
    have hmem := List.mem_of_getElem? hv
    obtain ⟨Γ, hsound⟩ := sound_of_reached h
    obtain ⟨token, htoken⟩ := (hsound.visits _ hmem).token
    obtain ⟨hcells, hx, hrest⟩ :=
      hsound.session.next_canonical ih.cells htoken (ih.visits _ hmem) hnext
    refine ⟨hcells, fun v hv => ?_, fun v hv => ?_⟩
    · rcases List.mem_append.mp hv with hv | hv
      · exact hx v hv
      · exact ih.values v hv
    · rcases List.mem_or_eq_of_mem_set hv with hv | rfl
      · exact ih.visits v hv
      · exact hrest

end LazyExpr
