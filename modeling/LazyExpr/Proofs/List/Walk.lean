import LazyExpr.Proofs.List.Meaning

/-!
# Walking along a list

A traversal takes a list apart, one element at a time: it pulls an element and goes on with the
rest, which is a list of another form or with other parts.  The meaning of a list knows nothing of
such rests. Here the two are shown to agree, for the evaluator without a memory.

The proof goes through the forms of lists twice.  In one direction, a walk along a view is put
together from a walk along the list it is a view of (`walks_concat` … `walks_dropped`); in the
other, it is taken apart into one (`exists_concat` … `exists_dropped`).

* `walks_trace` — what is known of the meaning of a list is found by walking along it.
* `exists_trace` — **what is found by walking along a list is a part of its meaning.**
* `LazyList.has_iff` — the two together: how the outcomes of a list depend on its first one and on
  the rest.
* `LazyList.Has.pull` — a list that has a first outcome can be pulled.
-/

namespace LazyExpr

open Eval

/-! ## 1. Walks -/

/-- What is found by pulling elements off a list. -/
inductive Walks : LazyList → Trace → Prop where
  | unknown (l : LazyList) : Walks l .unknown
  | ended {n : Nat} {l : LazyList} (h : pullAnswer n l = .value none) : Walks l .ended
  | failed {n : Nat} {l : LazyList} {e : Fault} (h : pullAnswer n l = .fault e) :
    Walks l (.failed e)
  | cons {n : Nat} {l rest : LazyList} {x : Expr} {t : Trace}
    (h : pullAnswer n l = .value (some (x, rest))) (ht : Walks rest t) : Walks l (.cons x t)

/-- What follows an answer, where `R` says what follows for the rest of the list. -/
inductive Continues (R : LazyList → Trace → Prop) :
    Answer (Option (Expr × LazyList)) → Trace → Prop where
  | ended : Continues R (.value none) .ended
  | failed (e : Fault) : Continues R (.fault e) (.failed e)
  | cons (x : Expr) {rest : LazyList} {t : Trace} (h : R rest t) :
    Continues R (.value (some (x, rest))) (.cons x t)

theorem Walks.step {l : LazyList} {t : Trace} (h : Walks l t) :
    t = .unknown ∨ ∃ n, Continues Walks (pullAnswer n l) t := by
  cases h with
  | unknown => exact .inl rfl
  | @ended n _ h => exact .inr ⟨n, h ▸ .ended⟩
  | @failed n _ e h => exact .inr ⟨n, h ▸ .failed e⟩
  | @cons n _ rest x t h ht => exact .inr ⟨n, h ▸ .cons x ht⟩

theorem Continues.walks {n : Nat} {l : LazyList} {t : Trace}
    (h : Continues Walks (pullAnswer n l) t) : Walks l t := by
  generalize ha : pullAnswer n l = a at h
  cases h with
  | ended => exact .ended ha
  | failed e => exact .failed ha
  | cons x ht => exact .cons ha ht

theorem Continues.known {R : LazyList → Trace → Prop} {a : Answer (Option (Expr × LazyList))}
    {t : Trace} (h : Continues R a t) : a ≠ .unknown := by
  cases h with
  | ended => exact Answer.value_ne_unknown
  | failed => exact Answer.fault_ne_unknown
  | cons => exact Answer.value_ne_unknown

/-- A list that gives all answers of another is walked along like it. -/
theorem Walks.of_pull {l l' : LazyList} {t : Trace}
    (hl : ∀ n, pullAnswer n l ≠ .unknown → ∃ n', pullAnswer n' l' = pullAnswer n l)
    (h : Walks l t) : Walks l' t := by
  rcases h.step with rfl | ⟨n, h⟩
  · exact .unknown l'
  · obtain ⟨n', hn'⟩ := hl n h.known
    exact Continues.walks (n := n') (hn' ▸ h)

theorem Walks.alike {l l' : LazyList} {t : Trace} (hl : l.Alike l') (h : Walks l t) : Walks l' t :=
  h.of_pull fun n _ => ⟨n, (pullAnswer_alike n hl).symm⟩

/-- An answer is there with all the fuels from one on. -/
theorem pull_at {n k : Nat} {l : LazyList} {a : Answer (Option (Expr × LazyList))}
    (h : pullAnswer n l = a) (ha : a ≠ .unknown) (hk : n ≤ k) : pullAnswer k l = a := by
  rw [(pullAnswer_more hk l).eq (h ▸ ha), h]

/-! ## 2. Putting walks together -/

section Together

variable {s : LazyList} {t : Trace}

theorem walks_items (n : Nat) (env : Env) : ∀ (xs : List Expr) (cell : Option Nat),
    Walks (.items xs env cell) ((Trace.ofList xs).visit fun x => (evalAnswer n env x).map some)
  | [], cell => .ended (pullAnswer_nil 0 env cell)
  | x :: xs, cell => by
    have hpull := pullAnswer_items n x xs env cell
    simp only [Trace.ofList, Trace.visit]
    cases hx : evalAnswer n env x with
    | value v =>
      rw [hx] at hpull
      have hrest := (walks_items n env xs none).alike (LazyList.alike_erase _)
      exact .cons hpull hrest
    | fault e =>
      rw [hx] at hpull
      exact .failed hpull
    | unknown => exact .unknown _

theorem walks_empty (cell : Option Nat) : Walks (.items [] .top cell) .ended :=
  .ended (pullAnswer_nil 0 .top cell)

theorem walks_progression (p : Progression) : ∀ (n k : Nat) (x : Number), p.term? k = some x →
    Walks (.progression { p with start := x }) (p.trace n k)
  | 0, _, _, _ => .unknown _
  | n + 1, k, x, hx => by
    have hpull := pullAnswer_progression 0 { p with start := x }
    simp only [Progression.trace, hx]
    have hhead : ({ p with start := x } : Progression).head? = if p.passes x
      then none else some x :=
      rfl
    rw [hhead] at hpull
    split at hpull
    · next hover =>
      rw [if_pos hover]
      exact .ended hpull
    · next hover =>
      rw [if_neg hover]
      refine .cons hpull ?_
      have htail : ({ p with start := x } : Progression).tail? =
          (x.add? p.step).map fun y => { p with start := y } := rfl
      have hterm : p.term? (k + 1) = x.add? p.step := by rw [Progression.term?, hx]; rfl
      rw [htail]
      cases hy : x.add? p.step with
      | some y => exact walks_progression p n (k + 1) y (hterm.trans hy)
      | none =>
        cases n with
        | zero => exact .unknown _
        | succ n =>
          rw [Progression.trace, hterm, hy]
          exact walks_empty none

theorem walks_concat {first second : LazyList} {t' : Trace} (h : Walks first t)
    (h' : Walks second t') : Walks (.concat first second) (t.append t') := by
  induction h with
  | unknown => exact .unknown _
  | @ended n first h =>
    refine h'.of_pull fun n' ha => ⟨max n n' + 1, ?_⟩
    rw [pullAnswer_concat, pull_at h Answer.value_ne_unknown (Nat.le_max_left n n')]
    exact pull_at rfl ha (Nat.le_max_right n n')
  | @failed n first e h =>
    refine .failed (n := n + 1) ?_
    rw [pullAnswer_concat, h]
    rfl
  | @cons n first rest x t h _ ih =>
    have hrest : (LazyList.concat rest second).Alike (.concat rest second.erase) :=
      congrArg (LazyList.concat rest.erase) second.alike_erase
    refine .cons (n := n + 1) ?_ (ih.alike hrest)
    rw [pullAnswer_concat, h]
    rfl

theorem walks_mapped (n : Nat) (f : Expr) (h : Walks s t) :
    Walks (.mapped f s) (t.visit fun x => (applyAnswer n f x).map some) := by
  induction h with
  | unknown => exact .unknown _
  | @ended k s h =>
    refine .ended (n := k + 1) ?_
    rw [pullAnswer_mapped, h]
    rfl
  | @failed k s e h =>
    refine .failed (n := k + 1) ?_
    rw [pullAnswer_mapped, h]
    rfl
  | @cons k s rest x t h _ ih =>
    -- pulling the view takes the fuel for the element and the fuel for the function
    have hpull := pullAnswer_mapped (max k n) f s
    rw [pull_at h Answer.value_ne_unknown (Nat.le_max_left k n)] at hpull
    have happly := applyAnswer_more (Nat.le_max_right k n) f x
    simp only [Trace.visit]
    cases hv : applyAnswer n f x with
    | value v =>
      rw [hv] at happly
      have hrest : (LazyList.mapped f rest).Alike (.mapped f.erase rest) :=
        congrArg (LazyList.mapped · rest.erase) f.alike_erase
      refine .cons (hpull.trans ?_) (ih.alike hrest)
      show (applyAnswer (max k n) f x).map _ = _
      rw [happly.eq Answer.value_ne_unknown]
      rfl
    | fault e =>
      rw [hv] at happly
      refine .failed (hpull.trans ?_)
      show (applyAnswer (max k n) f x).map _ = _
      rw [happly.eq Answer.fault_ne_unknown]
      rfl
    | unknown => exact .unknown _

/-- How a filtered list goes on after the first element of its source. -/
theorem pullAnswer_filtered_at {k n i : Nat} {p x : Expr} {s rest : LazyList}
    (h : pullAnswer k s = .value (some (x, rest))) (hi : max k n ≤ i)
    (htest : testAnswer n p x ≠ .unknown) :
    pullAnswer (i + 1) (.filtered p s) = (testAnswer n p x).bind fun
      | true => .value (some (x, .filtered p.erase rest))
      | false => pullAnswer i (.filtered p rest) := by
  have hk := pull_at h Answer.value_ne_unknown (Nat.le_trans (Nat.le_max_left k n) hi)
  have hn := (testAnswer_more (Nat.le_trans (Nat.le_max_right k n) hi) p x).eq htest
  rw [pullAnswer_filtered, hk, ← hn]
  rfl

theorem walks_filtered (n : Nat) (p : Expr) (h : Walks s t) :
    Walks (.filtered p s)
      (t.visit fun x => (testAnswer n p x).map fun kept => if kept then some x else none) := by
  induction h with
  | unknown => exact .unknown _
  | @ended k s h =>
    refine .ended (n := k + 1) ?_
    rw [pullAnswer_filtered, h]
    rfl
  | @failed k s e h =>
    refine .failed (n := k + 1) ?_
    rw [pullAnswer_filtered, h]
    rfl
  | @cons k s rest x t h _ ih =>
    have hpull := fun i => pullAnswer_filtered_at (n := n) (i := i) (p := p) h
    simp only [Trace.visit]
    cases hv : testAnswer n p x with
    | value kept =>
      simp only [hv] at hpull
      cases kept with
      | true =>
        refine .cons (hpull _ (Nat.le_refl _) Answer.value_ne_unknown) (ih.alike ?_)
        exact congrArg (LazyList.filtered · rest.erase) p.alike_erase
      | false =>
        -- the element is left out: the view goes on as the view of the rest
        refine ih.of_pull fun i ha => ⟨max i (max k n) + 1, ?_⟩
        rw [hpull _ (Nat.le_max_right _ _) Answer.value_ne_unknown]
        exact pull_at rfl ha (Nat.le_max_left _ _)
    | fault e =>
      simp only [hv] at hpull
      exact .failed (hpull _ (Nat.le_refl _) Answer.fault_ne_unknown)
    | unknown => exact .unknown _

theorem walks_dropped : ∀ (count : Nat) {s : LazyList} {t : Trace}, Walks s t →
    Walks (.dropped count s) (t.drop count)
  | 0, s, t, h => by
    rw [Trace.drop_zero]
    exact h.of_pull fun n _ => ⟨n + 1, pullAnswer_dropped_zero n s⟩
  | count + 1, s, _, h => by
    cases h with
    | unknown => exact .unknown _
    | @ended n _ h =>
      refine .ended (n := n + 1) ?_
      rw [pullAnswer_dropped_succ, h]
      rfl
    | @failed n _ e h =>
      refine .failed (n := n + 1) ?_
      rw [pullAnswer_dropped_succ, h]
      rfl
    | @cons n _ rest x t h ht =>
      refine (walks_dropped count ht).of_pull fun i ha => ⟨max n i + 1, ?_⟩
      rw [pullAnswer_dropped_succ, pull_at h Answer.value_ne_unknown (Nat.le_max_left n i)]
      exact pull_at rfl ha (Nat.le_max_right n i)

end Together

/-- What is known of the meaning of a list is found by walking along it. -/
theorem walks_trace (n : Nat) (l : LazyList) : Walks l (l.trace n) := by
  cases l with
  | items xs env cell => exact walks_items n env xs cell
  | progression range => exact walks_progression range n 0 range.start rfl
  | prepend head tail =>
    exact .cons (pullAnswer_prepend 0 head tail) ((walks_trace n tail).alike tail.alike_erase)
  | concat first second => exact walks_concat (walks_trace n first) (walks_trace n second)
  | mapped f source => exact walks_mapped n f (walks_trace n source)
  | filtered p source => exact walks_filtered n p (walks_trace n source)
  | dropped count source => exact walks_dropped count (walks_trace n source)

/-! ## 3. Taking walks apart -/

theorem Continues.imp {R R' : LazyList → Trace → Prop} {a : Answer (Option (Expr × LazyList))}
    {t : Trace} (hr : ∀ rest t, R rest t → R' rest t) (h : Continues R a t) : Continues R' a t := by
  cases h with
  | ended => exact .ended
  | failed e => exact .failed e
  | cons x h => exact .cons x (hr _ _ h)

/-- Walks are taken apart by their first answer. -/
@[elab_as_elim]
theorem Walks.induct {motive : ∀ l t, Walks l t → Prop}
    (unknown : ∀ l, motive l .unknown (.unknown l))
    (step : ∀ n l t (h : Continues (fun rest t => ∃ hw, motive rest t hw) (pullAnswer n l) t),
      motive l t (h.imp fun _ _ hw => hw.1).walks) {l : LazyList} {t : Trace} (h : Walks l t) :
    motive l t h := by
  induction h with
  | unknown l => exact unknown l
  | @ended n l h => exact step n l _ (h ▸ .ended)
  | @failed n l e h => exact step n l _ (h ▸ .failed e)
  | @cons n l rest x t h hw ih => exact step n l _ (h ▸ .cons x ⟨hw, ih⟩)

section Apart

variable {l : LazyList} {t : Trace}

theorem exists_items (h : Walks l t) : ∀ (xs : List Expr) (env : Env) (cell : Option Nat),
    l.Alike (.items xs env cell) →
      ∃ n, t.Below ((Trace.ofList xs).visit fun x => (evalAnswer n env x).map some) := by
  induction h using Walks.induct with
  | unknown => exact fun _ _ _ _ => ⟨0, .unknown _⟩
  | step n l t h =>
    intro xs env cell hl
    rw [pullAnswer_alike n hl] at h
    cases n with
    | zero => cases h
    | succ n =>
      cases xs with
      | nil =>
        rw [pullAnswer_nil] at h
        cases h
        exact ⟨0, .ended⟩
      | cons x xs =>
        rw [pullAnswer_items] at h
        cases hx : evalAnswer n env x with
        | unknown =>
          rw [hx] at h
          cases h
        | fault e =>
          rw [hx] at h
          cases h
          refine ⟨n, ?_⟩
          simp only [Trace.ofList, Trace.visit, hx]
          exact .failed e
        | value v =>
          rw [hx] at h
          cases h with
          | cons _ ih =>
            obtain ⟨k, hk⟩ := ih.2 xs env none (LazyList.alike_erase (.items xs env none)).symm
            refine ⟨max n k, ?_⟩
            have hv := evalAnswer_more (Nat.le_max_left n k) env x
            rw [hx] at hv
            simp only [Trace.ofList, Trace.visit, hv.eq Answer.value_ne_unknown]
            refine .cons v (hk.trans (.visit (fun x => ?_) (.refl _)))
            exact (evalAnswer_more (Nat.le_max_right n k) env x).map some

/-- Behind the last number in range there is nothing. -/
theorem exists_empty (h : Walks .empty t) : t.Below .ended := by
  rcases h.step with rfl | ⟨n, h⟩
  · exact .unknown _
  · cases n with
    | zero => cases h
    | succ n =>
      rw [LazyList.empty, pullAnswer_nil] at h
      cases h
      exact .ended

theorem exists_progression (p : Progression) (h : Walks l t) : ∀ (k : Nat) (x : Number),
    p.term? k = some x → l = .progression { p with start := x } → ∃ n, t.Below (p.trace n k) := by
  induction h using Walks.induct with
  | unknown => exact fun _ _ _ _ => ⟨0, .unknown _⟩
  | step n l t h =>
    rintro k x hx rfl
    cases n with
    | zero => cases h
    | succ n =>
      have hhead : ({ p with start := x } : Progression).head? =
        if p.passes x then none else some x := rfl
      have htail : ({ p with start := x } : Progression).tail? =
        (x.add? p.step).map fun y => { p with start := y } := rfl
      have hterm : p.term? (k + 1) = x.add? p.step := by rw [Progression.term?, hx]; rfl
      rw [pullAnswer_progression, hhead, htail] at h
      by_cases hover : p.passes x
      · rw [if_pos hover] at h
        cases h
        refine ⟨1, ?_⟩
        simp only [Progression.trace, hx, if_pos hover]
        exact .ended
      · rw [if_neg hover] at h
        cases h with
        | cons _ ih =>
          cases hy : x.add? p.step with
          | some y =>
            rw [hy] at ih
            obtain ⟨i, hi⟩ := ih.2 (k + 1) y (hterm.trans hy) rfl
            refine ⟨i + 1, ?_⟩
            simp only [Progression.trace, hx, if_neg hover]
            exact .cons _ hi
          | none =>
            rw [hy] at ih
            refine ⟨2, ?_⟩
            simp only [Progression.trace, hx, if_neg hover, hterm, hy]
            exact .cons _ (exists_empty ih.1)

theorem exists_concat (h : Walks l t) : ∀ first second : LazyList, l.Alike (.concat first second) →
    ∃ u v, Walks first u ∧ Walks second v ∧ t.Below (u.append v) := by
  induction h using Walks.induct with
  | unknown => exact fun first second _ => ⟨_, _, .unknown first, .unknown second, .unknown _⟩
  | step n l t h =>
    intro first second hl
    rw [pullAnswer_alike n hl] at h
    cases n with
    | zero => cases h
    | succ n =>
      rw [pullAnswer_concat] at h
      cases hp : pullAnswer n first with
      | unknown =>
        rw [hp] at h
        cases h
      | fault e =>
        rw [hp] at h
        cases h
        exact ⟨_, _, .failed hp, .unknown second, .failed e⟩
      | value p =>
        rw [hp] at h
        cases p with
        | none =>
          exact ⟨_, t, .ended hp, (Continues.imp (fun _ _ hw => hw.1) h).walks, .refl t⟩
        | some p =>
          obtain ⟨x, rest⟩ := p
          cases h with
          | cons _ ih =>
            obtain ⟨u, v, hu, hv, hbelow⟩ := ih.2 rest second
              (congrArg (LazyList.concat rest.erase) second.erase_erase)
            exact ⟨_, v, .cons hp hu, hv, .cons x hbelow⟩

theorem exists_mapped (f : Expr) (h : Walks l t) : ∀ source : LazyList, l.Alike (.mapped f source) →
    ∃ u n, Walks source u ∧ t.Below (u.visit fun x => (applyAnswer n f x).map some) := by
  induction h using Walks.induct with
  | unknown => exact fun source _ => ⟨_, 0, .unknown source, .unknown _⟩
  | step n l t h =>
    intro source hl
    rw [pullAnswer_alike n hl] at h
    cases n with
    | zero => cases h
    | succ n =>
      rw [pullAnswer_mapped] at h
      cases hp : pullAnswer n source with
      | unknown =>
        rw [hp] at h
        cases h
      | fault e =>
        rw [hp] at h
        cases h
        exact ⟨_, 0, .failed hp, .failed e⟩
      | value p =>
        rw [hp] at h
        cases p with
        | none =>
          cases h
          exact ⟨_, 0, .ended hp, .ended⟩
        | some p =>
          obtain ⟨x, rest⟩ := p
          change Continues _ ((applyAnswer n f x).map _) t at h
          cases hx : applyAnswer n f x with
          | unknown =>
            rw [hx] at h
            cases h
          | fault e =>
            rw [hx] at h
            cases h
            refine ⟨_, n, .cons hp (.unknown rest), ?_⟩
            simp only [Trace.visit, hx]
            exact .failed e
          | value v =>
            rw [hx] at h
            cases h with
            | cons _ ih =>
              obtain ⟨u, k, hu, hbelow⟩ := ih.2 rest
                (congrArg (LazyList.mapped · rest.erase) f.erase_erase)
              refine ⟨_, max n k, .cons hp hu, ?_⟩
              have hv := applyAnswer_more (Nat.le_max_left n k) f x
              rw [hx] at hv
              simp only [Trace.visit, hv.eq Answer.value_ne_unknown]
              refine .cons v (hbelow.trans (.visit (fun x => ?_) (.refl _)))
              exact (applyAnswer_more (Nat.le_max_right n k) f x).map some

/-- A walk along a list whose elements that pass a test are the trace, or more. -/
def Sifts (p : Expr) (source : LazyList) (t : Trace) : Prop :=
  ∃ u n, Walks source u ∧
    t.Below (u.visit fun x => (testAnswer n p x).map fun kept => if kept then some x else none)

/-- A first element that passes comes before all that the rest gives. -/
theorem Sifts.keep {p x : Expr} {n k : Nat} {source rest : LazyList}
    (hp : pullAnswer n source = .value (some (x, rest))) (hx : testAnswer k p x = .value true)
    (h : Sifts p rest t) : Sifts p source (.cons x t) := by
  obtain ⟨u, i, hu, hbelow⟩ := h
  refine ⟨_, max k i, .cons hp hu, ?_⟩
  have hv := testAnswer_more (Nat.le_max_left k i) p x
  rw [hx] at hv
  simp only [Trace.visit, hv.eq Answer.value_ne_unknown]
  refine .cons x (hbelow.trans (.visit (fun x => ?_) (.refl _)))
  exact (testAnswer_more (Nat.le_max_right k i) p x).map _

/-- A first element that does not pass is as if it were not there. -/
theorem Sifts.skip {p x : Expr} {n k : Nat} {source rest : LazyList}
    (hp : pullAnswer n source = .value (some (x, rest))) (hx : testAnswer k p x = .value false)
    (h : Sifts p rest t) : Sifts p source t := by
  obtain ⟨u, i, hu, hbelow⟩ := h
  refine ⟨_, max k i, .cons hp hu, ?_⟩
  have hv := testAnswer_more (Nat.le_max_left k i) p x
  rw [hx] at hv
  simp only [Trace.visit, hv.eq Answer.value_ne_unknown]
  refine hbelow.trans (.visit (fun x => ?_) (.refl _))
  exact (testAnswer_more (Nat.le_max_right k i) p x).map _

/-- One pull of a filtered list may pull many elements of its source: the induction is on the
fuel. -/
theorem sifts_of_pull (p : Expr) : ∀ (n : Nat) (source : LazyList) (t : Trace),
    Continues (fun rest t => ∀ s, rest.Alike (.filtered p s) → Sifts p s t)
      (pullAnswer n (.filtered p source)) t → Sifts p source t
  | 0, _, _, h => nomatch h
  | n + 1, source, t, h => by
    rw [pullAnswer_filtered] at h
    cases hp : pullAnswer n source with
    | unknown =>
      rw [hp] at h
      cases h
    | fault e =>
      rw [hp] at h
      cases h
      exact ⟨_, 0, .failed hp, .failed e⟩
    | value pulled =>
      rw [hp] at h
      cases pulled with
      | none =>
        cases h
        exact ⟨_, 0, .ended hp, .ended⟩
      | some pulled =>
        obtain ⟨x, rest⟩ := pulled
        change Continues _ ((testAnswer n p x).bind _) t at h
        cases hx : testAnswer n p x with
        | unknown =>
          rw [hx] at h
          cases h
        | fault e =>
          rw [hx] at h
          cases h
          refine ⟨_, n, .cons hp (.unknown rest), ?_⟩
          simp only [Trace.visit, hx]
          exact .failed e
        | value kept =>
          rw [hx] at h
          cases kept with
          | true =>
            cases h with
            | cons _ ih =>
              exact .keep hp hx (ih rest (congrArg (LazyList.filtered · rest.erase) p.erase_erase))
          | false => exact .skip hp hx (sifts_of_pull p n rest t h)

theorem exists_filtered (p : Expr) (h : Walks l t) : ∀ source : LazyList,
    l.Alike (.filtered p source) → Sifts p source t := by
  induction h using Walks.induct with
  | unknown => exact fun source _ => ⟨_, 0, .unknown source, .unknown _⟩
  | step n l t h =>
    intro source hl
    rw [pullAnswer_alike n hl] at h
    exact sifts_of_pull p n source t (h.imp fun _ _ ih => ih.2)

theorem exists_dropped : ∀ (n count : Nat) (source : LazyList) (t : Trace),
    Continues Walks (pullAnswer n (.dropped count source)) t →
      ∃ u, Walks source u ∧ t.Below (u.drop count)
  | 0, _, _, _, h => nomatch h
  | n + 1, 0, source, t, h => by
    rw [pullAnswer_dropped_zero] at h
    refine ⟨t, h.walks, ?_⟩
    rw [Trace.drop_zero]
    exact .refl t
  | n + 1, count + 1, source, t, h => by
    rw [pullAnswer_dropped_succ] at h
    cases hp : pullAnswer n source with
    | unknown =>
      rw [hp] at h
      cases h
    | fault e =>
      rw [hp] at h
      cases h
      exact ⟨_, .failed hp, .failed e⟩
    | value pulled =>
      rw [hp] at h
      cases pulled with
      | none =>
        cases h
        exact ⟨_, .ended hp, .ended⟩
      | some pulled =>
        obtain ⟨u, hu, hbelow⟩ := exists_dropped n count pulled.2 t h
        exact ⟨_, .cons hp hu, hbelow⟩

end Apart

/-- **What is found by walking along a list is a part of its meaning.** -/
theorem exists_trace : ∀ (l : LazyList) {t : Trace}, Walks l t → ∃ n, t.Below (l.trace n)
  | .items xs env cell, _, h => exists_items h xs env cell rfl
  | .progression range, _, h => exists_progression range h 0 range.start rfl rfl
  | .prepend head tail, t, h => by
    rcases h.step with rfl | ⟨n, h⟩
    · exact ⟨0, .unknown _⟩
    · cases n with
      | zero => cases h
      | succ n =>
        rw [pullAnswer_prepend] at h
        cases h with
        | cons _ ht =>
          obtain ⟨k, hk⟩ := exists_trace tail (ht.alike tail.erase_erase)
          exact ⟨k, .cons _ hk⟩
  | .concat first second, t, h => by
    obtain ⟨u, v, hu, hv, hbelow⟩ := exists_concat h first second rfl
    obtain ⟨n, hn⟩ := exists_trace first hu
    obtain ⟨k, hk⟩ := exists_trace second hv
    refine ⟨max n k, hbelow.trans (.append ?_ ?_)⟩
    · exact hn.trans (first.trace_more (Nat.le_max_left n k))
    · exact hk.trans (second.trace_more (Nat.le_max_right n k))
  | .mapped f source, t, h => by
    obtain ⟨u, n, hu, hbelow⟩ := exists_mapped f h source rfl
    obtain ⟨k, hk⟩ := exists_trace source hu
    refine ⟨max n k, hbelow.trans (.visit (fun x => ?_) ?_)⟩
    · exact (applyAnswer_more (Nat.le_max_left n k) f x).map some
    · exact hk.trans (source.trace_more (Nat.le_max_right n k))
  | .filtered p source, t, h => by
    obtain ⟨u, n, hu, hbelow⟩ := exists_filtered p h source rfl
    obtain ⟨k, hk⟩ := exists_trace source hu
    refine ⟨max n k, hbelow.trans (.visit (fun x => ?_) ?_)⟩
    · exact (testAnswer_more (Nat.le_max_left n k) p x).map _
    · exact hk.trans (source.trace_more (Nat.le_max_right n k))
  | .dropped count source, t, h => by
    rcases h.step with rfl | ⟨n, h⟩
    · exact ⟨0, .unknown _⟩
    · obtain ⟨u, hu, hbelow⟩ := exists_dropped n count source t h
      obtain ⟨k, hk⟩ := exists_trace source hu
      exact ⟨k, hbelow.trans (hk.drop count)⟩

/-! ## 4. One element at a time -/

/-- The outcomes of a list are those that walks along it find. -/
theorem LazyList.has_iff_walks {l : LazyList} {k : Nat} {a : Answer (Option Expr)} :
    l.Has k a ↔ a ≠ .unknown ∧ ∃ t, Walks l t ∧ t.get k = a := by
  constructor
  · rintro ⟨ha, n, h⟩
    exact ⟨ha, _, walks_trace n l, h⟩
  · rintro ⟨ha, t, ht, rfl⟩
    obtain ⟨n, hn⟩ := exists_trace l ht
    exact ⟨ha, n, (hn.get k).eq ha⟩

/-- The outcome at a position, by the first answer of a list. -/
def Follow (a : Answer (Option (Expr × LazyList))) (k : Nat) (o : Answer (Option Expr)) : Prop :=
  match a, k with
  | .value (some (x, _)), 0 => o = .value (some x)
  | .value (some (_, rest)), k + 1 => rest.Has k o
  | .value none, _ => o = .value none
  | .fault e, 0 => o = .fault e
  | .fault _, _ + 1 => o = .value none
  | .unknown, _ => False

theorem LazyList.Has.follow {n : Nat} {l : LazyList} {k : Nat} {o : Answer (Option Expr)}
    (hn : pullAnswer n l ≠ .unknown) (h : l.Has k o) : Follow (pullAnswer n l) k o := by
  obtain ⟨ho, t, ht, rfl⟩ := has_iff_walks.mp h
  rcases ht.step with rfl | ⟨i, hi⟩
  · exact absurd rfl ho
  · -- both answers are there with the larger fuel, so they are the same
    have hsame : pullAnswer n l = pullAnswer i l := by
      rw [← pull_at rfl hn (Nat.le_max_left n i), pull_at rfl hi.known (Nat.le_max_right n i)]
    rw [hsame]
    generalize pullAnswer i l = a at hi
    cases hi with
    | ended => rfl
    | failed e => cases k <;> rfl
    | cons x hrest =>
      cases k with
      | zero => rfl
      | succ k => exact has_iff_walks.mpr ⟨ho, _, hrest, rfl⟩

/-- **The outcomes of a list**, by its first one and those of the rest. -/
theorem LazyList.has_iff {n : Nat} {l : LazyList} (hn : pullAnswer n l ≠ .unknown) {k : Nat}
    {o : Answer (Option Expr)} : l.Has k o ↔ Follow (pullAnswer n l) k o := by
  refine ⟨fun h => h.follow hn, fun h => ?_⟩
  rw [has_iff_walks]
  cases ha : pullAnswer n l with
  | unknown => exact absurd ha hn
  | fault e =>
    rw [ha] at h
    cases k with
    | zero =>
      cases h
      exact ⟨Answer.fault_ne_unknown, _, .failed ha, rfl⟩
    | succ k =>
      cases h
      exact ⟨Answer.value_ne_unknown, _, .failed ha, rfl⟩
  | value p =>
    rw [ha] at h
    cases p with
    | none =>
      cases h
      exact ⟨Answer.value_ne_unknown, _, .ended ha, rfl⟩
    | some p =>
      cases k with
      | zero =>
        cases h
        exact ⟨Answer.value_ne_unknown, _, .cons ha (.unknown _), rfl⟩
      | succ k =>
        obtain ⟨ho, t, ht, hget⟩ := has_iff_walks.mp h
        exact ⟨ho, _, .cons ha ht, hget⟩

/-- A list that has a first outcome can be pulled. -/
theorem LazyList.Has.pull {l : LazyList} {o : Answer (Option Expr)} (h : l.Has 0 o) :
    ∃ n, pullAnswer n l ≠ .unknown := by
  obtain ⟨ho, t, ht, rfl⟩ := has_iff_walks.mp h
  rcases ht.step with rfl | ⟨n, hn⟩
  · exact absurd rfl ho
  · exact ⟨n, hn.known⟩

end LazyExpr
