import LazyExpr.Proofs.Eval.CacheFree
import LazyExpr.Proofs.List.Cells
import LazyExpr.Request

/-!
# What `take` hands out

The first elements of a list are evaluated when they are taken, and put into a new list as
expressions of its elements.  So when one of them is reached there, it is evaluated once more.
Nearly all values are their own values, but a list of expressions is not: its value is a list with
the same expressions and with cells of its own, all of them empty.  What was known of its elements
is not known any more, and functions of the application that they call are called again.

* `Expr.again` — the value of a value.
* `eval_again` — evaluating a value calls no function.
* `take_elements` — **an element is handed out as it is, unless it is a list of expressions (or a
  section with one), of which a copy is handed out that knows nothing.**
* `take_forgets` — a list and what was taken from it are shown differently.
-/

namespace LazyExpr

open Eval

/-! ## 1. The value of a value -/

/-- How many sections are around a value. -/
def Expr.sections : Expr → Nat
  | .leftSection _ v | .rightSection _ v => v.sections + 1
  | _ => 0

/-- How many cells are made when a value is evaluated. -/
def Expr.newCells : Expr → Nat
  | .list (.items xs _ _) => xs.length
  | .leftSection _ v | .rightSection _ v => v.newCells
  | _ => 0

/-- The value of a value, on a machine with so many cells: a list of expressions has new ones. -/
def Expr.again (size : Nat) : Expr → Expr
  | .list (.items xs env _) => .list (.items xs env (some size))
  | .leftSection op v => .leftSection op (v.again size)
  | .rightSection op v => .rightSection op (v.again size)
  | v => v

/-- Whether a value is no list of expressions, nor a section with one. -/
def Expr.isSteady : Expr → Bool
  | .list (.items _ _ _) => false
  | .leftSection _ v | .rightSection _ v => v.isSteady
  | _ => true

/-- A value of another kind is its own value. -/
theorem Expr.again_of_steady {x : Expr} (h : x.isSteady = true) (size : Nat) :
    x.again size = x ∧ x.newCells = 0 := by
  fun_induction Expr.isSteady x with
  | case1 => cases h
  | case2 op v ih | case3 op v ih => simp [Expr.again, Expr.newCells, ih h]
  | case4 v hlist hleft hright =>
    cases v with
    | list l =>
      cases l with
      | items xs env cell => exact absurd rfl (hlist xs env cell)
      | _ => exact ⟨rfl, rfl⟩
    | leftSection op v => exact absurd rfl (hleft op v)
    | rightSection op v => exact absurd rfl (hright op v)
    | _ => exact ⟨rfl, rfl⟩

section Again

variable {σ : Type} {host : Host σ}

/-- A machine with more empty cells. -/
def Machine.withCells (m : Machine σ) (count : Nat) : Machine σ :=
  { m with cells := m.cells ++ Array.replicate count none }

/-- An evaluation that is neither stopped nor too deep. -/
theorem eval_plain {m : Machine σ} (hm : m.Plain) (hdepth : m.depth < maxDepth)
    (n : Nat) (env : Env) (e : Expr) :
    Eval.eval { host } (n + 1) env e m = Ended.atDepth m.depth
      ((Engine.actual { host } n).evalInside { host } (.blind σ) env e
        { m with depth := m.depth + 1 }) := by
  rw [Engine.eval_next]
  simp only [Engine.next, Watch.during_blind, bind_run, check_plain hm, Ended.andThen, nested_some]
  rw [if_neg (Nat.not_le.mpr hdepth), above_run]

/-- An expression whose value is made of the value of a part of it. -/
theorem eval_wrapped {m : Machine σ} (hm : m.Plain) (hdepth : m.depth < maxDepth) {k count : Nat}
    {e v u : Expr} {f : Expr → Expr}
    (he : (Engine.actual { host } k).evalInside { host } (.blind σ) .top e =
      Eval.eval { host } k .top v >>= fun u => pure (f u))
    (hv : Eval.eval { host } k .top v { m with depth := m.depth + 1 } =
      .ok u (Machine.withCells { m with depth := m.depth + 1 } count)) :
    Eval.eval { host } (k + 1) .top e m = .ok (f u) (m.withCells count) := by
  rw [eval_plain hm hdepth, he, bind_run, hv]
  rfl

/-- **Evaluating a value calls no function**: it gives the value, or, for a list of expressions, one
with new cells. -/
theorem eval_again {arities : Nat → Nat} {x : Expr} (hx : Canonical arities x) {n : Nat}
    (hn : x.sections < n) {m : Machine σ} (hm : m.Plain)
    (hdepth : m.depth + x.sections < maxDepth) :
    Eval.eval { host } n .top x m = .ok (x.again m.cells.size) (m.withCells x.newCells) := by
  -- the induction is on the sections around the value; each is one level deeper
  fun_induction Expr.sections x generalizing n m with
  | case1 op v ih =>
    obtain ⟨k, rfl⟩ := Nat.exists_eq_succ_of_ne_zero (Nat.ne_zero_of_lt hn)
    cases hx with
    | atom h => cases h
    | leftSection _ hv =>
      have hinner : m.depth + 1 + v.sections < maxDepth := by omega
      exact eval_wrapped (f := .leftSection op) hm (by omega) rfl (ih hv (by omega) hm hinner)
  | case2 op v ih =>
    obtain ⟨k, rfl⟩ := Nat.exists_eq_succ_of_ne_zero (Nat.ne_zero_of_lt hn)
    cases hx with
    | atom h => cases h
    | rightSection _ hv =>
      have hinner : m.depth + 1 + v.sections < maxDepth := by omega
      exact eval_wrapped (f := .rightSection op) hm (by omega) rfl (ih hv (by omega) hm hinner)
  | case3 v hleft hright =>
    obtain ⟨k, rfl⟩ := Nat.exists_eq_succ_of_ne_zero (Nat.ne_zero_of_lt hn)
    rw [eval_plain hm hdepth]
    cases hx with
    | atom h => cases v <;> first | rfl | cases h
    | list h =>
      cases h with
      | @items xs env => cases env <;> rfl
      | _ => rfl
    | function hpos h =>
      simp only [Engine.evalInside]
      rw [if_neg (Nat.ne_of_gt hpos)]
      rfl
    | closure | applied => rfl
    | leftSection op => exact absurd rfl (hleft op _)
    | rightSection op => exact absurd rfl (hright op _)

end Again

/-! ## 2. Taking elements -/

section Taking

variable {σ : Type} {host : Host σ} {n : Nat}

/-- The elements that a traversal of a list gives, up to a count of them, and the machine after
it. -/
inductive Collects (host : Host σ) (n : Nat) :
    (count : Nat) → Machine σ → LazyList → List Expr → Machine σ → Prop where
  | enough (m : Machine σ) (l : LazyList) : Collects host n 0 m l [] m
  | ended {count : Nat} {m m₁ m₂ : Machine σ} {l rest : LazyList} (hcheck : check m = .ok () m₁)
    (hstep : Eval.advance { host } n l m₁ = .ok ⟨.ok none, rest⟩ m₂) :
    Collects host n (count + 1) m l [] m₂
  | cons {count : Nat} {m m₁ m₂ m₃ : Machine σ} {l rest : LazyList} {x : Expr} {xs : List Expr}
    (hcheck : check m = .ok () m₁)
    (hstep : Eval.advance { host } n l m₁ = .ok ⟨.ok (some x), rest⟩ m₂)
    (h : Collects host n count m₂ rest xs m₃) : Collects host n (count + 1) m l (x :: xs) m₃

/-- What a traversal gives can be taken. -/
theorem Collects.takeItems {count : Nat} {l : LazyList} {xs : List Expr} {m m' : Machine σ}
    (h : Collects host n count m l xs m') (before : List Expr) :
    Eval.takeItems (Eval.advance { host } n) count before l m = .ok (before.reverse ++ xs) m' := by
  induction h generalizing before with
  | enough m l => exact congrArg (EStateM.Result.ok · m) (List.append_nil _).symm
  | ended hcheck hstep =>
    simp only [Eval.takeItems, bind_run, hcheck, Ended.andThen, hstep, List.append_nil]
    rfl
  | @cons _ _ _ _ _ _ _ x xs hcheck hstep _ ih =>
    simp only [Eval.takeItems, bind_run, hcheck, Ended.andThen, hstep, ih]
    rw [List.reverse_cons, List.append_assoc, List.singleton_append]

/-- What is taken is what a traversal gives. -/
theorem collects_of_takeItems {count : Nat} {before all : List Expr} {l : LazyList}
    {m m' : Machine σ}
    (h : Eval.takeItems (Eval.advance { host } n) count before l m = .ok all m') :
    ∃ xs, all = before.reverse ++ xs ∧ Collects host n count m l xs m' := by
  induction count generalizing before l m with
  | zero =>
    cases h
    exact ⟨[], (List.append_nil _).symm, .enough _ _⟩
  | succ count ih =>
    simp only [Eval.takeItems, bind_run] at h
    rcases hcheck : check m with ⟨_, m₁⟩ | ⟨halt, m₁⟩
    · rcases hstep : Eval.advance { host } n l m₁ with ⟨⟨fault | _ | x, rest⟩, m₂⟩ | ⟨halt, m₂⟩
      · simp only [hcheck, Ended.andThen, bind_run, hstep] at h
        cases h
      · simp only [hcheck, Ended.andThen, bind_run, hstep] at h
        cases h
        exact ⟨[], (List.append_nil _).symm, .ended hcheck hstep⟩
      · simp only [hcheck, Ended.andThen, bind_run, hstep] at h
        obtain ⟨xs, rfl, hxs⟩ := ih h
        refine ⟨x :: xs, ?_, .cons hcheck hstep hxs⟩
        rw [List.reverse_cons, List.append_assoc, List.singleton_append]
      · simp only [hcheck, Ended.andThen, bind_run, hstep] at h
        cases h
    · simp only [hcheck, Ended.andThen] at h
      cases h

/-- Taking gives a list of what a traversal gives, with new cells. -/
theorem take_iff {count : Int64} {l : LazyList} {m m' : Machine σ} {v : Expr} :
    Eval.callBuiltin { host } (n + 1) .take [.integer count, .list l] m = .ok v m' ↔
      ∃ taken m₁, Collects host n (countOfInt64 count) m l taken m₁ ∧
        v = .list (.items taken .top (some m₁.cells.size)) ∧ m' = m₁.withCells taken.length := by
  have hrun : Eval.callBuiltin { host } (n + 1) .take [.integer count, .list l] m =
      Ended.andThen (Eval.takeItems (Eval.advance { host } n) (countOfInt64 count) [] l m)
        fun taken => newList taken .top := by
    rw [Engine.callBuiltin_next]
    exact bind_run (Eval.takeItems (Eval.advance { host } n) (countOfInt64 count) [] l) _ m
  rw [hrun]
  constructor
  · intro h
    rcases htaken : Eval.takeItems (Eval.advance { host } n) (countOfInt64 count) [] l m with
      ⟨taken, m₁⟩ | ⟨halt, m₁⟩
    · rw [htaken] at h
      cases h
      obtain ⟨xs, hxs, hcollects⟩ := collects_of_takeItems htaken
      exact ⟨taken, m₁, hxs ▸ hcollects, rfl, rfl⟩
    · rw [htaken] at h
      cases h
  · rintro ⟨taken, m₁, hcollects, rfl, rfl⟩
    rw [hcollects.takeItems []]
    rfl

/-- The `i`-th element of a list of values, when it is first reached. -/
theorem advance_again {arities : Nat → Nat} {taken : List Expr} {i : Nat} {x : Expr}
    (hx : taken[i]? = some x) (hvalue : Canonical arities x) {a k : Nat} (hk : x.sections < k)
    {m : Machine σ} (hm : m.Plain) (hdepth : m.depth + x.sections < maxDepth)
    (ha : a + i < m.cells.size) (hnone : m.cell? (a + i) = none) :
    Eval.advance { host } (k + 1) (.items (taken.drop i) .top (some (a + i))) m =
      .ok ⟨.ok (some (x.again m.cells.size)), .items (taken.drop (i + 1)) .top (some (a + i + 1))⟩
        ((m.withCells x.newCells).fill (a + i) (x.again m.cells.size)) := by
  obtain ⟨hi, rfl⟩ := List.getElem?_eq_some_iff.mp hx
  rw [List.drop_eq_getElem_cons hi]
  refine advance_produced hnone (eval_again hvalue hk hm hdepth) ?_ ?_
  · exact (Machine.cell?_append _ _).trans hnone
  · rw [Machine.withCells, Array.size_append]
    omega

theorem Machine.withCells_zero (m : Machine σ) : m.withCells 0 = m := by
  rw [withCells, Array.replicate_zero, Array.append_empty]

/-- **What is taken from a list is evaluated once more when it is reached.** Taking gives a list of
the elements that a traversal gives, as many as are wanted or as there are, with empty cells.  When
one of these is reached, no function is called, but what is handed out is its value on the machine
of that moment: the element itself, unless it is a list of expressions or a section with one, and
then a copy of it with new cells, all of them empty. -/
theorem take_elements (host : Host σ) (arities : Nat → Nat) (n : Nat) :
    (∀ (count : Int64) l (m m' : Machine σ) v,
      Eval.callBuiltin { host } (n + 1) .take [.integer count, .list l] m = .ok v m' ↔
      ∃ taken m₁, Collects host n (countOfInt64 count) m l taken m₁ ∧
        v = .list (.items taken .top (some m₁.cells.size)) ∧ m' = m₁.withCells taken.length) ∧
    ∀ (taken : List Expr) i x a (m : Machine σ), taken[i]? = some x → Canonical arities x →
    x.sections < n →
      m.Plain → m.depth + x.sections < maxDepth → a + i < m.cells.size → m.cell? (a + i) = none →
      let step := Eval.advance { host } (n + 1) (.items (taken.drop i) .top (some (a + i))) m
      let rest := LazyList.items (taken.drop (i + 1)) .top (some (a + i + 1))
      step = .ok ⟨.ok (some (x.again m.cells.size)), rest⟩
        ((m.withCells x.newCells).fill (a + i) (x.again m.cells.size)) ∧
      (x.isSteady = true → step = .ok ⟨.ok (some x), rest⟩ (m.fill (a + i) x)) := by
  refine ⟨fun count l m m' v => take_iff, ?_⟩
  intro taken i x a m hx hvalue hn hm hdepth ha hnone step rest
  have hstep : step = _ := advance_again hx hvalue hn hm hdepth ha hnone
  refine ⟨hstep, fun hsteady => ?_⟩
  obtain ⟨hsame, hcells⟩ := Expr.again_of_steady hsteady m.cells.size
  rwa [hsame, hcells, Machine.withCells_zero] at hstep

end Taking

/-- A number and a list of which an element is known, taken and reached: the number is handed out as
it is, and of the list a copy that knows nothing. -/
theorem take_elements_nested :
    let host := Host.ofTable #[.tick]
    let tick : Expr := .function ⟨"tick", 0, .foreign 0⟩
    let inner (cell : Nat) : Expr := .list (.items [tick] .top (some cell))
    let l : LazyList := .prepend (.integer 7) (.prepend (inner 0) (.items [] .top none))
    let m : Machine Nat := { Machine.fresh 1 with cells := #[some (.integer 1)] }
    let m' := m.withCells 2
    Canonical (fun _ => 0) (inner 0) ∧
      Eval.callBuiltin { host } 3 .take [.integer 2, .list l] m =
        .ok (.list (.items [.integer 7, inner 0] .top (some 1))) m' ∧
      Eval.advance { host } 3 (.items [.integer 7, inner 0] .top (some 1)) m' =
        .ok ⟨.ok (some (.integer 7)), .items [inner 0] .top (some 2)⟩ (m'.fill 1 (.integer 7)) ∧
      Eval.advance { host } 3 (.items [inner 0] .top (some 2)) m' =
        .ok ⟨.ok (some (inner 3)), .items [] .top (some 3)⟩
          ((m'.withCells 1).fill 2 (inner 3)) := by
  intro host tick inner l m m'
  have hinner : Canonical (fun _ => 0) (inner 0) := by
    refine .list (.items (.inr rfl) .top fun e he => ?_)
    exact List.mem_singleton.mp he ▸ .constant rfl rfl
  obtain ⟨htake, hreach⟩ := take_elements host (fun _ => 0) 2
  have hcollects : Collects host 2 2 m l [.integer 7, inner 0] m :=
    .cons rfl rfl (.cons rfl rfl (.enough m _))
  refine ⟨hinner, (htake 2 l m m' _).mpr ⟨_, m, hcollects, rfl, rfl⟩, ?_, ?_⟩
  · refine (hreach [.integer 7, inner 0] 0 (.integer 7) 1 m' rfl
      (.atom rfl) ?_ ⟨rfl, rfl⟩ ?_ ?_ rfl).2 rfl
    all_goals decide
  · refine (hreach [.integer 7, inner 0] 1 (inner 0) 1 m' rfl hinner ?_ ⟨rfl, rfl⟩ ?_ ?_ rfl).1
    all_goals decide

/-- A list and what was taken from it, shown one after the other.  The element of the list is known
when it is taken, and shown as `[1]`; what was taken calls the function again. -/
theorem take_forgets :
    let S : Setting Nat := { host := Host.ofTable #[.tick] }
    let outer := Scope.standard.register ⟨"tick", 0, .foreign 0⟩
    let shows (e f : Expr) : Eval Nat (String × Nat × String × Nat) := do
      let xs ← Eval.eval S 9 .top e
      let ys ← Eval.apply S 9 (← Eval.eval S 9 .top f) xs
      let shown ← Eval.render S 9 xs
      let calls := (← get).host
      let shown' ← Eval.render S 9 ys
      pure (shown, calls, shown', (← get).host)
    ∃ e f, parseIn outer "[[tick]]" = .ok e ∧ parseIn outer "take 1" = .ok f ∧
      Eval.result (shows e f) (.fresh 0) = .ok ("[[1]]", 1, "[[2]]", 2) := by
  let tick : Expr := .function ⟨"tick", 0, .foreign 0⟩
  refine ⟨.literal [.literal [tick]],
    .call (.function Builtin.take.toFunction) (.integer 1), ?_, ?_, ?_⟩
  · cbv
  · cbv
  · cbv

end LazyExpr
