import LazyExpr.Eval

/-!
# Runs of evaluations

An evaluation is a function of the machine, and its run on a machine ends with a value or not, and
with a machine (`Ended`).  This module says how the runs of composed evaluations are made of the
runs of their parts, so that later modules need not look into the monad.

* `bind_run` and `above_run` are the two ways in which runs are composed.
* `onCells` are the evaluations that look at cells only and always give a value: new lists, what is
  known of an element, and what is remembered of it.
* `attempt_bind` — catching a fault in order to raise it again is not catching it.
-/

namespace LazyExpr.Eval

variable {σ α β : Type}

/-! ## 1. Evaluations that end at once -/

@[simp] theorem fail_bind (fault : Fault) (k : α → Eval σ β) : fail fault >>= k = fail fault := rfl

@[simp] theorem outOfFuel_bind (k : α → Eval σ β) : outOfFuel >>= k = outOfFuel := rfl

@[simp] theorem lift_error (fault : Fault) :
    lift (σ := σ) (α := α) (.error fault) = fail fault := rfl

/-- Catching a fault in order to raise it again is not catching it. -/
theorem attempt_bind {body : Eval σ α} {k : Except Fault α → Eval σ β}
    (hk : ∀ fault, k (.error fault) = fail fault) :
    attempt body >>= k = body >>= fun a => k (.ok a) := by
  funext m
  show EStateM.bind (attempt body) k m = EStateM.bind body (fun a => k (.ok a)) m
  unfold EStateM.bind attempt
  cases body m with
  | ok a m => rfl
  | error halt m =>
    cases halt with
    | fault fault => exact congrFun (hk fault) m
    | outOfFuel => rfl

/-! ## 2. Composed runs -/

/-- How an evaluation ended, and the machine it left. -/
abbrev Ended (σ α : Type) := EStateM.Result Halt (Machine σ) α

namespace Ended

/-- The machine at the end. -/
def machine : Ended σ α → Machine σ
  | .ok _ m => m
  | .error _ m => m

/-- Goes on with what was given. -/
def andThen (r : Ended σ α) (f : α → Eval σ β) : Ended σ β :=
  match r with
  | .ok a m => f a m
  | .error halt m => .error halt m

/-- Comes back to a level. -/
def atDepth (depth : Nat) : Ended σ α → Ended σ α
  | .ok a m => .ok a { m with depth }
  | .error halt m => .error halt { m with depth }

end Ended

theorem bind_run (x : Eval σ α) (f : α → Eval σ β) (m : Machine σ) :
    (x >>= f) m = Ended.andThen (x m) f := by
  show EStateM.bind x f m = _
  unfold EStateM.bind Ended.andThen
  cases x m <;> rfl

theorem above_run (depth : Nat) (x : Eval σ α) (m : Machine σ) :
    above depth x m = Ended.atDepth depth (x { m with depth := depth + 1 }) := by
  unfold above Ended.atDepth
  cases x { m with depth := depth + 1 } <;> rfl

theorem nested_none (x : Eval σ α) (m : Machine σ) : nested none x m = above m.depth x m := rfl

theorem nested_some (l : Nat) (x : Eval σ α) (m : Machine σ) :
    nested (some l) x m =
      if l ≤ m.depth then .error (.fault (.recursionLimit l)) m else above m.depth x m := rfl

/-- A check of a machine that was not asked to stop depends on its deadline. -/
theorem check_run {m : Machine σ} (hm : m.cancelled = false) :
    check m = match m.checksLeft with
      | none => .ok () m
      | some 0 => .error (.fault .cancelled) { m with cancelled := true }
      | some (left + 1) => .ok () { m with checksLeft := some left } := by
  unfold check
  exact if_neg (by simp [hm])

/-! ## 3. Work on cells -/

/-- The cells of a machine. -/
abbrev Cells := Array (Option Expr)

/-- An evaluation that looks at the cells and may change them. -/
def onCells (f : Cells → α × Cells) : Eval σ α := fun m =>
  .ok (f m.cells).1 { m with cells := (f m.cells).2 }

/-- Fills a cell that is still empty. -/
def fillCell (address : Nat) (value : Expr) (cells : Cells) : Cells :=
  match (cells[address]?).join with
  | some _ => cells
  | none => cells.setIfInBounds address (some value)

theorem fill_eq (m : Machine σ) (address : Nat) (value : Expr) :
    m.fill address value = { m with cells := fillCell address value m.cells } := by
  unfold Machine.fill fillCell Machine.cell?
  cases (m.cells[address]?).join <;> rfl

theorem newList_eq (xs : List Expr) (env : Env) :
    newList (σ := σ) xs env = onCells fun cells =>
      (.list (.items xs env (some cells.size)), cells ++ Array.replicate xs.length none) := rfl

theorem known_eq (remembers : Bool) (cell : Option Nat) :
    known (σ := σ) remembers cell = onCells fun cells =>
      (if remembers then cell.bind fun address => (cells[address]?).join else none, cells) := rfl

theorem remember_eq (remembers : Bool) (cell : Option Nat) (value : Expr) :
    remember (σ := σ) remembers cell value = onCells fun cells =>
      match remembers, cell with
      | true, some address =>
        ((((fillCell address value cells)[address]?).join).getD value, fillCell address value cells)
      | _, _ => (value, cells) := by
  funext m
  unfold remember onCells
  cases remembers <;> cases cell <;> simp only [fill_eq, Machine.cell?]

/-- What a cell holds after one was filled: what it held before, or the new value. -/
theorem cell_fillCell {address at' : Nat} {value v : Expr} {cells : Cells}
    (h : ((fillCell address value cells)[at']?).join = some v) :
    (cells[at']?).join = some v ∨ (at' = address ∧ v = value) := by
  unfold fillCell at h
  split at h
  · exact .inl h
  · rw [Array.getElem?_setIfInBounds] at h
    split at h
    · next hat =>
      split at h
      · exact .inr ⟨hat.symm, (Option.some.inj h).symm⟩
      · cases h
    · exact .inl h

/-- New cells are empty. -/
theorem cell_append {at' n : Nat} {v : Expr} {cells : Cells}
    (h : ((cells ++ Array.replicate n none)[at']?).join = some v) :
    (cells[at']?).join = some v := by
  rw [Array.getElem?_append] at h
  split at h
  · exact h
  · rw [Array.getElem?_replicate] at h
    split at h <;> cases h

end LazyExpr.Eval
