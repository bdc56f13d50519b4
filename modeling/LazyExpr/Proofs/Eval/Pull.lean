import LazyExpr.Proofs.Eval.Run

/-!
# Pulling elements off a list

`Eval.advance` hands a fault out beside the list that goes on behind it.  Every loop of the
evaluator ends at the first fault, and so does a traversal that an application holds.  For these the
fault may as well end the evaluation: `Eval.pull` is `Eval.advance` read that way, and gives the
element with the rest of the list, or nothing at the end.

Read that way, nothing has to be caught, and a list is one equation for each of its forms.

* `Eval.force` gives an element of a list literal: the known one, or the value of its expression.
* `pull_items` … `pull_dropped` are the equations of `Eval.pull`.
* `foldItems_succ`, `takeItems_succ` and `firstItem_eq` say that the loops only pull.
-/

namespace LazyExpr.Eval

variable {σ α β : Type}

/-! ## 1. Faults that are raised again -/

/-- A fault as the end of the evaluation, an element with the rest of its list. -/
def raise : Step → Eval σ (Option (Expr × LazyList))
  | ⟨.error fault, _⟩ => fail fault
  | ⟨.ok none, _⟩ => pure none
  | ⟨.ok (some x), rest⟩ => pure (some (x, rest))

@[simp] theorem raise_error (fault : Fault) (rest : LazyList) :
    raise (σ := σ) ⟨.error fault, rest⟩ = fail fault := rfl

@[simp] theorem raise_none (rest : LazyList) : raise (σ := σ) ⟨.ok none, rest⟩ = pure none := rfl

@[simp] theorem raise_some (x : Expr) (rest : LazyList) :
    raise (σ := σ) ⟨.ok (some x), rest⟩ = pure (some (x, rest)) := rfl

/-! ## 2. Pulling -/

variable (setting : Setting σ)

/-- The value of an element: the known one, or else that of `body`, which is known from then on. -/
def force (cell : Option Nat) (body : Eval σ Expr) : Eval σ Expr := do
  match ← known setting.remembers cell with
  | some value => pure value
  | none => do
    let value ← body
    remember setting.remembers cell value

/-- An element without a cell is evaluated whenever it is asked for. -/
theorem force_none (body : Eval σ Expr) : force setting none body = body := by
  have hknown : known (σ := σ) setting.remembers none = pure none := by
    cases h : setting.remembers <;> rfl
  have hremember : ∀ value, remember (σ := σ) setting.remembers none value = pure value := by
    intro value
    cases h : setting.remembers <;> rfl
  simp only [force, hknown, hremember, pure_bind, bind_pure]

/-- An element with a cell is evaluated if the cell is empty. -/
theorem force_run (h : setting.remembers = true) (address : Nat) (body : Eval σ Expr)
    (m : Machine σ) : force setting (some address) body m =
      match (m.cells[address]?).join with
      | some value => .ok value m
      | none => Ended.andThen (body m) (remember true (some address)) := by
  rw [force, h, bind_run]
  show Ended.andThen (.ok ((m.cells[address]?).join) m) _ = _
  cases (m.cells[address]?).join with
  | some value => rfl
  | none => exact bind_run body _ m

/-- Takes the first element off a list: the element and the rest, or nothing at the end. -/
def pull (fuel : Nat) (l : LazyList) : Eval σ (Option (Expr × LazyList)) :=
  advance setting fuel l >>= raise

variable (fuel : Nat)

-- Makes the equations of `advance` here, once, and not in each of the proofs below.
attribute [local simp] advance

@[simp] theorem pull_zero (l : LazyList) : pull setting 0 l = outOfFuel := rfl

theorem pull_nil (env : Env) (cell : Option Nat) :
    pull setting (fuel + 1) (.items [] env cell) = pure none := by
  simp only [pull, advance, pure_bind, raise_none]

theorem pull_items (x : Expr) (xs : List Expr) (env : Env) (cell : Option Nat) :
    pull setting (fuel + 1) (.items (x :: xs) env cell) = (do
      let value ← force setting cell (eval setting fuel env x)
      pure (some (value, .items xs env (cell.map (· + 1))))) := by
  simp only [pull, advance, force, bind_assoc]
  refine bind_congr fun seen => ?_
  cases seen with
  | some value => simp only [pure_bind, raise_some]
  | none =>
    simp only [bind_assoc]
    rw [attempt_bind (fun fault => by simp only [pure_bind, raise_error])]
    simp only [bind_assoc, pure_bind, raise_some]

theorem pull_progression (range : Progression) :
    pull setting (fuel + 1) (.progression range) = pure (range.head?.map fun n =>
      (.number n, (range.tail?.map .progression).getD .empty)) := by
  simp only [pull, advance, pure_bind, advanceProgression]
  cases range.head? <;> rfl

theorem pull_prepend (head : Expr) (tail : LazyList) :
    pull setting (fuel + 1) (.prepend head tail) = pure (some (head, tail)) := by
  simp only [pull, advance, pure_bind, raise_some]

theorem pull_concat (first second : LazyList) :
    pull setting (fuel + 1) (.concat first second) = (do
      match ← pull setting fuel first with
      | none => pull setting fuel second
      | some (x, rest) => pure (some (x, .concat rest second))) := by
  simp only [pull, advance, bind_assoc]
  refine bind_congr fun step => ?_
  obtain ⟨_ | _ | x, rest⟩ := step <;>
    simp only [pure_bind, raise_error, raise_none, raise_some, fail_bind]

theorem pull_mapped (function : Expr) (source : LazyList) :
    pull setting (fuel + 1) (.mapped function source) = (do
      match ← pull setting fuel source with
      | none => pure none
      | some (x, rest) => do
        let value ← apply setting fuel function x
        pure (some (value, .mapped function rest))) := by
  simp only [pull, advance, bind_assoc]
  refine bind_congr fun step => ?_
  obtain ⟨_ | _ | x, rest⟩ := step
  · simp only [pure_bind, raise_error, fail_bind]
  · simp only [pure_bind, raise_none]
  · simp only [bind_assoc, pure_bind, raise_some]
    rw [attempt_bind (fun fault => rfl)]
    rfl

theorem pull_filtered (predicate : Expr) (source : LazyList) :
    pull setting (fuel + 1) (.filtered predicate source) = (do
      match ← pull setting fuel source with
      | none => pure none
      | some (x, rest) => do
        check
        let verdict ← apply setting fuel predicate x
        if ← lift verdict.asBool then pure (some (x, .filtered predicate rest))
        else pull setting fuel (.filtered predicate rest)) := by
  simp only [pull, advance, bind_assoc]
  refine bind_congr fun step => ?_
  obtain ⟨_ | _ | x, rest⟩ := step
  · simp only [pure_bind, raise_error, fail_bind]
  · simp only [pure_bind, raise_none]
  · simp only [bind_assoc, pure_bind, raise_some]
    rw [attempt_bind (fun fault => by simp only [pure_bind, raise_error])]
    simp only [bind_assoc]
    refine bind_congr fun _ => bind_congr fun verdict => bind_congr fun kept => ?_
    cases kept
    · rfl
    · simp only [pure_bind, raise_some, if_true]

theorem pull_dropped_zero (source : LazyList) :
    pull setting (fuel + 1) (.dropped 0 source) = pull setting fuel source := by
  simp only [pull, advance]

theorem pull_dropped_succ (count : Nat) (source : LazyList) :
    pull setting (fuel + 1) (.dropped (count + 1) source) = (do
      check
      match ← pull setting fuel source with
      | none => pure none
      | some (_, rest) => pull setting fuel (.dropped count rest)) := by
  simp only [pull, advance, bind_assoc]
  rw [attempt_bind (fun fault => by simp only [pure_bind, raise_error])]
  refine bind_congr fun _ => ?_
  simp only [bind_assoc]
  refine bind_congr fun step => ?_
  obtain ⟨_ | _ | x, rest⟩ := step <;>
    simp only [pure_bind, raise_error, raise_none, raise_some, fail_bind]

/-! ## 3. The loops -/

variable (l : LazyList)

theorem foldItems_succ (f : β → Expr → Eval σ β) (rounds : Nat) (acc : β) :
    foldItems (advance setting fuel) f (rounds + 1) acc l = (do
      check
      match ← pull setting fuel l with
      | none => pure acc
      | some (x, rest) => do
        let acc ← f acc x
        foldItems (advance setting fuel) f rounds acc rest) := by
  simp only [pull, foldItems, bind_assoc]
  refine bind_congr fun _ => bind_congr fun step => ?_
  obtain ⟨_ | _ | x, rest⟩ := step <;>
    simp only [pure_bind, raise_error, raise_none, raise_some, fail_bind]

theorem takeItems_succ (count : Nat) (taken : List Expr) :
    takeItems (advance setting fuel) (count + 1) taken l = (do
      check
      match ← pull setting fuel l with
      | none => pure taken.reverse
      | some (x, rest) => takeItems (advance setting fuel) count (x :: taken) rest) := by
  simp only [pull, takeItems, bind_assoc]
  refine bind_congr fun _ => bind_congr fun step => ?_
  obtain ⟨_ | _ | x, rest⟩ := step <;>
    simp only [pure_bind, raise_error, raise_none, raise_some, fail_bind]

theorem firstItem_eq (function : String) :
    firstItem (advance setting fuel) function l = (do
      check
      match ← pull setting fuel l with
      | none => fail (.emptyResult function)
      | some (x, _) => pure x) := by
  simp only [pull, firstItem, bind_assoc]
  refine bind_congr fun _ => bind_congr fun step => ?_
  obtain ⟨_ | _ | x, rest⟩ := step <;>
    simp only [pure_bind, raise_error, raise_none, raise_some, fail_bind]

end LazyExpr.Eval
