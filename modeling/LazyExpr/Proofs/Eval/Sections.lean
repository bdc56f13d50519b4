import LazyExpr.Proofs.Eval.Recall
import LazyExpr.Proofs.Eval.Watched

/-!
# Operators and their sections

An operator between two expressions evaluates its operands itself, and `&&` and `||` leave the right
one alone when the left one decides.  A section has one operand as a value and is given the other
one as a value, so nothing is left to decide early: both are taken as booleans.  On data the two
ways differ in this point only.

* `eval_datum` — data is evaluated to itself, up to cells.
* `BinaryOp.Skips` — the left operand decides, and the right one is no boolean.
* `binary_sections` — **an operator and its two sections give the same on data**, except where the
  operator skips an operand that the sections refuse.
* `skipped_operand` — one such place.
-/

namespace LazyExpr

open Eval

section Sections

variable {σ : Type}

/-! ## 1. Data is its own value -/

/-- A number, a boolean, a string, null or a list. -/
def Expr.isDatum : Expr → Bool
  | .number _ | .bool _ | .str _ | .null | .list _ => true
  | _ => false

/-- So many checks pass, and so many more evaluations may go on inside each other. -/
structure Machine.Allows (m : Machine σ) (limit : Option Nat) (checks levels : Nat) : Prop where
  running : m.cancelled = false
  checks : ∀ left, m.checksLeft = some left → checks ≤ left
  levels : ∀ l, limit = some l → m.depth + levels ≤ l

/-- A machine that allows a check is changed by it in its deadline only. -/
theorem Machine.Allows.check {m : Machine σ} {limit : Option Nat} {checks levels : Nat}
    (h : m.Allows limit (checks + 1) levels) :
    ∃ m' : Machine σ, Eval.check m = .ok () m' ∧ m'.Allows limit checks levels ∧
    m'.depth = m.depth := by
  rw [check_run h.running]
  cases hleft : m.checksLeft with
  | none => exact ⟨m, rfl, ⟨h.running, by simp [hleft], h.levels⟩, rfl⟩
  | some left =>
    have hle := h.checks left hleft
    obtain ⟨left, rfl⟩ : ∃ k, left = k + 1 := ⟨left - 1, by omega⟩
    refine ⟨{ m with checksLeft := some left }, rfl, ⟨h.running, ?_, h.levels⟩, rfl⟩
    rintro _ ⟨⟩
    omega

/-- An evaluation that is allowed takes place, one level deeper. -/
theorem eval_allowed {S : Setting σ} {m : Machine σ} {checks levels : Nat}
    (h : m.Allows S.depthLimit (checks + 1) (levels + 1)) (n : Nat) (env : Env) (e : Expr) :
    ∃ m' : Machine σ, m'.Allows S.depthLimit checks levels ∧
      eval S (n + 1) env e m = Ended.atDepth m.depth
        ((Engine.actual S n).evalInside S (.blind σ) env e m') := by
  obtain ⟨m', hcheck, hm', hdepth⟩ := h.check
  have hlevels : ∀ l, S.depthLimit = some l → m.depth + 1 + levels ≤ l := by
    intro l hl
    have := h.levels l hl
    omega
  refine ⟨{ m' with depth := m.depth + 1 }, ⟨hm'.running, hm'.checks, hlevels⟩, ?_⟩
  rw [Engine.eval_next]
  simp only [Engine.next, Watch.during_blind, bind_run, hcheck, Ended.andThen]
  cases hlimit : S.depthLimit with
  | none => rw [nested_none, above_run, hdepth]
  | some l =>
    have := h.levels l hlimit
    rw [nested_some, if_neg (by omega), above_run, hdepth]

/-- **Data is evaluated to itself**, up to cells. -/
theorem eval_datum {S : Setting σ} {v : Expr} (hv : v.isDatum = true) {m : Machine σ}
    {checks levels : Nat} (h : m.Allows S.depthLimit (checks + 1) (levels + 1)) (n : Nat) :
    ∃ (v' : Expr) (m' : Machine σ), eval S (n + 1) .top v m = .ok v' m' ∧ v'.Alike v ∧
      m'.Allows S.depthLimit checks (levels + 1) := by
  obtain ⟨m', hm', hrun⟩ := eval_allowed h n .top v
  rw [hrun]
  cases v with
  | number | bool | str | null => exact ⟨_, _, rfl, rfl, hm'.running, hm'.checks, h.levels⟩
  | list l =>
    cases l with
    | items xs env cell =>
      cases env <;> exact ⟨_, _, rfl, rfl, hm'.running, hm'.checks, h.levels⟩
    | _ => exact ⟨_, _, rfl, rfl, hm'.running, hm'.checks, h.levels⟩
  | _ => cases hv

/-! ## 2. Outcomes -/

/-- A result of the pure operations, taken over by an evaluation. -/
theorem lift_run {α : Type} (r : Except Fault α) (m : Machine σ) :
    lift r m = match r with
      | .ok a => .ok a m
      | .error fault => .error (.fault fault) m := by
  cases r <;> rfl

/-- Values that are equal up to cells, or faults that are equal up to cells and have the same
message. -/
inductive SameOutcome : Ended σ Expr → Ended σ Expr → Prop where
  | value {v v' : Expr} (m m' : Machine σ) (h : v.Alike v') : SameOutcome (.ok v m) (.ok v' m')
  | fault {e e' : Fault} (m m' : Machine σ) (h : e.erase = e'.erase)
    (hmessage : ∀ fuel, e.message? fuel = e'.message? fuel) :
    SameOutcome (.error (.fault e) m) (.error (.fault e') m')

theorem SameOutcome.of_erase {e e' : Fault} (h : e.erase = e'.erase) (m m' : Machine σ) :
    SameOutcome (.error (.fault e) m) (.error (.fault e') m') :=
  .fault m m' h fun fuel => by rw [← e.message_erase, h, e'.message_erase]

/-- Operators cannot tell operands that are alike. -/
theorem SameOutcome.onValues (op : BinaryOp) {a a' b b' : Expr} (ha : a'.Alike a) (hb : b'.Alike b)
    (depth : Nat) (m m' : Machine σ) :
    SameOutcome (Ended.atDepth depth (lift (op.onValues a' b') m')) (lift (op.onValues a b) m) := by
  have h := (Likeness.alike .free).onValues_alike (w := ()) op (Tenure.free_value ha)
    (Tenure.free_value hb)
  revert h
  cases op.onValues a' b' <;> cases op.onValues a b
  · exact fun h => .of_erase (h.erase_eq fun _ _ hv => hv.1) _ _
  · exact False.elim
  · exact False.elim
  · exact fun h => .value _ _ h.1

/-- Values that are alike are the same boolean, or both are none. -/
theorem asBool_of_alike {a a' : Expr} (h : a'.Alike a) :
    (∃ truth, a'.asBool = .ok truth ∧ a.asBool = .ok truth) ∨
      ∃ e e', a'.asBool = .error e' ∧ a.asBool = .error e ∧ e'.erase = e.erase := by
  have hlike := (Likeness.alike .free).asBool_alike (w := ()) (Tenure.free_value h)
  revert hlike
  cases a'.asBool <;> cases a.asBool
  · exact fun hlike => .inr ⟨_, _, rfl, rfl, hlike.erase_eq fun _ _ hv => hv.1⟩
  · exact False.elim
  · exact False.elim
  · rintro rfl
    exact .inl ⟨_, rfl, rfl⟩

/-- What is no boolean is refused as such. -/
theorem Expr.asBool_error {e : Expr} {fault : Fault} (h : e.asBool = .error fault) :
    fault = .invalidCast e .boolean := by
  unfold asBool castTo at h
  split at h
  · cases h
  · exact (Except.error.inj h).symm

/-! ## 3. The two ways -/

/-- The left operand decides `&&` or `||`, and the right one is no boolean. -/
def BinaryOp.Skips (op : BinaryOp) (a b : Expr) : Prop :=
  (op = .and ∨ op = .or) ∧ a.asBool = .ok (decide (op = .or)) ∧ ∀ truth, b.asBool ≠ .ok truth

variable {S : Setting σ} {op : BinaryOp} {a b : Expr} {m : Machine σ}

/-- Every operator but `&&` and `||` evaluates both operands and is applied to their values. -/
theorem node_strict (hop : ¬(op = .and ∨ op = .or)) (ha : a.isDatum = true) (hb : b.isDatum = true)
    (hm : m.Allows S.depthLimit 3 2) (n : Nat) :
    SameOutcome (eval S (n + 2) .top (.binary op a b) m) (lift (op.onValues a b) m) := by
  obtain ⟨m₁, hm₁, hrun⟩ := eval_allowed hm (n + 1) .top (.binary op a b)
  obtain ⟨a', m₂, hleft, halike, hm₂⟩ := eval_datum ha hm₁ n
  obtain ⟨b', m₃, hright, hblike, -⟩ := eval_datum hb hm₂ n
  rw [hrun]
  simp only [Engine.evalInside, Engine.actual, hop, if_false, bind_run, hleft,
    hright, Ended.andThen]
  exact .onValues op halike hblike _ _ _

/-- What `&&` and `||` give: the left operand decides, or both are taken as booleans. -/
theorem node_logic (hop : op = .and ∨ op = .or) (ha : a.isDatum = true) (hb : b.isDatum = true)
    (hm : m.Allows S.depthLimit 3 2) (n : Nat) :
    (a.asBool = .ok (decide (op = .or)) ∧
      ∃ m', eval S (n + 2) .top (.binary op a b) m = .ok (.bool (decide (op = .or))) m') ∨
    (a.asBool ≠ .ok (decide (op = .or)) ∧
      SameOutcome (eval S (n + 2) .top (.binary op a b) m) (lift (op.logic a b) m)) := by
  obtain ⟨m₁, hm₁, hrun⟩ := eval_allowed hm (n + 1) .top (.binary op a b)
  obtain ⟨a', m₂, hleft, halike, hm₂⟩ := eval_datum ha hm₁ n
  obtain ⟨b', m₃, hright, hblike, -⟩ := eval_datum hb hm₂ n
  rw [hrun]
  simp only [Engine.evalInside, Engine.actual, hop, if_true, bind_run, hleft, Ended.andThen]
  obtain ⟨truth, ha', ha⟩ | ⟨e, e', ha', ha, herase⟩ := asBool_of_alike halike
  · simp only [lift_run, ha', ha]
    by_cases hdecided : truth = decide (op = .or)
    · refine .inl ⟨congrArg _ hdecided, { m₂ with depth := m.depth }, ?_⟩
      rw [if_pos hdecided]
      rfl
    · refine .inr ⟨fun h => hdecided (Except.ok.inj h), ?_⟩
      -- the left operand says nothing yet, so the answer is that of the right one
      have hrest : ∀ right, (if op = .or then truth || right else truth && right) = right := by
        rcases hop with rfl | rfl
        · cases truth <;> simp_all
        · cases truth <;> simp_all
      rw [if_neg hdecided, bind_run, hright]
      simp only [Ended.andThen, bind_run, lift_run, BinaryOp.logic, ha]
      obtain ⟨right, hb', hb⟩ | ⟨e, e', hb', hb, herase⟩ := asBool_of_alike hblike
      · simp only [hb', hb, bind, Except.bind, pure, Except.pure, hrest]
        exact .value _ _ rfl
      · simp only [hb', hb]
        exact .of_erase herase _ _
  · refine .inr ⟨by simp [ha], ?_⟩
    simp only [lift_run, ha', BinaryOp.logic, ha]
    exact .of_erase herase _ _

/-- `&&` and `||` on values take both as booleans. -/
theorem BinaryOp.onValues_logic (hop : op = .and ∨ op = .or) : op.onValues a b = op.logic a b := by
  rcases hop with rfl | rfl <;> rfl

/-- Logic on values refuses an operand that `&&` or `||` would skip. -/
theorem BinaryOp.Skips.onValues (h : op.Skips a b) :
    op.onValues a b = .error (.invalidCast b .boolean) := by
  obtain ⟨hop, ha, hb⟩ := h
  rw [onValues_logic hop, logic, ha]
  cases hcast : b.asBool with
  | ok truth => exact absurd hcast (hb truth)
  | error fault =>
    rw [Expr.asBool_error hcast]
    rfl

/-- An operator that skips nothing gives what it gives on the values of its operands. -/
theorem node_onValues (hskips : ¬op.Skips a b) (ha : a.isDatum = true) (hb : b.isDatum = true)
    (hm : m.Allows S.depthLimit 3 2) (n : Nat) :
    SameOutcome (eval S (n + 2) .top (.binary op a b) m) (lift (op.onValues a b) m) := by
  by_cases hop : op = .and ∨ op = .or
  · rw [BinaryOp.onValues_logic hop]
    obtain ⟨hdecided, m', hnode⟩ | ⟨-, hnode⟩ := node_logic hop ha hb hm n
    · obtain ⟨truth, htruth⟩ : ∃ truth, b.asBool = .ok truth := by
        by_contra hnone
        exact hskips ⟨hop, hdecided, fun truth h => hnone ⟨truth, h⟩⟩
      -- both booleans are known, and joining them gives the deciding one
      have hjoined : op.logic a b = .ok (.bool (decide (op = .or))) := by
        rw [BinaryOp.logic, hdecided, htruth]
        rcases hop with rfl | rfl <;> rfl
      rw [hnode, hjoined]
      exact .value _ _ rfl
    · exact hnode
  · exact node_strict hop ha hb hm n

/-- **An operator and its two sections give the same on data**: values that are equal up to cells,
or faults with the same message.  The one exception is a right operand that is no boolean behind a
left one that decides `&&` or `||`: the operator does not look at it, and both sections refuse it,
with a message if the operand has a text. -/
theorem binary_sections (S : Setting σ) (op : BinaryOp) (ha : a.isDatum = true)
    (hb : b.isDatum = true) (hm : m.Allows S.depthLimit 3 2) (n : Nat) :
    let node := eval S (n + 2) .top (.binary op a b) m
    let left := apply S (n + 2) (.leftSection op a) b m
    let right := apply S (n + 2) (.rightSection op b) a m
    (¬op.Skips a b → SameOutcome node left ∧ SameOutcome node right) ∧ SameOutcome left right ∧
      (op.Skips a b → (∃ m', node = .ok (.bool (decide (op = .or))) m') ∧
        (b.HasText → (Fault.invalidCast b .boolean).HasText ∧
          left = .error (.fault (.invalidCast b .boolean)) m)) := by
  intro node left right
  have hleft : left = lift (op.onValues a b) m := rfl
  have hright : right = lift (op.onValues a b) m := rfl
  refine ⟨fun hskips => ?_, ?_, fun hskips => ⟨?_, fun htext => ⟨?_, ?_⟩⟩⟩
  · rw [hleft, hright]
    exact ⟨node_onValues hskips ha hb hm n, node_onValues hskips ha hb hm n⟩
  · rw [hleft, hright, lift_run]
    cases op.onValues a b with
    | ok v => exact .value m m rfl
    | error fault => exact .of_erase rfl m m
  · obtain ⟨-, hnode⟩ | ⟨hundecided, -⟩ := node_logic hskips.1 ha hb hm n
    · exact hnode
    · exact absurd hskips.2.1 hundecided
  · exact Fault.hasText_invalidCast.mpr htext
  · rw [hleft, hskips.onValues]
    rfl

end Sections

/-- A machine before any evaluation allows all of this. -/
theorem Machine.allows_fresh : (Machine.fresh ()).Allows Setting.standard.depthLimit 3 2 where
  running := rfl
  checks := by
    rintro left ⟨⟩
  levels := by
    rintro l ⟨⟩
    decide

theorem binary_sections_concat :
    ¬BinaryOp.concat.Skips (.literal [.integer 1]) (.literal [.integer 2, .null]) ∧
      SameOutcome
        (eval Setting.standard 2 .top (.binary .concat (.literal [.integer 1])
          (.literal [.integer 2, .null])) (Machine.fresh ()))
        (apply Setting.standard 2 (.rightSection .concat (.literal [.integer 2, .null]))
          (.literal [.integer 1]) (Machine.fresh ())) := by
  have hskips : ¬BinaryOp.concat.Skips (.literal [.integer 1]) (.literal [.integer 2, .null]) := by
    rintro ⟨hop | hop, -⟩ <;> cases hop
  exact ⟨hskips,
    ((binary_sections Setting.standard .concat rfl rfl Machine.allows_fresh 0).1 hskips).2⟩

/-- `false && [1]` is false, and `(false &&) [1]` and `(&& [1]) false` fail. -/
theorem skipped_operand :
    (∃ m, eval Setting.standard 2 .top (.binary .and (.bool false) (.literal [.integer 1]))
      (Machine.fresh ()) = .ok (.bool false) m) ∧
    (∃ m, apply Setting.standard 2 (.leftSection .and (.bool false)) (.literal [.integer 1])
      (Machine.fresh ()) = .error (.fault (.invalidCast (.literal [.integer 1]) .boolean)) m) ∧
    ∃ m, apply Setting.standard 2 (.rightSection .and (.literal [.integer 1])) (.bool false)
      (Machine.fresh ()) = .error (.fault (.invalidCast (.literal [.integer 1]) .boolean)) m :=
  ⟨⟨_, rfl⟩, ⟨_, rfl⟩, ⟨_, rfl⟩⟩

end LazyExpr
