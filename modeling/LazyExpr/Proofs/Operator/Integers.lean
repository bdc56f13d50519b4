import LazyExpr.Proofs.Eval.Data

/-!
# Arithmetic of 64-bit integers

Sums, differences and products of integers wrap around.  A quotient is truncated toward zero and a
remainder has the sign of the dividend; a zero divisor is refused, and nothing else is.  One
quotient does not fit: the least integer by `-1`.  It wraps to the least integer again, and the
remainder is zero, so that quotient and remainder still make up the dividend.

* `onIntegers_exact` — a sum, difference or product is the exact one, up to a multiple of `2 ^ 64`.
* `onValues_eq_divisionByZero_iff` — division by zero is refused, and nothing else.
* `IntegerLaws`: all of the laws, for two integers.
* `integer_laws` — **they hold for any two integers**; what they say of `(a / b) * b + a % b` they
  say of the evaluation of that expression, whatever the expressions are that give `a` and `b`.
-/

namespace LazyExpr

open Eval

namespace BinaryOp

/-! ## 1. Sums, differences and products -/

/-- The operation on whole numbers that wraps around on 64-bit integers. -/
def overInt? : BinaryOp → Option (Int → Int → Int)
  | add => some (· + ·)
  | sub => some (· - ·)
  | mul => some (· * ·)
  | _ => none

theorem onIntegers_exact {op : BinaryOp} {f : Int → Int → Int} (h : op.overInt? = some f)
    (a b : Int64) :
    ∃ c, op.onIntegers a b = .ok c ∧ c.toInt ≡ f a.toInt b.toInt [ZMOD 2 ^ 64] := by
  cases op <;> cases h
  · refine ⟨a + b, rfl, ?_⟩
    rw [Int64.toInt_add]
    exact Int.bmod_emod
  · refine ⟨a - b, rfl, ?_⟩
    rw [Int64.toInt_sub]
    exact Int.bmod_emod
  · refine ⟨a * b, rfl, ?_⟩
    rw [Int64.toInt_mul]
    exact Int.bmod_emod

/-- What an arithmetic operator does with two integers is done by `onIntegers`. -/
theorem onValues_integers {op : BinaryOp} (h : op ∈ [add, sub, mul, div, mod]) (a b : Int64) :
    op.onValues (.integer a) (.integer b) = (op.onIntegers a b).map .integer := by
  have hnumbers : op.onValues (.integer a) (.integer b) =
      ((op.onIntegers a b).map Number.integer).map .number := by
    simp only [List.mem_cons, List.not_mem_nil, or_false] at h
    rcases h with rfl | rfl | rfl | rfl | rfl <;> rfl
  rw [hnumbers]
  cases op.onIntegers a b <;> rfl

/-! ## 2. Quotients and remainders -/

section Division

variable {a b : Int64}

theorem onIntegers_div (hb : b ≠ 0) : div.onIntegers a b = .ok (a / b) := if_neg hb

theorem onIntegers_mod (hb : b ≠ 0) : mod.onIntegers a b = .ok (a % b) := if_neg hb

/-- **Division by zero is refused, and nothing else is.** -/
theorem onValues_eq_divisionByZero_iff {op : BinaryOp} (h : op ∈ [div, mod]) :
    op.onValues (.integer a) (.integer b) = .error .divisionByZero ↔ b = 0 := by
  simp only [List.mem_cons, List.not_mem_nil, or_false] at h
  by_cases hb : b = 0
  · rcases h with rfl | rfl <;> subst hb <;> exact iff_of_true rfl rfl
  · refine iff_of_false ?_ hb
    rcases h with rfl | rfl
    · rw [onValues_integers (by simp), onIntegers_div hb]
      nofun
    · rw [onValues_integers (by simp), onIntegers_mod hb]
      nofun

/-- The quotient and the remainder make up the dividend, whatever wraps around on the way. -/
theorem div_mul_add_mod (a b : Int64) : a / b * b + a % b = a := by
  rw [← Int64.toInt_inj]
  calc (a / b * b + a % b).toInt
      = (a.toInt.tdiv b.toInt * b.toInt + a.toInt.tmod b.toInt).bmod (2 ^ 64) := by
        rw [Int64.toInt_add, Int64.toInt_mul, Int64.toInt_div, Int64.toInt_mod, Int.bmod_mul_bmod,
          Int.bmod_add_bmod]
    _ = a.toInt.bmod (2 ^ 64) := by rw [Int.tdiv_mul_add_tmod]
    _ = a.toInt := a.toInt_bmod

/-- A quotient that fits is truncated toward zero. -/
theorem toInt_div_of_fits (h : ¬ (a = Int64.minValue ∧ b = -1)) :
    (a / b).toInt = a.toInt.tdiv b.toInt := by
  by_cases ha : a = Int64.minValue
  · exact Int64.toInt_div_of_ne_right a b fun hb => h ⟨ha, hb⟩
  · exact Int64.toInt_div_of_ne_left a b ha

theorem toInt_ne_zero (hb : b ≠ 0) : b.toInt ≠ 0 := fun h => hb (Int64.toInt_inj.mp h)

theorem natAbs_mod_lt (hb : b ≠ 0) : (a % b).toInt.natAbs < b.toInt.natAbs := by
  rw [Int64.toInt_mod, Int.natAbs_tmod]
  exact Nat.mod_lt _ (Int.natAbs_pos.mpr (toInt_ne_zero hb))

theorem mod_eq_zero_or_sign (a b : Int64) : a % b = 0 ∨ (a % b).toInt.sign = a.toInt.sign := by
  rw [← Int64.toInt_inj, Int64.toInt_mod, Int.sign_tmod]
  by_cases h : b.toInt ∣ a.toInt
  · exact .inl (Int.tmod_eq_zero_of_dvd h)
  · exact .inr (if_neg h)

end Division

end BinaryOp

/-! ## 3. The evaluation of operators -/

/-- The expression `(l / r) * r + l % r`. -/
def Expr.recomposed (l r : Expr) : Expr :=
  .binary .add (.binary .mul (.binary .div l r) r) (.binary .mod l r)

/-- With enough fuel and so many levels below the limit, the expression is evaluated to the
value. -/
def GivesValue {σ : Type} (S : Setting σ) (levels : Nat) (env : Env) (e v : Expr) : Prop :=
  ∃ least, ∀ n ≥ least, Gives S.depthLimit levels (eval S n env e) (· = v)

namespace GivesValue

variable {σ : Type} {S : Setting σ} {levels : Nat} {env : Env}

theorem integer (a : Int64) : GivesValue S 1 env (.integer a) (.integer a) := by
  refine ⟨1, fun n hn => ?_⟩
  obtain ⟨n, rfl⟩ := Nat.exists_eq_add_of_le' hn
  exact gives_done rfl

theorem mono {levels' : Nat} {e v : Expr} (h : GivesValue S levels env e v)
    (hle : levels ≤ levels') :
    GivesValue S levels' env e v := by
  obtain ⟨least, h⟩ := h
  exact ⟨least, fun n hn => (h n hn).mono hle⟩

theorem binary {op : BinaryOp} {l r v w u : Expr} (hop : op ∈ [.add, .sub, .mul, .div, .mod])
    (hl : GivesValue S levels env l v) (hr : GivesValue S levels env r w)
    (h : op.onValues v w = .ok u) :
    GivesValue S (levels + 1) env (.binary op l r) u := by
  obtain ⟨leastl, hl⟩ := hl
  obtain ⟨leastr, hr⟩ := hr
  refine ⟨max leastl leastr + 1, fun n hn => ?_⟩
  obtain ⟨n, rfl⟩ := Nat.exists_eq_add_of_le' (Nat.le_of_add_left_le hn)
  have hstrict : ¬ (op = .and ∨ op = .or) := by
    rintro (rfl | rfl) <;> simp at hop
  have heval : eval S (n + 1) env (.binary op l r) = check >>= fun _ => nested S.depthLimit (do
      let left ← eval S n env l
      let right ← eval S n env r
      Eval.lift (op.onValues left right)) := by
    rw [eval]
    simp only [if_neg hstrict]
  rw [heval]
  refine Gives.checked ((hl n (by omega)).bind ?_)
  rintro _ rfl
  refine (hr n (by omega)).bind ?_
  rintro _ rfl
  exact .lift h rfl

/-- Quotient and remainder of what two expressions give make up what the first one gives. -/
theorem recomposed {l r : Expr} {a b : Int64} (hb : b ≠ 0)
    (hl : GivesValue S levels env l (.integer a)) (hr : GivesValue S levels env r (.integer b)) :
    GivesValue S (levels + 3) env (.recomposed l r) (.integer a) := by
  have hquotient : GivesValue S (levels + 1) env (.binary .div l r) (.integer (a / b)) :=
    hl.binary (by simp) hr
      (by rw [BinaryOp.onValues_integers (by simp), BinaryOp.onIntegers_div hb]; rfl)
  have hproduct : GivesValue S (levels + 2) env (.binary .mul (.binary .div l r) r)
      (.integer (a / b * b)) :=
    hquotient.binary (by simp) (hr.mono (by omega)) rfl
  have hremainder : GivesValue S (levels + 2) env (.binary .mod l r) (.integer (a % b)) :=
    (hl.binary (by simp) hr
      (by rw [BinaryOp.onValues_integers (by simp), BinaryOp.onIntegers_mod hb]; rfl)).mono (by
        omega)
  refine hproduct.binary (by simp) hremainder ?_
  show Except.ok (Expr.integer (a / b * b + a % b)) = _
  rw [BinaryOp.div_mul_add_mod]

end GivesValue

/-! ## 4. The laws of integer arithmetic -/

/-- What holds of arithmetic on two 64-bit integers. -/
structure IntegerLaws (a b : Int64) : Prop where
  /-- Sums, differences and products are the exact ones up to a multiple of `2 ^ 64`. -/
  wraps {op : BinaryOp} {f : Int → Int → Int} (h : op.overInt? = some f) :
    ∃ c : Int64, op.onValues (.integer a) (.integer b) = .ok (.integer c) ∧
      c.toInt ≡ f a.toInt b.toInt [ZMOD 2 ^ 64]
  divisionByZero {op : BinaryOp} (h : op ∈ [.div, .mod]) :
    op.onValues (.integer a) (.integer b) = .error .divisionByZero ↔ b = 0
  /-- There are a quotient and a remainder. -/
  divides (hb : b ≠ 0) : ∃ q r : Int64,
    BinaryOp.div.onValues (.integer a) (.integer b) = .ok (.integer q) ∧
    BinaryOp.mod.onValues (.integer a) (.integer b) = .ok (.integer r) ∧
    (¬ (a = Int64.minValue ∧ b = -1) → q.toInt = a.toInt.tdiv b.toInt) ∧
    (a = Int64.minValue ∧ b = -1 → q = Int64.minValue) ∧
    r.toInt.natAbs < b.toInt.natAbs ∧ (r = 0 ∨ r.toInt.sign = a.toInt.sign)
  /-- They make up the dividend again, in every evaluation of that expression. -/
  recomposes (hb : b ≠ 0) {σ : Type} (S : Setting σ) {levels : Nat} {env : Env} {l r : Expr}
    (hl : GivesValue S levels env l (.integer a)) (hr : GivesValue S levels env r (.integer b)) :
    GivesValue S (levels + 3) env (.recomposed l r) (.integer a)

/-- **The laws of integer arithmetic hold for any two integers.** -/
theorem integer_laws (a b : Int64) : IntegerLaws a b where
  wraps {op f} h := by
    obtain ⟨c, hc, hmod⟩ := BinaryOp.onIntegers_exact h a b
    have hop : op ∈ [.add, .sub, .mul, .div, .mod] := by
      cases op <;> cases h <;> simp
    exact ⟨c, by rw [BinaryOp.onValues_integers hop, hc]; rfl, hmod⟩
  divisionByZero h := BinaryOp.onValues_eq_divisionByZero_iff h
  divides hb := by
    refine ⟨a / b, a % b, ?_, ?_, BinaryOp.toInt_div_of_fits, ?_, BinaryOp.natAbs_mod_lt hb,
      BinaryOp.mod_eq_zero_or_sign a b⟩
    · rw [BinaryOp.onValues_integers (by simp), BinaryOp.onIntegers_div hb]
      rfl
    · rw [BinaryOp.onValues_integers (by simp), BinaryOp.onIntegers_mod hb]
      rfl
    · rintro ⟨rfl, rfl⟩
      decide
  recomposes hb _ _ _ _ _ _ hl hr := hl.recomposed hb hr

/-- The least integer divided by `-1`: the quotient wraps around, and the dividend is found
again. -/
theorem integer_laws_at_least_integer :
    GivesValue Setting.standard 4 .top
      (.recomposed (.integer Int64.minValue) (.integer (-1))) (.integer Int64.minValue) :=
  (integer_laws Int64.minValue (-1)).recomposes (by decide) Setting.standard
    (.integer _) (.integer _)

end LazyExpr
