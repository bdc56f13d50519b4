import LazyExpr.Proofs.Eval.Answers
import LazyExpr.Proofs.List.Traversals

/-!
# The outcomes of a list, position by position

A list has outcomes in a row: elements, then perhaps a fault, and nothing from there on; or at some
position there is no outcome at all, because the evaluation that looks for it never ends.  This
module says how the outcomes of views and those that loops collect are found among those of the
lists they go over.

* `LazyList.Without`: what a list has behind its first elements.  `has_dropped`, `has_prepend` and
  `has_concat`: **the outcomes of views.**
* `has_values`: a list of values has these.
* `LazyList.Firsts`: what the first positions of a list come to: the elements there, or the fault
  among them, or nothing if one of them has no outcome.  `tends_taken`: **taking elements comes to
  that.**
* `LazyList.HasLength` and `tends_counted`: counting elements comes to their number.
-/

namespace LazyExpr

open Eval

/-! ## 1. Positions of a sequence -/

namespace Trace

/-- What is known at a position is known at those before. -/
theorem get_known {t : Trace} {j k : Nat} (h : t.get k ≠ .unknown) (hjk : j ≤ k) :
    t.get j ≠ .unknown := by
  induction t generalizing j k with
  | unknown => exact h
  | ended => exact Answer.value_ne_unknown
  | failed e =>
    cases j with
    | zero => exact Answer.fault_ne_unknown
    | succ j => exact Answer.value_ne_unknown
  | cons x t ih =>
    cases j with
    | zero => exact Answer.value_ne_unknown
    | succ j =>
      obtain ⟨k, rfl⟩ : ∃ i, k = i + 1 := ⟨k - 1, by omega⟩
      exact ih h (by omega)

/-- Behind the end there is nothing. -/
theorem get_over {t : Trace} {j k : Nat} (h : t.get j = .value none) (hjk : j ≤ k) :
    t.get k = .value none := by
  induction t generalizing j k with
  | unknown => cases h
  | ended => rfl
  | failed e =>
    cases j with
    | zero => cases h
    | succ j =>
      obtain ⟨k, rfl⟩ : ∃ i, k = i + 1 := ⟨k - 1, by omega⟩
      rfl
  | cons x t ih =>
    cases j with
    | zero => cases h
    | succ j =>
      obtain ⟨k, rfl⟩ : ∃ i, k = i + 1 := ⟨k - 1, by omega⟩
      exact ih h (by omega)

/-- Behind a fault there is nothing. -/
theorem get_failed {t : Trace} {j k : Nat} {e : Fault} (h : t.get j = .fault e) (hjk : j < k) :
    t.get k = .value none := by
  induction t generalizing j k with
  | unknown | ended => cases h
  | failed e =>
    obtain ⟨k, rfl⟩ : ∃ i, k = i + 1 := ⟨k - 1, by omega⟩
    rfl
  | cons x t ih =>
    cases j with
    | zero => cases h
    | succ j =>
      obtain ⟨k, rfl⟩ : ∃ i, k = i + 1 := ⟨k - 1, by omega⟩
      exact ih h (by omega)

/-- Where the first positions are no faults, leaving them out shifts the others. -/
theorem get_drop {t : Trace} {count : Nat} (h : ∀ j < count, ∃ v, t.get j = .value v) (k : Nat) :
    (t.drop count).get k = t.get (count + k) := by
  induction count generalizing t with
  | zero => rw [drop_zero, Nat.zero_add]
  | succ count ih =>
    rw [Nat.add_right_comm]
    obtain ⟨v, hv⟩ := h 0 (Nat.succ_pos count)
    cases t with
    | unknown | failed => cases hv
    | ended => rfl
    | cons x t => exact ih fun j hj => h (j + 1) (Nat.succ_lt_succ hj)

/-- A fault among the elements that are left out is all that there is. -/
theorem get_drop_failed {t : Trace} {count j : Nat} {e : Fault} (h : t.get j = .fault e)
    (hj : j < count) : t.drop count = failed e := by
  induction count generalizing t j with
  | zero => omega
  | succ count ih =>
    cases t with
    | unknown | ended => cases h
    | failed e' =>
      cases j with
      | zero =>
        cases h
        rfl
      | succ j => cases h
    | cons x t =>
      cases j with
      | zero => cases h
      | succ j => exact ih h (Nat.lt_of_succ_lt_succ hj)

/-- Of what is behind a position of which nothing is known, nothing is known. -/
theorem get_drop_unknown {t : Trace} {count j : Nat} (h : t.get j = .unknown) (hj : j < count) :
    t.drop count = unknown := by
  induction count generalizing t j with
  | zero => omega
  | succ count ih =>
    cases t with
    | unknown => rfl
    | ended => cases h
    | failed => cases j <;> cases h
    | cons x t =>
      cases j with
      | zero => cases h
      | succ j => exact ih h (Nat.lt_of_succ_lt_succ hj)

theorem drop_drop (t : Trace) (count more : Nat) :
    (t.drop count).drop more = t.drop (count + more) := by
  induction count generalizing t with
  | zero => rw [drop_zero, Nat.zero_add]
  | succ count ih =>
    rw [Nat.add_right_comm]
    cases t with
    | cons x t => exact ih t
    | _ => cases more <;> rfl

/-- A second sequence begins where the first has ended. -/
theorem get_append {s t : Trace} {length : Nat} (hs : ∀ j < length, ∃ x, s.get j = .value (some x))
    (hend : s.get length = .value none) (k : Nat) :
    (s.append t).get k = if k < length then s.get k else t.get (k - length) := by
  induction length generalizing s k with
  | zero =>
    cases s with
    | ended => rfl
    | _ => cases hend
  | succ length ih =>
    obtain ⟨x, hx⟩ := hs 0 (Nat.succ_pos length)
    cases s with
    | cons y s =>
      cases k with
      | zero => rfl
      | succ k =>
        have hrest := ih (s := s) (fun j hj => hs (j + 1) (Nat.succ_lt_succ hj)) hend k
        simp only [append, get, hrest, Nat.succ_lt_succ_iff, Nat.add_sub_add_right]
    | _ => cases hx

end Trace

namespace LazyList

variable {l : LazyList} {j k : Nat} {a : Answer (Option Expr)}

theorem Has.before (h : l.Has k a) (hjk : j ≤ k) : ∃ b, l.Has j b := by
  obtain ⟨ha, n, rfl⟩ := h
  exact ⟨_, Trace.get_known ha hjk, n, rfl⟩

theorem Has.over (h : l.Has j (.value none)) (hjk : j ≤ k) : l.Has k (.value none) := by
  obtain ⟨-, n, hn⟩ := h
  exact ⟨Answer.value_ne_unknown, n, Trace.get_over hn hjk⟩

theorem Has.failed {e : Fault} (h : l.Has j (.fault e)) (hjk : j < k) : l.Has k (.value none) := by
  obtain ⟨-, n, hn⟩ := h
  exact ⟨Answer.value_ne_unknown, n, Trace.get_failed hn hjk⟩

/-- With enough fuel, what a list has at a position is known. -/
theorem Has.later (h : l.Has k a) : ∃ n, ∀ n', n ≤ n' → (l.trace n').get k = a := by
  obtain ⟨ha, n, rfl⟩ := h
  exact ⟨n, fun n' hn => ((l.trace_more hn).get k).eq ha⟩

/-- How pulling a list that has a first outcome ends. -/
theorem tends_pull (h : l.Has 0 a) :
    (a = .value none ∧ Tends (fun n => pullAnswer n l) (.value none)) ∨
    (∃ e, a = .fault e ∧ Tends (fun n => pullAnswer n l) (.fault e)) ∨
    ∃ x rest, a = .value (some x) ∧ Tends (fun n => pullAnswer n l) (.value (some (x, rest))) ∧
      ∀ k b, rest.Has k b ↔ l.Has (k + 1) b := by
  obtain ⟨n, hn⟩ := Has.pull h
  have hfollow := h.follow hn
  have hends : Tends (fun n => pullAnswer n l) (pullAnswer n l) :=
    .of_eq (fun hle => pullAnswer_more hle l) rfl hn
  have hhas := fun k b => has_of_pull (p := pullAnswer n l) rfl hn k b
  generalize pullAnswer n l = p at hfollow hends hhas
  rcases p with (_ | ⟨x, rest⟩) | e | _
  · exact .inl ⟨hfollow, hends⟩
  · exact .inr (.inr ⟨x, rest, hfollow, hends, fun k b => (hhas (k + 1) b).symm⟩)
  · exact .inr (.inl ⟨e, hfollow, hends⟩)
  · exact hfollow.elim

theorem tends_pull_none (h : l.Has 0 (.value none)) :
    Tends (fun n => pullAnswer n l) (.value none) := by
  rcases tends_pull h with ⟨-, hpull⟩ | ⟨e, ⟨⟩, -⟩ | ⟨x, rest, ⟨⟩, -⟩
  exact hpull

theorem tends_pull_fault {e : Fault} (h : l.Has 0 (.fault e)) :
    Tends (fun n => pullAnswer n l) (.fault e) := by
  rcases tends_pull h with ⟨⟨⟩, -⟩ | ⟨e, ⟨⟩, hpull⟩ | ⟨x, rest, ⟨⟩, -⟩
  exact hpull

theorem tends_pull_some {x : Expr} (h : l.Has 0 (.value (some x))) :
    ∃ rest, Tends (fun n => pullAnswer n l) (.value (some (x, rest))) ∧
      ∀ k b, rest.Has k b ↔ l.Has (k + 1) b := by
  rcases tends_pull h with ⟨⟨⟩, -⟩ | ⟨e, ⟨⟩, -⟩ | ⟨x, rest, ⟨⟩, hpull, hrest⟩
  exact ⟨rest, hpull, hrest⟩

theorem has_of_tends {v : Expr} {rest : LazyList}
    (h : Tends (fun n => pullAnswer n l) (.value (some (v, rest)))) :
    l.Has 0 (.value (some v)) := by
  obtain ⟨-, n, hn⟩ := h
  exact (has_of_pull (hn n (Nat.le_refl n)) Answer.value_ne_unknown 0 _).mpr rfl

/-- A list without a first outcome is pulled in vain. -/
theorem tends_pull_unknown (h : ∀ a, ¬ l.Has 0 a) : Tends (fun n => pullAnswer n l) .unknown := by
  refine .of_unknown fun n => ?_
  by_contra hn
  have hhas := fun b => has_of_pull (p := pullAnswer n l) rfl hn 0 b
  generalize pullAnswer n l = p at hn hhas
  rcases p with (_ | ⟨x, rest⟩) | e | _
  · exact h _ ((hhas _).mpr rfl)
  · exact h _ ((hhas _).mpr rfl)
  · exact h _ ((hhas _).mpr rfl)
  · exact hn rfl

/-- What is pulled has no cells. -/
theorem pullAnswer_erased {n : Nat} {x : Expr} {rest : LazyList}
    (h : pullAnswer n l = .value (some (x, rest))) : x.erase = x := by
  rw [pullAnswer] at h
  generalize pull .cacheFree n l (.fresh ()) = r at h
  rcases r with ⟨_ | p, m⟩ | ⟨_ | _, m⟩
  · cases h
  · cases h
    exact p.1.erase_erase
  · cases h
  · cases h

theorem Has.erased {x : Expr} (h : l.Has k (.value (some x))) : x.erase = x := by
  induction k generalizing l with
  | zero =>
    rcases tends_pull h with ⟨h, -⟩ | ⟨e, h, -⟩ | ⟨x, rest, h, ⟨-, n, hn⟩, -⟩
    · cases h
    · cases h
    · cases h
      exact pullAnswer_erased (hn n (Nat.le_refl n))
  | succ k ih =>
    obtain ⟨b, hb⟩ := h.before (Nat.zero_le (k + 1))
    rcases tends_pull hb with ⟨rfl, -⟩ | ⟨e, rfl, -⟩ | ⟨y, rest, rfl, -, hrest⟩
    · cases h.unique (hb.over (Nat.zero_le (k + 1)))
    · cases h.unique (hb.failed (Nat.succ_pos k))
    · exact ih ((hrest k _).mpr h)

/-! ## 2. Views -/

/-- The first positions have outcomes, and none of them is a fault. -/
def Clean (l : LazyList) (count : Nat) : Prop := ∀ k < count, ∃ v, l.Has k (.value v)

/-- What the list has at its first positions, and nothing else. -/
def First (l : LazyList) (count k : Nat) (a : Answer (Option Expr)) : Prop :=
  k < count ∧ l.Has k a ∨ count ≤ k ∧ a = .value none

/-- What the list has behind its first positions.  A fault at one of these stays, and nothing
follows it. -/
def Without (l : LazyList) (count k : Nat) (a : Answer (Option Expr)) : Prop :=
  l.Clean count ∧ l.Has (count + k) a ∨
    ∃ j < count, ∃ e, l.Has j (.fault e) ∧ a = if k = 0 then .fault e else .value none

theorem get_failed_eq (e : Fault) (k : Nat) :
    (Trace.failed e).get k = if k = 0 then .fault e else .value none := by
  cases k <;> rfl

/-- **The outcomes behind the first elements.** -/
theorem has_dropped (l : LazyList) (count k : Nat) (a : Answer (Option Expr)) :
    (dropped count l).Has k a ↔ l.Without count k a := by
  constructor
  · rintro ⟨ha, n, hn⟩
    change ((l.trace n).drop count).get k = a at hn
    by_cases hfirst : ∀ j < count, ∃ v, (l.trace n).get j = .value v
    · rw [Trace.get_drop hfirst] at hn
      refine .inl ⟨fun j hj => ?_, ha, n, hn⟩
      obtain ⟨v, hv⟩ := hfirst j hj
      exact ⟨v, Answer.value_ne_unknown, n, hv⟩
    · simp only [not_forall, not_exists] at hfirst
      obtain ⟨j, hj, hnone⟩ := hfirst
      cases hget : (l.trace n).get j with
      | value v => exact absurd hget (hnone v)
      | fault e =>
        rw [Trace.get_drop_failed hget hj, get_failed_eq] at hn
        exact .inr ⟨j, hj, e, ⟨Answer.fault_ne_unknown, n, hget⟩, hn.symm⟩
      | unknown =>
        rw [Trace.get_drop_unknown hget hj] at hn
        exact absurd hn.symm ha
  · rintro (⟨hclean, ha, n, hn⟩ | ⟨j, hj, e, ⟨-, n, hn⟩, rfl⟩)
    · -- what is known behind the first positions is known with the fuel for these as well
      refine ⟨ha, n, (Trace.get_drop (fun j hj => ?_) k).trans hn⟩
      have hknown : (l.trace n).get j ≠ .unknown :=
        Trace.get_known (k := count + k) (hn ▸ ha) (by omega)
      obtain ⟨v, hv⟩ := hclean j hj
      exact ⟨v, Has.unique ⟨hknown, n, rfl⟩ hv⟩
    · refine ⟨?_, n, ?_⟩
      · split
        · exact Answer.fault_ne_unknown
        · exact Answer.value_ne_unknown
      · show ((l.trace n).drop count).get k = _
        rw [Trace.get_drop_failed hn hj, get_failed_eq]

/-- Leaving out elements twice leaves out as many as both together. -/
theorem has_dropped_dropped (l : LazyList) (count more k : Nat) (a : Answer (Option Expr)) :
    (dropped more (dropped count l)).Has k a ↔ l.Without (count + more) k a := by
  rw [← has_dropped]
  refine and_congr_right fun _ => exists_congr fun n => ?_
  show (((l.trace n).drop count).drop more).get k = a ↔ ((l.trace n).drop (count + more)).get k = a
  rw [Trace.drop_drop]

theorem has_prepend_zero (x : Expr) (l : LazyList) (a : Answer (Option Expr)) :
    (prepend x l).Has 0 a ↔ a = .value (some x.erase) := by
  constructor
  · rintro ⟨-, n, rfl⟩
    rfl
  · rintro rfl
    exact ⟨Answer.value_ne_unknown, 0, rfl⟩

theorem has_prepend_succ (x : Expr) (l : LazyList) (k : Nat) (a : Answer (Option Expr)) :
    (prepend x l).Has (k + 1) a ↔ l.Has k a := Iff.rfl

/-- The first element in front of the others. -/
theorem has_prepend_dropped {x : Expr} (h : l.Has 0 (.value (some x))) (k : Nat)
    (a : Answer (Option Expr)) : (prepend x (dropped 1 l)).Has k a ↔ l.Has k a := by
  cases k with
  | zero =>
    rw [has_prepend_zero, h.erased]
    constructor
    · rintro rfl
      exact h
    · exact fun ha => ha.unique h
  | succ k =>
    rw [has_prepend_succ, has_dropped, Without, Nat.add_comm 1 k]
    constructor
    · rintro (⟨-, ha⟩ | ⟨j, hj, e, he, -⟩)
      · exact ha
      · obtain rfl : j = 0 := by omega
        cases h.unique he
    · refine fun ha => .inl ⟨fun j hj => ?_, ha⟩
      obtain rfl : j = 0 := by omega
      exact ⟨_, h⟩

/-- A list has this many elements, and no fault. -/
def HasLength (l : LazyList) (length : Nat) : Prop :=
  (∀ k < length, ∃ x, l.Has k (.value (some x))) ∧ l.Has length (.value none)

/-- **One list after another** that has an end. -/
theorem has_concat {s t : LazyList} {length : Nat} (hs : s.HasLength length) (k : Nat)
    (a : Answer (Option Expr)) :
    (concat s t).Has k a ↔ k < length ∧ s.Has k a ∨ length ≤ k ∧ t.Has (k - length) a := by
  -- with the fuel for the end of the first list, all of its elements are known
  obtain ⟨n₀, hend⟩ := hs.2.later
  have hget : ∀ n, n₀ ≤ n → ((concat s t).trace n).get k =
      if k < length then (s.trace n).get k else (t.trace n).get (k - length) := by
    intro n hn
    refine Trace.get_append (fun j hj => ?_) (hend n hn) k
    obtain ⟨x, hx⟩ := hs.1 j hj
    have hknown : (s.trace n).get j ≠ .unknown := by
      refine Trace.get_known (k := length) ?_ (Nat.le_of_lt hj)
      rw [hend n hn]
      exact Answer.value_ne_unknown
    exact ⟨x, Has.unique ⟨hknown, n, rfl⟩ hx⟩
  constructor
  · intro h
    obtain ⟨n, hn⟩ := h.later
    have hat := hn _ (Nat.le_max_left n n₀)
    rw [hget _ (Nat.le_max_right n n₀)] at hat
    split at hat
    · next hk => exact .inl ⟨hk, h.1, _, hat⟩
    · next hk => exact .inr ⟨Nat.le_of_not_lt hk, h.1, _, hat⟩
  · rintro (⟨hk, h⟩ | ⟨hk, h⟩)
    · obtain ⟨n, hn⟩ := h.later
      refine ⟨h.1, max n n₀, ?_⟩
      rw [hget _ (Nat.le_max_right n n₀), if_pos hk, hn _ (Nat.le_max_left n n₀)]
    · obtain ⟨n, hn⟩ := h.later
      refine ⟨h.1, max n n₀, ?_⟩
      rw [hget _ (Nat.le_max_right n n₀), if_neg (Nat.not_lt.mpr hk), hn _ (Nat.le_max_left n n₀)]

/-! ## 3. Lists of values -/

theorem get_ofList (xs : List Expr) (k : Nat) : (Trace.ofList xs).get k = .value xs[k]? := by
  induction xs generalizing k with
  | nil => rfl
  | cons x xs ih =>
    cases k with
    | zero => rfl
    | succ k => exact ih k

/-- The elements of a list of values are known with enough fuel. -/
theorem trace_values {xs : List Expr} (h : ∀ x ∈ xs, x.isValue = true) :
    ∃ n, ∀ n', n ≤ n' → ∀ cell, (items xs .top cell).trace n' = .ofList (eraseAll xs) := by
  induction xs with
  | nil => exact ⟨0, fun _ _ _ => rfl⟩
  | cons x xs ih =>
    obtain ⟨n, hn⟩ := ih fun y hy => h y (List.mem_cons_of_mem x hy)
    obtain ⟨-, m, hm⟩ := tends_value (h x List.mem_cons_self)
    refine ⟨max n m, fun n' hn' cell => ?_⟩
    have hrest := hn n' (Nat.le_trans (Nat.le_max_left n m) hn') none
    simp only [trace] at hrest
    simp only [trace, Trace.ofList, Trace.visit,
      hm n' (Nat.le_trans (Nat.le_max_right n m) hn'), eraseAll, ← hrest]
    rfl

/-- **A list of values has these.** -/
theorem has_values {xs : List Expr} (h : ∀ x ∈ xs, x.isValue = true) (cell : Option Nat) (k : Nat)
    (a : Answer (Option Expr)) : (items xs .top cell).Has k a ↔
    a = .value (xs[k]?.map Expr.erase) := by
  obtain ⟨n, hn⟩ := trace_values h
  have hat : (items xs .top cell).Has k (.value (xs[k]?.map Expr.erase)) := by
    refine ⟨Answer.value_ne_unknown, n, ?_⟩
    rw [hn n (Nat.le_refl n), get_ofList, eraseAll_eq_map, List.getElem?_map]
  constructor
  · exact fun ha => ha.unique hat
  · rintro rfl
    exact hat

theorem hasLength_values {xs : List Expr} (h : ∀ x ∈ xs, x.isValue = true) (cell : Option Nat) :
    (items xs .top cell).HasLength xs.length := by
  refine ⟨fun k hk => ⟨(xs[k]).erase, ?_⟩, ?_⟩
  · rw [has_values h, List.getElem?_eq_getElem hk, Option.map_some]
  · rw [has_values h, List.getElem?_eq_none (Nat.le_refl _), Option.map_none]

/-! ## 4. The first elements -/

/-- What the first positions of a list come to: their elements, as many as there are; or a fault at
one of them; or nothing, if one of them has no outcome. -/
def Firsts (l : LazyList) (count : Nat) : Answer (List Expr) → Prop
  | .value xs => xs.length ≤ count ∧ (∀ k x, xs[k]? = some x → l.Has k (.value (some x))) ∧
      (xs.length < count → l.Has xs.length (.value none))
  | .fault e => ∃ k < count, l.Has k (.fault e)
  | .unknown => ∃ k < count, ∀ a, ¬ l.Has k a

/-- The first positions always come to something. -/
theorem exists_firsts (l : LazyList) (count : Nat) : ∃ o, l.Firsts count o := by
  induction count with
  | zero => exact ⟨.value [], by simp, by simp, by simp⟩
  | succ count ih =>
    obtain ⟨o, ho⟩ := ih
    rcases o with xs | e | _
    · obtain ⟨hlen, hxs, hend⟩ := ho
      rcases Nat.lt_or_eq_of_le hlen with hlt | hlen
      · exact ⟨.value xs, Nat.le_succ_of_le hlen, hxs, fun _ => hend hlt⟩
      · -- the list goes on up to here, so the next position decides
        by_cases hhas : ∃ a, l.Has count a
        · obtain ⟨(_ | x) | e | _, ha⟩ := hhas
          · exact ⟨.value xs, by omega, hxs, fun _ => hlen ▸ ha⟩
          · refine ⟨.value (xs ++ [x]), ?_, fun k y hy => ?_, ?_⟩
            · rw [List.length_append, List.length_singleton, hlen]
            · rcases Nat.lt_or_ge k xs.length with hk | hk
              · rw [List.getElem?_append_left hk] at hy
                exact hxs k y hy
              · rw [List.getElem?_append_right hk, List.getElem?_singleton] at hy
                split at hy
                · obtain rfl : k = count := by omega
                  cases hy
                  exact ha
                · cases hy
            · rw [List.length_append, List.length_singleton]
              omega
          · exact ⟨.fault e, count, Nat.lt_succ_self count, ha⟩
          · exact absurd rfl ha.1
        · exact ⟨.unknown, count, Nat.lt_succ_self count, not_exists.mp hhas⟩
    · obtain ⟨k, hk, he⟩ := ho
      exact ⟨.fault e, k, Nat.lt_succ_of_lt hk, he⟩
    · obtain ⟨k, hk, hnone⟩ := ho
      exact ⟨.unknown, k, Nat.lt_succ_of_lt hk, hnone⟩

/-- What is found at the first positions of a clean list are elements, up to its end. -/
theorem Firsts.clean {xs : List Expr} {count : Nat} (h : l.Firsts count (.value xs)) :
    l.Clean count := by
  obtain ⟨-, hxs, hend⟩ := h
  intro k hk
  rcases Nat.lt_or_ge k xs.length with hlt | hge
  · exact ⟨_, hxs k _ (List.getElem?_eq_getElem hlt)⟩
  · exact ⟨none, (hend (by omega)).over hge⟩

/-- What comes to a fault or to nothing is not clean. -/
theorem Firsts.of_clean {o : Answer (List Expr)} {count : Nat} (h : l.Firsts count o)
    (hclean : l.Clean count) : ∃ xs, o = .value xs := by
  rcases o with xs | e | _
  · exact ⟨xs, rfl⟩
  · obtain ⟨k, hk, he⟩ := h
    obtain ⟨v, hv⟩ := hclean k hk
    cases he.unique hv
  · obtain ⟨k, hk, hnone⟩ := h
    obtain ⟨v, hv⟩ := hclean k hk
    exact absurd hv (hnone _)

theorem Firsts.erased {xs : List Expr} {count : Nat} (h : l.Firsts count (.value xs)) :
    (items xs .top none).erase = items xs .top none := by
  have hxs : eraseAll xs = xs := by
    rw [eraseAll_eq_map]
    refine (List.map_congr_left fun x hx => ?_).trans (List.map_id xs)
    obtain ⟨k, hk⟩ := List.mem_iff_getElem?.mp hx
    exact (h.2.1 k x hk).erased
  exact congrArg (items · .top none) hxs

/-- Lists that have the same at their first positions come to the same there. -/
theorem Firsts.congr {l' : LazyList} {o : Answer (List Expr)} {count : Nat} (h : l.Firsts count o)
    (hsame : ∀ k < count, ∀ a, l.Has k a ↔ l'.Has k a) : l'.Firsts count o := by
  rcases o with xs | e | _
  · obtain ⟨hlen, hxs, hend⟩ := h
    refine ⟨hlen, fun k x hx => ?_, fun hlt => (hsame _ hlt _).mp (hend hlt)⟩
    obtain ⟨hk, -⟩ := List.getElem?_eq_some_iff.mp hx
    exact (hsame k (by omega) _).mp (hxs k x hx)
  · obtain ⟨k, hk, he⟩ := h
    exact ⟨k, hk, (hsame k hk _).mp he⟩
  · obtain ⟨k, hk, hnone⟩ := h
    exact ⟨k, hk, fun a ha => hnone a ((hsame k hk a).mpr ha)⟩

/-- What the first positions come to, by the first of them. -/
theorem Firsts.succ {o : Answer (List Expr)} {count : Nat} (h : l.Firsts (count + 1) o) :
    (l.Has 0 (.value none) ∧ o = .value []) ∨ (∃ e, l.Has 0 (.fault e) ∧ o = .fault e) ∨
    (∃ x q, l.Has 0 (.value (some x)) ∧ o = q.map (x :: ·) ∧
      ∀ rest : LazyList, (∀ k b, rest.Has k b ↔ l.Has (k + 1) b) → rest.Firsts count q) ∨
    (∀ a, ¬ l.Has 0 a) ∧ o = .unknown := by
  rcases o with (_ | ⟨x, xs⟩) | e | _
  · exact .inl ⟨h.2.2 (Nat.succ_pos count), rfl⟩
  · obtain ⟨hlen, hxs, hend⟩ := h
    refine .inr (.inr (.inl ⟨x, .value xs, hxs 0 x rfl, rfl, fun rest hrest => ?_⟩))
    refine ⟨Nat.le_of_succ_le_succ hlen, fun k y hy =>
      (hrest k _).mpr (hxs (k + 1) y hy), fun hlt => ?_⟩
    exact (hrest _ _).mpr (hend (Nat.succ_lt_succ hlt))
  · obtain ⟨k, hk, he⟩ := h
    cases k with
    | zero => exact .inr (.inl ⟨e, he, rfl⟩)
    | succ k =>
      obtain ⟨(_ | x) | e' | _, hb⟩ := he.before (Nat.zero_le (k + 1))
      · cases he.unique (hb.over (Nat.zero_le (k + 1)))
      · refine .inr (.inr (.inl ⟨x, .fault e, hb, rfl, fun rest hrest => ?_⟩))
        exact ⟨k, Nat.lt_of_succ_lt_succ hk, (hrest k _).mpr he⟩
      · cases he.unique (hb.failed (Nat.succ_pos k))
      · exact absurd rfl hb.1
  · by_cases hhas : ∃ a, l.Has 0 a
    · obtain ⟨k, hk, hnone⟩ := h
      obtain ⟨a, ha⟩ := hhas
      cases k with
      | zero => exact absurd ha (hnone a)
      | succ k =>
        rcases a with (_ | x) | e | _
        · exact absurd (ha.over (Nat.zero_le (k + 1))) (hnone _)
        · refine .inr (.inr (.inl ⟨x, .unknown, ha, rfl, fun rest hrest => ?_⟩))
          exact ⟨k, Nat.lt_of_succ_lt_succ hk, fun b hb => hnone b ((hrest k b).mp hb)⟩
        · exact absurd (ha.failed (Nat.succ_pos k)) (hnone _)
        · exact absurd rfl ha.1
    · exact .inr (.inr (.inr ⟨not_exists.mp hhas, rfl⟩))

/-- **A list of the first elements** has what the list has there, and nothing else. -/
theorem has_firsts {xs : List Expr} {count : Nat} (h : l.Firsts count (.value xs))
    (hvalues : ∀ x ∈ xs, x.isValue = true) (cell : Option Nat) (k : Nat)
    (a : Answer (Option Expr)) :
    (items xs .top cell).Has k a ↔ l.First count k a := by
  obtain ⟨hlen, hxs, hend⟩ := h
  rw [has_values hvalues, First]
  rcases Nat.lt_or_ge k xs.length with hk | hk
  · have hhas := hxs k _ (List.getElem?_eq_getElem hk)
    rw [List.getElem?_eq_getElem hk, Option.map_some, hhas.erased]
    constructor
    · rintro rfl
      exact .inl ⟨by omega, hhas⟩
    · rintro (⟨-, ha⟩ | ⟨hge, -⟩)
      · exact ha.unique hhas
      · omega
  · rw [List.getElem?_eq_none hk, Option.map_none]
    constructor
    · rintro rfl
      rcases Nat.lt_or_ge k count with hlt | hge
      · exact .inl ⟨hlt, (hend (by omega)).over hk⟩
      · exact .inr ⟨hge, rfl⟩
    · rintro (⟨hlt, ha⟩ | ⟨-, ha⟩)
      · exact ha.unique ((hend (by omega)).over hk)
      · exact ha

/-- **The first elements and then the others** are the list. -/
theorem has_firsts_dropped {xs : List Expr} {count : Nat} (h : l.Firsts count (.value xs))
    (hvalues : ∀ x ∈ xs, x.isValue = true) (cell : Option Nat) (k : Nat)
    (a : Answer (Option Expr)) :
    (concat (items xs .top cell) (dropped count l)).Has k a ↔ l.Has k a := by
  have hclean := h.clean
  have hdropped : (dropped count l).Has (k - xs.length) a ↔ l.Has (count + (k - xs.length)) a := by
    rw [has_dropped, Without]
    constructor
    · rintro (⟨-, ha⟩ | ⟨j, hj, e, he, -⟩)
      · exact ha
      · obtain ⟨v, hv⟩ := hclean j hj
        cases he.unique hv
    · exact fun ha => .inl ⟨hclean, ha⟩
  rw [has_concat (hasLength_values hvalues cell), has_firsts h hvalues, hdropped, First]
  obtain ⟨hlen, -, hend⟩ := h
  rcases Nat.lt_or_ge k xs.length with hk | hk
  · constructor
    · rintro (⟨-, ⟨-, ha⟩ | ⟨hge, -⟩⟩ | ⟨hge, -⟩)
      · exact ha
      · omega
      · omega
    · exact fun ha => .inl ⟨hk, .inl ⟨by omega, ha⟩⟩
  · rcases Nat.lt_or_eq_of_le hlen with hlt | hlen
    · -- the list has ended before, so both sides say that there is nothing
      have hover := (hend hlt).over hk
      have hover' := (hend hlt).over (k := count + (k - xs.length)) (by omega)
      constructor
      · rintro (⟨hlt, -⟩ | ⟨-, ha⟩)
        · omega
        · exact ha.unique hover' ▸ hover
      · exact fun ha => .inr ⟨hk, ha.unique hover ▸ hover'⟩
    · have hat : count + (k - xs.length) = k := by omega
      rw [hat]
      constructor
      · rintro (⟨hlt, -⟩ | ⟨-, ha⟩)
        · omega
        · exact ha
      · exact fun ha => .inr ⟨hk, ha⟩

end LazyList

/-! ## 5. Taking elements -/

section Taking

/-- What the loop that takes elements answers. -/
def takenAnswer (n : Nat) : (count : Nat) → LazyList → Answer (List Expr)
  | 0, _ => .value []
  | count + 1, l => (pullAnswer n l).bind fun
    | none => .value []
    | some (x, rest) => (takenAnswer n count rest).map (x :: ·)

theorem takenAnswer_alike (n count : Nat) {l l' : LazyList} (h : l.Alike l') :
    takenAnswer n count l = takenAnswer n count l' := by
  cases count with
  | zero => rfl
  | succ count => rw [takenAnswer, takenAnswer, pullAnswer_alike n h]

theorem takeItems_answer (n count : Nat) (taken : List Expr) (l : LazyList) {m : Machine Unit}
    (hm : m.Plain) :
    Answer.ofRun eraseAll (takeItems (advance .cacheFree n) count taken l m) =
      (takenAnswer n count l).map (eraseAll taken.reverse ++ ·) := by
  induction count generalizing taken l m with
  | zero => exact congrArg Answer.value (List.append_nil _).symm
  | succ count ih =>
    rw [takeItems_succ, answer_check hm, takenAnswer]
    refine (answer_pull hm (g := fun
      | none => .value (eraseAll taken.reverse)
      | some (x, rest) =>
        (takenAnswer n count rest).map (eraseAll taken.reverse ++ x :: ·)) ?_).trans ?_
    · rintro (_ | ⟨x, rest⟩) m hm
      · rfl
      · refine (ih (x :: taken) rest hm).trans ?_
        rw [takenAnswer_alike n count rest.alike_erase]
        simp only [eraseAll_eq_map, List.reverse_cons, List.map_append, List.append_assoc]
        rfl
    · rcases pullAnswer n l with (_ | ⟨x, rest⟩) | e | _
      · exact congrArg Answer.value (List.append_nil _).symm
      · exact (Answer.map_map _ _ _).symm
      · rfl
      · rfl

/-- **Taking elements comes to what the first positions come to.** -/
theorem tends_taken {l : LazyList} {count : Nat} {o : Answer (List Expr)} (h : l.Firsts count o) :
    Tends (fun n => takenAnswer n count l) o := by
  induction count generalizing l o with
  | zero =>
    rcases o with xs | e | _
    · obtain rfl : xs = [] := List.length_eq_zero_iff.mp (Nat.le_zero.mp h.1)
      exact .const _
    · obtain ⟨k, hk, -⟩ := h
      omega
    · obtain ⟨k, hk, -⟩ := h
      omega
  | succ count ih =>
    simp only [takenAnswer]
    rcases h.succ with ⟨h0, rfl⟩ | ⟨e, h0, rfl⟩ | ⟨x, q, h0, rfl, hq⟩ | ⟨h0, rfl⟩
    · refine (LazyList.tends_pull_none h0).bind (c := fun _ => .value []) ?_
      rintro v ⟨⟩
      exact .const _
    · exact (LazyList.tends_pull_fault h0).bind (c := fun _ => .value []) nofun
    · obtain ⟨rest, hpull, hrest⟩ := LazyList.tends_pull_some h0
      refine hpull.bind (c := fun _ => q.map (x :: ·)) ?_
      rintro v ⟨⟩
      exact (ih (hq rest hrest)).map _
    · exact (LazyList.tends_pull_unknown h0).bind (c := fun _ => .value []) nofun

end Taking

/-! ## 6. Counting elements -/

section Counting

/-- What the loop that counts elements answers. -/
def countAnswer (n : Nat) : (rounds : Nat) → LazyList → Answer Nat
  | 0, _ => .unknown
  | rounds + 1, l => (pullAnswer n l).bind fun
    | none => .value 0
    | some (_, rest) => (countAnswer n rounds rest).map (1 + ·)

theorem countAnswer_alike (n rounds : Nat) {l l' : LazyList} (h : l.Alike l') :
    countAnswer n rounds l = countAnswer n rounds l' := by
  cases rounds with
  | zero => rfl
  | succ rounds => rw [countAnswer, countAnswer, pullAnswer_alike n h]

theorem foldItems_answer (n rounds count : Nat) (l : LazyList) {m : Machine Unit} (hm : m.Plain) :
    Answer.ofRun id
      (foldItems (advance .cacheFree n) (fun count _ => pure (count + 1)) rounds count l m) =
      (countAnswer n rounds l).map (count + ·) := by
  induction rounds generalizing count l m with
  | zero => rfl
  | succ rounds ih =>
    rw [foldItems_succ, answer_check hm, countAnswer]
    refine (answer_pull hm (g := fun
      | none => .value count
      | some (_, rest) => (countAnswer n rounds rest).map (count + 1 + ·)) ?_).trans ?_
    · rintro (_ | ⟨x, rest⟩) m hm
      · rfl
      · refine (ih (count + 1) rest hm).trans ?_
        rw [countAnswer_alike n rounds rest.alike_erase]
        rfl
    · rcases pullAnswer n l with (_ | ⟨x, rest⟩) | e | _
      · rfl
      · refine Eq.trans ?_ (Answer.map_map _ _ _).symm
        simp only [Nat.add_assoc]
        rfl
      · rfl
      · rfl

variable {l : LazyList}

theorem LazyList.HasLength.unique {length length' : Nat} (h : l.HasLength length)
    (h' : l.HasLength length') : length = length' := by
  have hle : ∀ {i j}, l.HasLength i → l.HasLength j → i ≤ j := by
    intro i j hi hj
    by_contra hlt
    obtain ⟨x, hx⟩ := hi.1 j (Nat.lt_of_not_le hlt)
    cases hx.unique hj.2
  exact Nat.le_antisymm (hle h h') (hle h' h)

/-- A list with a length has no faults. -/
theorem LazyList.HasLength.not_fault {length k : Nat} {e : Fault} (h : l.HasLength length) :
    ¬ l.Has k (.fault e) := by
  intro he
  rcases Nat.lt_or_ge k length with hk | hk
  · obtain ⟨x, hx⟩ := h.1 k hk
    cases hx.unique he
  · cases (h.2.over hk).unique he

theorem LazyList.HasLength.clean {length : Nat} (h : l.HasLength length) (count : Nat) :
    l.Clean count := by
  intro k _
  rcases Nat.lt_or_ge k length with hk | hk
  · obtain ⟨x, hx⟩ := h.1 k hk
    exact ⟨some x, hx⟩
  · exact ⟨none, h.2.over hk⟩

/-- There are as many first elements as asked for, or as there are. -/
theorem LazyList.Firsts.length {xs : List Expr} {count length : Nat}
    (h : l.Firsts count (.value xs)) (hl : l.HasLength length) :
    xs.length = min count length := by
  obtain ⟨hle, hxs, hend⟩ := h
  have hbefore : ∀ k < xs.length, ∃ x, l.Has k (.value (some x)) := fun k hk =>
    ⟨_, hxs k _ (List.getElem?_eq_getElem hk)⟩
  rcases Nat.lt_or_eq_of_le hle with hlt | heq
  · have hlength : xs.length = length := LazyList.HasLength.unique ⟨hbefore, hend hlt⟩ hl
    omega
  · have hge : ¬ length < count := by
      intro hlt
      obtain ⟨x, hx⟩ := hbefore length (heq ▸ hlt)
      cases hx.unique hl.2
    omega

/-- The length of a list, by that of what follows its first element. -/
theorem LazyList.hasLength_succ {x : Expr} {rest : LazyList} {length : Nat}
    (hx : l.Has 0 (.value (some x))) (hrest : ∀ k b, rest.Has k b ↔ l.Has (k + 1) b) :
    l.HasLength (length + 1) ↔ rest.HasLength length := by
  constructor
  · rintro ⟨hbefore, hend⟩
    refine ⟨fun k hk => ?_, (hrest length _).mpr hend⟩
    obtain ⟨y, hy⟩ := hbefore (k + 1) (Nat.succ_lt_succ hk)
    exact ⟨y, (hrest k _).mpr hy⟩
  · rintro ⟨hbefore, hend⟩
    refine ⟨fun k hk => ?_, (hrest length _).mp hend⟩
    cases k with
    | zero => exact ⟨x, hx⟩
    | succ k =>
      obtain ⟨y, hy⟩ := hbefore k (Nat.lt_of_succ_lt_succ hk)
      exact ⟨y, (hrest k _).mp hy⟩

/-- What counting may end with: the length of the list, or one of its faults. -/
def LazyList.Counts (l : LazyList) : Answer Nat → Prop
  | .value length => l.HasLength length
  | .fault e => ∃ k, l.Has k (.fault e)
  | .unknown => True

/-- Counting ends with the length of the list or with one of its faults. -/
theorem counted_sound (n rounds : Nat) (l : LazyList) : l.Counts (countAnswer n rounds l) := by
  induction rounds generalizing l with
  | zero => exact trivial
  | succ rounds ih =>
    rw [countAnswer]
    by_cases hpull : pullAnswer n l = .unknown
    · rw [hpull]
      exact trivial
    · have hhas := fun k b => LazyList.has_of_pull (p := pullAnswer n l) rfl hpull k b
      generalize pullAnswer n l = p at hpull hhas
      rcases p with (_ | ⟨x, rest⟩) | e | _
      · exact ⟨fun k hk => absurd hk (Nat.not_lt_zero k), (hhas 0 _).mpr rfl⟩
      · have hfirst : l.Has 0 (.value (some x)) := (hhas 0 _).mpr rfl
        have hrest : ∀ k b, rest.Has k b ↔ l.Has (k + 1) b := fun k b => (hhas (k + 1) b).symm
        have hcounts := ih rest
        show l.Counts ((countAnswer n rounds rest).map (1 + ·))
        generalize countAnswer n rounds rest = q at hcounts
        rcases q with count | e | _
        · show l.HasLength (1 + count)
          rw [Nat.add_comm, LazyList.hasLength_succ hfirst hrest]
          exact hcounts
        · obtain ⟨k, hk⟩ := hcounts
          exact ⟨k + 1, (hrest k _).mp hk⟩
        · exact trivial
      · exact ⟨0, (hhas 0 _).mpr rfl⟩
      · exact absurd rfl hpull

/-- A list with a length is counted, with enough fuel and rounds. -/
theorem counted_of_hasLength {length : Nat} (h : l.HasLength length) :
    ∃ n₀, ∀ n, n₀ ≤ n → ∀ rounds, length < rounds → countAnswer n rounds l = .value length := by
  induction length generalizing l with
  | zero =>
    obtain ⟨-, n₀, hpull⟩ := LazyList.tends_pull_none h.2
    refine ⟨n₀, fun n hn rounds hrounds => ?_⟩
    obtain ⟨rounds, rfl⟩ : ∃ i, rounds = i + 1 := ⟨rounds - 1, by omega⟩
    simp only [countAnswer, hpull n hn]
    rfl
  | succ length ih =>
    obtain ⟨x, hx⟩ := h.1 0 (Nat.succ_pos length)
    obtain ⟨rest, ⟨-, n₀, hpull⟩, hrest⟩ := LazyList.tends_pull_some hx
    obtain ⟨n₁, hcount⟩ := ih ((LazyList.hasLength_succ hx hrest).mp h)
    refine ⟨max n₀ n₁, fun n hn rounds hrounds => ?_⟩
    obtain ⟨rounds, rfl⟩ : ∃ i, rounds = i + 1 := ⟨rounds - 1, by omega⟩
    simp only [countAnswer, hpull n (Nat.le_trans (Nat.le_max_left n₀ n₁) hn)]
    show (countAnswer n rounds rest).map (1 + ·) = _
    rw [hcount n (Nat.le_trans (Nat.le_max_right n₀ n₁) hn) rounds (by omega),
      Nat.add_comm length 1]
    rfl

/-- **Counting elements comes to their number.** -/
theorem tends_counted {length : Nat} (h : l.HasLength length) :
    Tends (fun n => countAnswer n n l) (.value length) := by
  obtain ⟨n₀, hcount⟩ := counted_of_hasLength h
  refine ⟨fun n => ?_, max n₀ (length + 1), fun n hn => ?_⟩
  · have hsound := counted_sound n n l
    show (countAnswer n n l).Below (.value length)
    generalize countAnswer n n l = q at hsound
    rcases q with count | e | _
    · exact .inr (congrArg Answer.value (LazyList.HasLength.unique hsound h))
    · obtain ⟨k, hk⟩ := hsound
      exact absurd hk h.not_fault
    · exact .unknown
  · refine hcount n (Nat.le_trans (Nat.le_max_left _ _) hn) n ?_
    exact Nat.le_trans (Nat.le_max_right n₀ _) hn

/-- A list without a fault that has no length is counted in vain. -/
theorem tends_counted_unknown (hfault : ∀ k e, ¬ l.Has k (.fault e))
    (hlength : ∀ length, ¬ l.HasLength length) : Tends (fun n => countAnswer n n l) .unknown := by
  refine .of_unknown fun n => ?_
  have hsound := counted_sound n n l
  generalize countAnswer n n l = q at hsound
  rcases q with count | e | _
  · exact absurd hsound (hlength count)
  · obtain ⟨k, hk⟩ := hsound
    exact absurd hk (hfault k e)
  · rfl

end Counting

end LazyExpr
