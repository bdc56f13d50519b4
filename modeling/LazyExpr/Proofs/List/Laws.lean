import LazyExpr.Proofs.List.Elements
import LazyExpr.Proofs.List.Runs

/-!
# The laws of lists

`take` walks along a list at once, while `drop` and `tail` only view it; `head` and `tail` look at
the first element, and `length` at all of them.  This module says how these functions go together,
in terms of what an application sees of them: the values of expressions, and the traversals of the
lists among them.

A count is an integer or a decimal of the same value.  Negative counts are none at all, and a
decimal beyond the integers is no count.

* `tends_take`, `tends_drop`, `tends_head`, `tends_tail` and `tends_length`: what the functions
  answer.
* `ListLaws`: the laws, for one list and one count.
* `list_laws`: **they hold of every list and every count**, whatever an application has done.
-/

namespace LazyExpr

open Eval

/-! ## 1. Counts -/

/-- The value is this integer, as an integer or as a decimal. -/
def Expr.Denotes (c : Expr) (n : Int) : Prop :=
  (∃ i : Int64, c = .integer i ∧ i.toInt = n) ∨ ∃ d : Decimal, c = .decimal d ∧
    d.signed = n * 10 ^ d.scale

/-- The 64-bit integers have this value among them. -/
def InRange (n : Int) : Prop := Int64.minValue.toInt ≤ n ∧ n ≤ Int64.maxValue.toInt

instance (n : Int) : Decidable (InRange n) := inferInstanceAs (Decidable (_ ∧ _))

theorem toInt64?_of_signed {d : Decimal} {n : Int} (h : d.signed = n * 10 ^ d.scale) :
    d.toInt64? = int64OfInt? n := by
  have hpos : (10 : Int) ^ d.scale ≠ 0 := Int.ne_of_gt (Int.pow_pos (by decide))
  show (if d.signed % 10 ^ d.scale = 0 ∧ _ ≤ d.signed / 10 ^ d.scale ∧
    d.signed / 10 ^ d.scale ≤ _ then some (Int64.ofInt (d.signed / 10 ^ d.scale)) else none) = _
  rw [h, Int.mul_ediv_cancel _ hpos, Int.mul_emod_left, int64OfInt?]
  simp only [true_and]

/-- An integer is taken from a value that denotes one, if it is in range. -/
theorem Expr.Denotes.asInteger {c : Expr} {n : Int} (h : c.Denotes n) :
    c.asInteger = c.castTo .integer (int64OfInt? n) := by
  rcases h with ⟨i, rfl, rfl⟩ | ⟨d, rfl, h⟩
  · rw [int64OfInt?_eq_some_iff.mpr rfl]
    rfl
  · rw [← toInt64?_of_signed h]
    rfl

theorem Expr.Denotes.eq_number {c : Expr} {n : Int} (h : c.Denotes n) : ∃ x, c = .number x := by
  rcases h with ⟨i, rfl, -⟩ | ⟨d, rfl, -⟩
  · exact ⟨_, rfl⟩
  · exact ⟨_, rfl⟩

theorem Expr.Denotes.ok {c : Expr} {n : Int} (h : c.Denotes n) (hn : InRange n) :
    ∃ i, c.asInteger = .ok i ∧ i.toInt = n := by
  have hi : int64OfInt? n = some (Int64.ofInt n) := if_pos hn
  refine ⟨Int64.ofInt n, ?_, int64OfInt?_eq_some_iff.mp hi⟩
  rw [h.asInteger, hi]
  rfl

theorem Expr.Denotes.error {c : Expr} {n : Int} (h : c.Denotes n) (hn : ¬ InRange n) :
    c.asInteger = .error (.invalidCast c .integer) := by
  have hi : int64OfInt? n = none := if_neg hn
  rw [h.asInteger, hi]
  rfl

theorem toInt_int64OfLength (n : Nat) :
    (int64OfLength n).toInt = min (n : Int) Int64.maxValue.toInt := by
  have hmax : Int64.maxValue.toInt = 2 ^ 63 - 1 := by decide
  rw [int64OfLength, Int64.toInt_ofNat_of_lt (by omega), hmax]
  omega

theorem int64OfLength_min {n : Int} (hn : InRange n) (length : Nat) :
    (int64OfLength (min n.toNat length)).toInt = min (max n 0) (int64OfLength length).toInt := by
  have hmax := hn.2
  rw [toInt_int64OfLength, toInt_int64OfLength]
  omega

/-! ## 2. What the functions answer -/

section Answers

variable {x : Number} {i : Int64}

theorem builtinAnswer_take (hx : (Expr.number x).asInteger = .ok i) (n : Nat) (l : LazyList) :
    builtinAnswer (n + 1) .take [.number x, .list l] =
      (takenAnswer n (countOfInt64 i) l).map fun xs => .list (.items xs .top none) := by
  have hcall : callBuiltin .cacheFree (n + 1) .take [.number x, .list l] = (do
      let taken ← takeItems (advance .cacheFree n) (countOfInt64 i) [] l
      newList taken .top) := by
    show (lift (Expr.number x).asInteger >>= _) = _
    rw [hx]
    rfl
  have htaken : Answer.ofRun eraseAll
    (takeItems (advance .cacheFree n) (countOfInt64 i) [] l (.fresh ())) =
      takenAnswer n (countOfInt64 i) l :=
    (takeItems_answer n _ [] l (Machine.fresh_plain ())).trans (Answer.map_id _)
  rw [builtinAnswer, hcall, bind_run, ← htaken]
  rcases takeItems (advance .cacheFree n) (countOfInt64 i) [] l (.fresh ()) with ⟨xs, m⟩
    | ⟨_ | _, m⟩ <;> rfl

theorem builtinAnswer_drop (hx : (Expr.number x).asInteger = .ok i) (n : Nat) (l : LazyList) :
    builtinAnswer (n + 1) .drop [.number x, .list l] =
      .value (.list (.dropped (countOfInt64 i) l.erase)) := by
  have hcall : callBuiltin .cacheFree (n + 1) .drop [.number x, .list l] =
      pure (.list (.dropped (countOfInt64 i) l)) := by
    show (lift (Expr.number x).asInteger >>= _) = _
    rw [hx]
    rfl
  rw [builtinAnswer, hcall]
  rfl

/-- A number that is no count is refused before the list is looked at. -/
theorem builtinAnswer_refused {b : Builtin} (hb : b = .take ∨ b = .drop)
    (hx : (Expr.number x).asInteger = .error (.invalidCast (.number x) .integer))
    (n : Nat) (a : Expr) :
    builtinAnswer (n + 1) b [.number x, a] = .fault (.invalidCast (.number x) .integer) := by
  have hcall : callBuiltin .cacheFree (n + 1) b [.number x, a] =
    fail (.invalidCast (.number x) .integer) := by
    rcases hb with rfl | rfl
    · show (lift (Expr.number x).asInteger >>= _) = _
      rw [hx]
      rfl
    · show (lift (Expr.number x).asInteger >>= _) = _
      rw [hx]
      rfl
  rw [builtinAnswer, hcall]
  rfl

/-- A function that needs a first element. -/
theorem firstItem_answer (n : Nat) (function : String) (l : LazyList) {f : Expr → Eval Unit Expr}
    {g : Expr → Answer Expr} (hf : ∀ x m, m.Plain → Answer.ofRun Expr.erase (f x m) = g x.erase) :
    Answer.ofRun Expr.erase ((firstItem (advance .cacheFree n) function l >>= f) (.fresh ())) =
      (pullAnswer n l).bind fun p => p.elim (.fault (.emptyResult function)) fun p => g p.1 := by
  rw [firstItem_eq, bind_assoc, answer_check (Machine.fresh_plain ()), bind_assoc]
  refine answer_pull (Machine.fresh_plain ()) ?_
  rintro (_ | ⟨x, rest⟩) m hm
  · rfl
  · exact hf x m hm

theorem builtinAnswer_head (n : Nat) (l : LazyList) :
    builtinAnswer (n + 1) .head [.list l] =
      (pullAnswer n l).bind fun p => p.elim (.fault (.emptyResult "head")) fun p => .value p.1 := by
  have hcall : callBuiltin .cacheFree (n + 1) .head [.list l] =
      firstItem (advance .cacheFree n) "head" l >>= pure := by
    rw [bind_pure]
    rfl
  rw [builtinAnswer, hcall]
  exact firstItem_answer n "head" l fun x m _ => rfl

theorem builtinAnswer_tail (n : Nat) (l : LazyList) :
    builtinAnswer (n + 1) .tail [.list l] =
      (pullAnswer n l).bind fun p =>
        p.elim (.fault (.emptyResult "tail")) fun _ => .value (.list (.dropped 1 l.erase)) := by
  have hcall : callBuiltin .cacheFree (n + 1) .tail [.list l] =
      firstItem (advance .cacheFree n) "tail" l >>= fun _ => pure (.list (.dropped 1 l)) := rfl
  rw [builtinAnswer, hcall]
  exact firstItem_answer n "tail" l (g := fun _ => .value (.list (.dropped 1 l.erase))) fun x m _ =>
    rfl

theorem builtinAnswer_length (n : Nat) {l : LazyList} (hl : l.isInfinite = false) :
    builtinAnswer (n + 1) .length [.list l] =
      (countAnswer n n l).map fun length => .integer (int64OfLength length) := by
  have hcall : callBuiltin .cacheFree (n + 1) .length [.list l] = (do
      let length ← foldItems (advance .cacheFree n) (fun length _ => pure (length + 1)) n 0 l
      pure (.integer (int64OfLength length))) := by
    show (lift (if l.isInfinite then _ else _) >>= _) = _
    rw [hl]
    rfl
  have hcount := foldItems_answer n n 0 l (Machine.fresh_plain ())
  simp only [Nat.zero_add, Answer.map_id] at hcount
  rw [builtinAnswer, hcall, bind_run, ← hcount]
  rcases foldItems (advance .cacheFree n) (fun length _ => pure (length + 1)) n 0 l (.fresh ()) with
    ⟨length, m⟩ | ⟨_ | _, m⟩ <;> rfl

end Answers

/-- The shape of a list does not depend on its cells. -/
theorem LazyList.isInfinite_erase (l : LazyList) : l.erase.isInfinite = l.isInfinite :=
  ((Likeness.alike .free).isInfinite_alike l l.erase
    (Tenure.free_value (Expr.alike_erase (.list l)))).symm

/-- A built-in function with its arguments. -/
def Builtin.on (b : Builtin) (arguments : List Expr) : Expr :=
  (Expr.function b.toFunction).callAll arguments

section Ends

variable {env : Env} {x : Number} {i : Int64} {a : Expr} {l : LazyList} {o : Answer Expr}
variable (hx : (Expr.number x).asInteger = .ok i)
variable (ha : Tends (fun n => evalAnswer n env a) (.value (.list l.erase)))

include ha in
theorem tends_on_list {b : Builtin} (hb : b.arity = 1)
    (h : Tends (fun n => builtinAnswer (n + 1) b [.list l.erase]) o) :
    Tends (fun n => evalAnswer n env (b.on [a])) o := by
  refine tends_builtin (p := fun _ => o) hb ha fun v hv => ?_
  cases hv
  exact .of_succ h rfl

include ha in
theorem tends_on_number_list {b : Builtin} (hb : b.arity = 2)
    (h : Tends (fun n => builtinAnswer (n + 1) b [.number x, .list l.erase]) o) :
    Tends (fun n => evalAnswer n env (b.on [.number x, a])) o := by
  refine tends_builtin₂ (g := .number x) (p := fun _ => o) hb (tends_number env x) ha fun v hv => ?_
  cases hv
  exact .of_succ h rfl

include hx ha in
theorem tends_take {o : Answer (List Expr)} (h : l.Firsts (countOfInt64 i) o) :
    Tends (fun n => evalAnswer n env (Builtin.take.on [.number x, a]))
      (o.map fun xs => .list (.items xs .top none)) := by
  refine tends_on_number_list ha rfl ?_
  simp only [builtinAnswer_take hx, ← takenAnswer_alike _ _ l.alike_erase]
  exact (tends_taken h).map _

include hx ha in
theorem tends_drop : Tends (fun n => evalAnswer n env (Builtin.drop.on [.number x, a]))
    (.value (.list (.dropped (countOfInt64 i) l.erase))) := by
  refine tends_on_number_list ha rfl ?_
  simp only [builtinAnswer_drop hx, LazyList.erase_erase]
  exact .const _

include ha in
theorem tends_head {p : Answer (Option (Expr × LazyList))} (h : Tends (fun n => pullAnswer n l) p) :
    Tends (fun n => evalAnswer n env (Builtin.head.on [a]))
      (p.bind fun p => p.elim (.fault (.emptyResult "head")) fun p => .value p.1) := by
  refine tends_on_list ha rfl ?_
  simp only [builtinAnswer_head, pullAnswer_erase]
  exact h.bind fun _ _ => .const _

include ha in
theorem tends_tail {p : Answer (Option (Expr × LazyList))} (h : Tends (fun n => pullAnswer n l) p) :
    Tends (fun n => evalAnswer n env (Builtin.tail.on [a]))
      (p.bind fun p => p.elim (.fault (.emptyResult "tail")) fun _ =>
        .value (.list (.dropped 1 l.erase))) := by
  refine tends_on_list ha rfl ?_
  simp only [builtinAnswer_tail, pullAnswer_erase, LazyList.erase_erase]
  exact h.bind fun _ _ => .const _

include ha in
theorem tends_length {length : Answer Nat} (hl : l.isInfinite = false)
    (h : Tends (fun n => countAnswer n n l) length) :
    Tends (fun n => evalAnswer n env (Builtin.length.on [a]))
      (length.map fun length => .integer (int64OfLength length)) := by
  refine tends_on_list ha rfl ?_
  simp only [builtinAnswer_length _
    (l.isInfinite_erase.trans hl), ← countAnswer_alike _ _ l.alike_erase]
  exact h.map _

theorem tends_concat {f : Expr} {first : LazyList}
    (hf : Tends (fun n => evalAnswer n env f) (.value (.list first.erase)))
    (ha : Tends (fun n => evalAnswer n env a) (.value (.list l.erase))) :
    Tends (fun n => evalAnswer n env (.binary .concat f a))
      (.value (.list (first.concat l).erase)) := by
  have hconcat := tends_binary .concat (by decide) hf ha
  change Tends _ (.value (Expr.list (.concat first.erase.erase l.erase.erase))) at hconcat
  rwa [first.erase_erase, l.erase_erase] at hconcat

theorem tends_prepend {f v : Expr} (hf : Tends (fun n => evalAnswer n env f) (.value v.erase))
    (ha : Tends (fun n => evalAnswer n env a) (.value (.list l.erase))) :
    Tends (fun n => evalAnswer n env (.binary .prepend f a))
      (.value (.list (LazyList.prepend v l).erase)) := by
  have hprepend := tends_binary .prepend (by decide) hf ha
  change Tends _ (.value (Expr.list (.prepend v.erase.erase l.erase.erase))) at hprepend
  rwa [v.erase_erase, l.erase_erase] at hprepend

end Ends

/-! ## 3. The laws -/

/-- The parameter `xs` of a function. -/
def Expr.xs : Expr := .argument ⟨1, 0, "xs"⟩

/-- The environment of a function of `xs` that was given a list. -/
def Env.ofXs (l : LazyList) : Env := .frame 1 ["xs"] [.list l] .top

/-- The outcomes of `R` are those of `P` up to their end, and then those of `Q`. -/
def Followed (P Q R : Nat → Answer (Option Expr) → Prop) : Prop :=
  ∃ length, (∀ k < length, ∃ x, P k (.value (some x))) ∧ P length (.value none) ∧
    ∀ k a, R k a ↔ k < length ∧ P k a ∨ length ≤ k ∧ Q (k - length) a

/-- The laws of lists, for a list that an application has and a count.  The functions are given the
parameter `xs`, which is bound to the list itself: all of them see its cells. -/
structure ListLaws (H : Holding) (l : LazyList) (c : Expr) (n : Int) : Prop where
  /-- The traversals of the list give its outcomes. -/
  traverses : H.session.Traverses l l.Has
  /-- The first elements, as many as there are, if no fault is among the first outcomes. -/
  take : l.Clean n.toNat → H.session.Lists (.ofXs l) (Builtin.take.on [c, .xs]) (l.First n.toNat)
  take_fault : ∀ k < n.toNat, ∀ e, l.Has k (.fault e) →
    H.session.Comes (.ofXs l) (Builtin.take.on [c, .xs]) (.fault e)
  /-- Nothing else than a fault among the first outcomes makes it fail. -/
  take_fault_only : ∀ fuel e,
    (H.session.evalWithin fuel (.ofXs l) (Builtin.take.on [c, .xs])).1 = .error (.fault e) →
      Limited (H.session.evalWithin fuel (.ofXs l) (Builtin.take.on [c, .xs])).1 ∨
        ∃ k < n.toNat, l.Has k (.fault e.erase)
  /-- Where one of the first positions has no outcome, because looking for it never ends, this does
  not end either. -/
  take_endless : ∀ k < n.toNat, (∀ a, ¬ l.Has k a) →
    H.session.Comes (.ofXs l) (Builtin.take.on [c, .xs]) .unknown
  /-- What is behind the first positions plays no part. -/
  take_local : ∀ l', .list l' ∈ H.values → (∀ k < n.toNat, ∀ a, l.Has k a ↔ l'.Has k a) →
    ∃ o, H.session.Comes (.ofXs l) (Builtin.take.on [c, .xs]) o ∧
      H.session.Comes (.ofXs l') (Builtin.take.on [c, .xs]) o
  drop : H.session.Lists (.ofXs l) (Builtin.drop.on [c, .xs]) (l.Without n.toNat)
  drop_drop : ∀ c' m, Expr.Denotes c' m → InRange m →
    H.session.Lists (.ofXs l) (Builtin.drop.on [c, Builtin.drop.on [c', .xs]])
      (l.Without (n.toNat + m.toNat))
  /-- The outcomes that `take` gives and then those that `drop` gives are those of the list. -/
  split : l.Clean n.toNat → Followed (l.First n.toNat) (l.Without n.toNat) l.Has
  take_append_drop : l.Clean n.toNat →
    H.session.Lists (.ofXs l)
      (.binary .concat (Builtin.take.on [c, .xs]) (Builtin.drop.on [c, .xs])) l.Has
  head_prepend_tail : ∀ fuel v,
    (H.session.evalWithin fuel (.ofXs l) (Builtin.head.on [.xs])).1 = .ok v →
    H.session.Lists (.ofXs l)
      (.binary .prepend (Builtin.head.on [.xs]) (Builtin.tail.on [.xs])) l.Has
  head_empty : ∀ fuel f,
    (H.session.evalWithin fuel (.ofXs l) (Builtin.head.on [.xs])).1 =
      .error (.fault (.emptyResult f)) →
      ∃ g, H.session.Comes (.ofXs l) (Builtin.tail.on [.xs]) (.fault (.emptyResult g))
  tail_empty : ∀ fuel f,
    (H.session.evalWithin fuel (.ofXs l) (Builtin.tail.on [.xs])).1 =
      .error (.fault (.emptyResult f)) →
      ∃ g, H.session.Comes (.ofXs l) (Builtin.head.on [.xs]) (.fault (.emptyResult g))
  empty : l.Has 0 (.value none) →
    H.session.Comes (.ofXs l) (Builtin.head.on [.xs]) (.fault (.emptyResult "head")) ∧
      H.session.Comes (.ofXs l) (Builtin.tail.on [.xs]) (.fault (.emptyResult "tail"))
  length_take : l.isInfinite = false → ∀ length, l.HasLength length → ∃ whole first : Int64,
    H.session.Comes (.ofXs l) (Builtin.length.on [.xs]) (.value (.integer whole)) ∧
      H.session.Comes (.ofXs l) (Builtin.length.on [Builtin.take.on [c, .xs]])
        (.value (.integer first)) ∧
      whole = int64OfLength length ∧ first.toInt = min (max n 0) whole.toInt
  length_endless : l.isInfinite = false → (∀ k e, ¬ l.Has k (.fault e)) →
    (∀ length, ¬ l.HasLength length) → H.session.Comes (.ofXs l) (Builtin.length.on [.xs]) .unknown

/-! ## 4. Proofs of the laws -/

theorem tends_xs (l : LazyList) :
    Tends (fun n => evalAnswer n (.ofXs l) .xs) (.value (.list l.erase)) :=
  tends_argument (v := .list l) rfl

/-- The cells of the environment are those of the list. -/
theorem owns_ofXs {Γ : Ledger} {l : LazyList} (hl : ∀ c ∈ l.claims, Γ.Owns c) :
    ∀ c ∈ (Env.ofXs l).claims, Γ.Owns c := by
  simpa [Env.ofXs, Env.claims, claimsAll, Expr.claims] using hl

namespace LazyList

variable {l : LazyList} {count : Nat} {xs : List Expr}

/-- The first elements of a canonical list are values. -/
theorem Firsts.isValue {arities : Nat → Nat} (h : l.Firsts count (.value xs))
    (hl : CanonicalList arities l) :
    ∀ x ∈ xs, x.isValue = true := by
  intro x hx
  obtain ⟨k, hk⟩ := List.mem_iff_getElem?.mp hx
  exact hl.has_isValue (h.2.1 k x hk)

/-- The first elements and then the others, as two sequences of outcomes. -/
theorem Firsts.followed {arities : Nat → Nat} (h : l.Firsts count (.value xs))
    (hl : CanonicalList arities l) : Followed (l.First count) (l.Without count) l.Has := by
  have hvalues := h.isValue hl
  have hlength := hasLength_values hvalues none
  refine ⟨xs.length, fun k hk => ?_, (has_firsts h hvalues none _ _).mp hlength.2, fun k a => ?_⟩
  · obtain ⟨x, hx⟩ := hlength.1 k hk
    exact ⟨x, (has_firsts h hvalues none _ _).mp hx⟩
  · rw [← has_firsts_dropped h hvalues none, has_concat hlength, has_firsts h hvalues, has_dropped]

end LazyList

section Proofs

variable {s : Session} {Γ : Ledger} {l : LazyList} {x : Number} {i : Int64} {arities : Nat → Nat}

/-- The list of the first elements, as a list without cells. -/
theorem tends_take_list {xs : List Expr} (hx : (Expr.number x).asInteger = .ok i)
    (h : l.Firsts (countOfInt64 i) (.value xs)) :
    Tends (fun n => evalAnswer n (.ofXs l) (Builtin.take.on [.number x, .xs]))
      (.value (.list (LazyList.items xs .top none).erase)) := by
  rw [h.erased]
  exact tends_take hx (tends_xs l) h

variable (hs : s.Fits Γ) (hl : ∀ c ∈ l.claims, Γ.Owns c)
include hs hl

section Counted

variable (hx : (Expr.number x).asInteger = .ok i)
include hx

theorem comes_take {o : Answer (List Expr)} (h : l.Firsts (countOfInt64 i) o) :
    s.Comes (.ofXs l) (Builtin.take.on [.number x, .xs])
      (o.map fun xs => .list (.items xs .top none)) :=
  hs.comes (owns_ofXs hl) nofun (tends_take hx (tends_xs l) h)

theorem lists_take (hcanonical : CanonicalList arities l) {xs : List Expr}
    (h : l.Firsts (countOfInt64 i) (.value xs)) :
    s.Lists (.ofXs l) (Builtin.take.on [.number x, .xs]) (l.First (countOfInt64 i)) :=
  hs.lists (owns_ofXs hl) nofun (tends_take_list hx h)
    (LazyList.has_firsts h (h.isValue hcanonical) none)

theorem lists_drop : s.Lists (.ofXs l) (Builtin.drop.on [.number x, .xs])
    (l.Without (countOfInt64 i)) :=
  hs.lists (l := .dropped (countOfInt64 i) l) (owns_ofXs hl) nofun (tends_drop hx (tends_xs l))
    (l.has_dropped _)

theorem lists_drop_drop {y : Number} {j : Int64} (hy : (Expr.number y).asInteger = .ok j) :
    s.Lists (.ofXs l) (Builtin.drop.on [.number x, Builtin.drop.on [.number y, .xs]])
      (l.Without (countOfInt64 i + countOfInt64 j)) := by
  have hinner : Tends (fun n => evalAnswer n (.ofXs l) (Builtin.drop.on [.number y, .xs]))
      (.value (.list (LazyList.dropped (countOfInt64 j) l).erase)) := tends_drop hy (tends_xs l)
  rw [Nat.add_comm]
  exact hs.lists (l := .dropped (countOfInt64 i) (.dropped (countOfInt64 j) l))
    (owns_ofXs hl) nofun (tends_drop hx hinner)
    (l.has_dropped_dropped _ _)

theorem lists_take_append_drop (hcanonical : CanonicalList arities l) {xs : List Expr}
    (h : l.Firsts (countOfInt64 i) (.value xs)) :
    s.Lists (.ofXs l)
      (.binary .concat (Builtin.take.on [.number x, .xs]) (Builtin.drop.on [.number x, .xs]))
      l.Has := by
  have hdrop : Tends (fun n => evalAnswer n (.ofXs l) (Builtin.drop.on [.number x, .xs]))
      (.value (.list (LazyList.dropped (countOfInt64 i) l).erase)) := tends_drop hx (tends_xs l)
  exact hs.lists (owns_ofXs hl) nofun (tends_concat (tends_take_list hx h) hdrop)
    (LazyList.has_firsts_dropped h (h.isValue hcanonical) none)

/-- The length of a list, and that of its first elements. -/
theorem comes_length_take (hcanonical : CanonicalList arities l) (hinfinite : l.isInfinite = false)
    {length : Nat} (hlength : l.HasLength length) :
    s.Comes (.ofXs l) (Builtin.length.on [.xs]) (.value (.integer (int64OfLength length))) ∧
      s.Comes (.ofXs l) (Builtin.length.on [Builtin.take.on [.number x, .xs]])
        (.value (.integer (int64OfLength (min (countOfInt64 i) length)))) := by
  obtain ⟨o, ho⟩ := l.exists_firsts (countOfInt64 i)
  obtain ⟨xs, rfl⟩ := ho.of_clean (hlength.clean _)
  have hfirst := LazyList.hasLength_values (ho.isValue hcanonical) none
  rw [ho.length hlength] at hfirst
  constructor
  · exact hs.comes (owns_ofXs hl) nofun
      (tends_length (tends_xs l) hinfinite (tends_counted hlength))
  · exact hs.comes (owns_ofXs hl) nofun
      (tends_length (tends_take_list hx ho) rfl (tends_counted hfirst))

end Counted

section First

variable {p : Answer (Option (Expr × LazyList))} (hp : Tends (fun n => pullAnswer n l) p)
include hp

theorem comes_head : s.Comes (.ofXs l) (Builtin.head.on [.xs])
    (p.bind fun p => p.elim (.fault (.emptyResult "head")) fun p => .value p.1) :=
  hs.comes (owns_ofXs hl) nofun (tends_head (tends_xs l) hp)

theorem comes_tail : s.Comes (.ofXs l) (Builtin.tail.on [.xs])
    (p.bind fun p =>
      p.elim (.fault (.emptyResult "tail")) fun _ => .value (.list (.dropped 1 l.erase))) :=
  hs.comes (owns_ofXs hl) nofun (tends_tail (tends_xs l) hp)

end First

omit hs hl in
/-- Of two evaluations that need a first element, both fail where there is none, or neither does. -/
theorem empty_of_empty {env : Env} {e e' : Expr} {p : Answer (Option (Expr × LazyList))}
    {f f' : String} {v v' : Expr × LazyList → Expr}
    (he : s.Comes env e (p.bind fun p => p.elim (.fault (.emptyResult f)) fun q => .value (v q)))
    (he' : s.Comes env e'
      (p.bind fun p => p.elim (.fault (.emptyResult f')) fun q => .value (v' q)))
    {fuel : Nat} {g : String}
    (hg : (s.evalWithin fuel env e).1 = .error (.fault (.emptyResult g))) :
    ∃ g', s.Comes env e' (.fault (.emptyResult g')) := by
  rcases he.of_fault hg with ⟨limit, hlimited⟩ | hfault
  · cases hg.symm.trans hlimited
  · rcases p with (_ | q) | e | _
    · exact ⟨f', he'⟩
    · cases hfault
    · cases hfault
      exact ⟨g, he'⟩
    · cases hfault

/-- The first element in front of the others is the list. -/
theorem lists_head_prepend_tail {v : Expr} (h : l.Has 0 (.value (some v))) :
    s.Lists (.ofXs l) (.binary .prepend (Builtin.head.on [.xs]) (Builtin.tail.on [.xs])) l.Has := by
  obtain ⟨rest, hpull, -⟩ := LazyList.tends_pull_some h
  have hhead : Tends (fun n => evalAnswer n (.ofXs l) (Builtin.head.on [.xs]))
    (.value v.erase) := by
    rw [h.erased]
    exact tends_head (tends_xs l) hpull
  have htail : Tends (fun n => evalAnswer n (.ofXs l) (Builtin.tail.on [.xs]))
      (.value (.list (LazyList.dropped 1 l).erase)) := tends_tail (tends_xs l) hpull
  exact hs.lists (owns_ofXs hl) nofun (tends_prepend hhead htail) (LazyList.has_prepend_dropped h)

end Proofs

/-- **The laws of lists hold of every list and every count.** Whatever an application has done, and
whichever list it has: for every integer that it gives as an integer or as a decimal, `take`,
`drop`, `head`, `tail` and `length` go together as `ListLaws` says.  A decimal that is an integer
beyond the 64-bit ones is refused by `take` and `drop`. -/
theorem list_laws {H : Holding} (h : Reached H) {l : LazyList} (hl : .list l ∈ H.values)
    {c : Expr} {n : Int} (hc : c.Denotes n) :
    (InRange n → ListLaws H l c n) ∧
      (¬ InRange n → ∀ b ∈ [Builtin.take, Builtin.drop],
        H.session.Comes (.ofXs l) (b.on [c, .xs]) (.fault (.invalidCast c .integer))) := by
  obtain ⟨Γ, hsound⟩ := sound_of_reached h
  have hs := hsound.session
  have howns := hsound.values _ hl
  have hcanonical : CanonicalList (fun _ => 0) l := (h.canonical.values _ hl).toList
  obtain ⟨x, rfl⟩ := hc.eq_number
  constructor
  · intro hn
    obtain ⟨i, hx, rfl⟩ := hc.ok hn
    obtain ⟨o, ho⟩ := l.exists_firsts (countOfInt64 i)
    obtain ⟨p, hp⟩ := Tends.exists_of_more fun hle => pullAnswer_more hle l
    have htake := comes_take hs howns hx ho
    have hhead := comes_head hs howns hp
    have htail := comes_tail hs howns hp
    exact {
      traverses := hs.traverses howns
      take := fun hclean => by
        obtain ⟨xs, rfl⟩ := ho.of_clean hclean
        exact lists_take hs howns hx hcanonical ho
      take_fault := fun k hk e he => comes_take (o := .fault e) hs howns hx ⟨k, hk, he⟩
      take_fault_only := fun fuel e he => by
        refine (htake.of_fault he).imp_right fun hfault => ?_
        rcases o with xs | e' | _
        · cases hfault
        · cases hfault
          exact ho
        · cases hfault
      take_endless := fun k hk hnone => comes_take (o := .unknown) hs howns hx ⟨k, hk, hnone⟩
      take_local := fun l' hl' hsame =>
        ⟨_, htake, comes_take hs (hsound.values _ hl') hx (ho.congr hsame)⟩
      drop := lists_drop hs howns hx
      drop_drop := fun c' m hc' hm => by
        obtain ⟨y, rfl⟩ := hc'.eq_number
        obtain ⟨j, hy, rfl⟩ := hc'.ok hm
        exact lists_drop_drop hs howns hx hy
      split := fun hclean => by
        obtain ⟨xs, rfl⟩ := ho.of_clean hclean
        exact ho.followed hcanonical
      take_append_drop := fun hclean => by
        obtain ⟨xs, rfl⟩ := ho.of_clean hclean
        exact lists_take_append_drop hs howns hx hcanonical ho
      head_prepend_tail := fun fuel v hv => by
        have hvalue := hhead.of_ok hv
        rcases p with (_ | ⟨y, rest⟩) | e | _
        · cases hvalue
        · exact lists_head_prepend_tail hs howns (LazyList.has_of_tends hp)
        · cases hvalue
        · cases hvalue
      head_empty := fun fuel f hf => empty_of_empty hhead htail hf
      tail_empty := fun fuel f hf => empty_of_empty htail hhead hf
      empty := fun hempty => by
        have hpull := LazyList.tends_pull_none hempty
        exact ⟨comes_head hs howns hpull, comes_tail hs howns hpull⟩
      length_take := fun hinfinite length hlength => by
        obtain ⟨hwhole, hfirst⟩ := comes_length_take hs howns hx hcanonical hinfinite hlength
        exact ⟨_, _, hwhole, hfirst, rfl, int64OfLength_min hn length⟩
      length_endless := fun hinfinite hfault hlength =>
        hs.comes (owns_ofXs howns) nofun
          (tends_length (tends_xs l) hinfinite (tends_counted_unknown hfault hlength)) }
  · intro hn b hb
    have hb : b = .take ∨ b = .drop := by simpa using hb
    refine hs.comes (owns_ofXs howns) ?_ (tends_on_number_list (tends_xs l) ?_ ?_)
    · rcases hb with rfl | rfl <;> exact nofun
    · rcases hb with rfl | rfl <;> rfl
    · simp only [builtinAnswer_refused hb (hc.error hn)]
      exact .const _

/-- A list with a fault behind its first element, and a whole decimal: two elements cannot be
taken. -/
theorem list_laws_division :
    let list : LazyList := .items [.integer 1, .binary .div (.integer 1) (.integer 0)] .top (some 0)
    let two : Decimal := ⟨false, 20, 1, by decide, by decide⟩
    ∃ H, Reached H ∧ .list list ∈ H.values ∧ (Expr.decimal two).Denotes 2 ∧ InRange 2 ∧
      ListLaws H list (.decimal two) 2 ∧ list.Has 1 (.fault .divisionByZero) ∧
      H.session.Comes (.ofXs list) (Builtin.take.on [.decimal two, .xs])
        (.fault .divisionByZero) := by
  intro list two
  have hparse : parse "[1, 1 / 0]" =
      .ok (.literal [.integer 1, .binary .div (.integer 1) (.integer 0)]) := by cbv
  have hreached := Reached.ask .fresh (.program 3 hparse)
  have htwo : (Expr.decimal two).Denotes 2 := .inr ⟨two, rfl, rfl⟩
  have hrange : InRange 2 := by decide
  have hlaws := (list_laws hreached (l := list) List.mem_cons_self htwo).1 hrange
  have hfault : list.Has 1 (.fault .divisionByZero) := ⟨Answer.fault_ne_unknown, 3, rfl⟩
  exact ⟨_, hreached, List.mem_cons_self, htwo, hrange, hlaws, hfault,
    hlaws.take_fault 1 (by decide) _ hfault⟩

set_option maxRecDepth 1000 in
/-- A whole decimal beyond the integers is no count: `take` fails, although the list has no
fault. -/
theorem take_beyond_integers :
    let list : LazyList := .items [.integer 1] .top none
    let count : Decimal := ⟨false, 92233720368547758080, 1, by decide, by decide⟩
    let e := Builtin.take.on [.decimal count, .list list]
    parse "take 9223372036854775808.0 [1]" = .ok e ∧ (Expr.decimal count).Denotes (2 ^ 63) ∧
      (∀ k f, ¬ list.Has k (.fault f)) ∧
      (Session.fresh.evalWithin 9 .top e).1 =
        .error (.fault (.invalidCast (.decimal count) .integer)) := by
  refine ⟨by cbv, .inr ⟨_, rfl, by decide⟩, fun k f hf => ?_, by cbv⟩
  rw [LazyList.has_values (by simp [Expr.isValue, Expr.integer])] at hf
  cases hf

end LazyExpr
