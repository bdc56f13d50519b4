import LazyExpr.Proofs.List.Finite
import LazyExpr.Proofs.List.Sums

/-!
# Loops over finite lists

`sum`, `length`, `join` and the functions that write a value go through a whole list, and all that
they ask beforehand is whether the list says that it is finite.  A traversal of such a list, and
each of these loops, does come to an end, whatever an application has done before: unless a range of
decimals in the list comes to a standstill, and as far as elements, functions and predicates give
answers.  A fault that a loop ends with has a message that can be written; so where a loop refuses a
value, it is asked that the value has a text.

The loops are followed on the evaluator without a memory.  An evaluation *finishes* there if it
comes to an end on every machine, and a loop does if its list ends at some position and each of its
rounds finishes.  An evaluation with a memory gets as far as the one without.

* `Finishes` and `finishes_foldItems`: evaluations and loops that come to an end.
* `Expr.Calm`: the lists in a value are gone through without a standstill, at every depth.
* `Session.Ends`: an evaluation of a session comes to an end.
* `finite_list_ends`: **a list that says it is finite is gone through in finitely many steps**, or
  one of its ranges of decimals comes to a standstill.
-/

namespace LazyExpr

open Eval

/-! ## 1. Evaluations that come to an end -/

/-- On every plain machine the evaluation comes to an end: with such a value, and the machine plain
again, or with a fault and its message. -/
def Finishes {α : Type} (P : α → Prop) (x : Eval Unit α) : Prop :=
  ∀ m, m.Plain → (∃ a m', x m = .ok a m' ∧ m'.Plain ∧ P a) ∨
    ∃ e m', x m = .error (.fault e) m' ∧ e.HasText

namespace Finishes

variable {α β γ : Type} {P : α → Prop} {Q : β → Prop}

theorem pure {a : α} (h : P a) : Finishes P (pure a) := fun m hm => .inl ⟨a, m, rfl, hm, h⟩

theorem fail {e : Fault} (h : e.HasText) : Finishes P (Eval.fail e) :=
  fun m _ => .inr ⟨e, m, rfl, h⟩

theorem lift {a : Except Fault α} (h : ∀ v, a = .ok v → P v)
    (htext : ∀ e, a = .error e → e.HasText) :
    Finishes P (Eval.lift a) := by
  cases a with
  | ok v => exact pure (h v rfl)
  | error e => exact fail (htext e rfl)

theorem check : Finishes (fun _ => True) Eval.check :=
  fun m hm => .inl ⟨(), m, check_plain hm, hm, trivial⟩

theorem newList (xs : List Expr) (env : Env) : Finishes (fun _ => True) (Eval.newList xs env) :=
  fun _ hm => .inl ⟨_, _, rfl, hm, trivial⟩

theorem bind {x : Eval Unit α} {f : α → Eval Unit β} (hx : Finishes P x)
    (hf : ∀ a, P a → Finishes Q (f a)) : Finishes Q (x >>= f) := by
  intro m hm
  rw [bind_run]
  rcases hx m hm with ⟨a, m', hrun, hm', ha⟩ | ⟨e, m', hrun, htext⟩
  · rw [hrun]
    exact hf a ha m' hm'
  · rw [hrun]
    exact .inr ⟨e, m', rfl, htext⟩

/-- An evaluation that does not depend on the machine finishes, if its answer is known and can be
told. -/
theorem of_answer {R : α → α → Prop} {x : Eval Unit α} {keep : α → γ} {b : Answer γ}
    (hmirror : MirroredBy R x x) (hanswer : ∀ m, m.Plain → Answer.ofRun keep (x m) = b)
    (hb : b.Returns) : Finishes (fun a => b = .value (keep a)) x := by
  intro m hm
  have hself := hmirror m m hm hm
  have hrun := hanswer m hm
  generalize x m = r at hself hrun ⊢
  cases hself with
  | ok hm' => exact .inl ⟨_, _, rfl, hm', hrun.symm⟩
  | fault =>
    subst hrun
    exact .inr ⟨_, _, rfl, Fault.hasText_erase.mp hb⟩
  | unknown => exact absurd hrun.symm hb.ne_unknown

/-- What is mirrored by an evaluation that finishes does so itself. -/
theorem mirrored {R : α → β → Prop} {x : Eval Unit α} {y : Eval Unit β} (hmirror : MirroredBy R x y)
    (h : Finishes Q y) : Finishes (fun _ => True) x := by
  intro m hm
  have hxy := hmirror m m hm hm
  have hy := h m hm
  generalize x m = r at hxy ⊢
  generalize y m = r' at hxy hy
  cases hxy with
  | ok hm' => exact .inl ⟨_, _, rfl, hm', trivial⟩
  | fault _ _ herase =>
    rcases hy with ⟨_, _, hend, -, -⟩ | ⟨_, _, hend, htext⟩
    · cases hend
    · cases hend
      exact .inr ⟨_, _, rfl, htext.of_erase herase.symm⟩
  | unknown =>
    rcases hy with ⟨_, _, hend, -, -⟩ | ⟨_, _, hend, -⟩
    · cases hend
    · cases hend

/-- The answer of an evaluation that finishes is known and can be told. -/
theorem answer_returns {x : Eval Unit α} (h : Finishes P x) (keep : α → γ) {m : Machine Unit}
    (hm : m.Plain) : (Answer.ofRun keep (x m)).Returns := by
  rcases h m hm with ⟨a, m', hrun, -, -⟩ | ⟨e, m', hrun, htext⟩
  · rw [hrun]
    trivial
  · rw [hrun]
    exact Fault.hasText_erase.mpr htext

end Finishes

/-- From some fuel on the evaluation comes to an end. -/
def Concludes {α : Type} (x : Nat → Eval Unit α) : Prop :=
  ∃ n₀, ∀ n, n₀ ≤ n → Finishes (fun _ => True) (x n)

/-- The first fuels do not matter. -/
theorem Concludes.of_shift {α : Type} {x : Nat → Eval Unit α} (k : Nat)
    (h : Concludes fun n => x (n + k)) : Concludes x := by
  obtain ⟨n₀, hn₀⟩ := h
  refine ⟨n₀ + k, fun n hn => ?_⟩
  obtain ⟨n, rfl⟩ : ∃ i, n = i + k := ⟨n - k, by omega⟩
  exact hn₀ n (by omega)

/-- Where the answer is known and can be told, a pull finishes. -/
theorem finishes_pull {n : Nat} {l l' : LazyList} (halike : l'.Alike l)
    (h : (pullAnswer n l).Returns) :
    Finishes (fun p => pullAnswer n l = .value (erasePulled p)) (pull .cacheFree n l') :=
  .of_answer (mirror_pull n rfl) (fun _ hm => pullAnswer_eq hm halike) h

/-! ## 2. Loops -/

section Loops

variable {β : Type} {f : Nat → β → Expr → Eval Unit β}

/-- Each round of the loop finishes, from some fuel on that depends on the element. -/
def FinishesOn (f : Nat → β → Expr → Eval Unit β) (l : LazyList) : Prop :=
  ∀ j x, l.Has j (.value (some x)) → ∃ n₀, ∀ n, n₀ ≤ n → ∀ acc y, Expr.Alike y x →
    Finishes (fun _ => True) (f n acc y)

/-- One round of a loop, by the answer of the pull. -/
theorem finishes_round {n rounds : Nat} {l l' : LazyList} (halike : l'.Alike l)
    (hpull : (pullAnswer n l).Returns)
    (hrest : ∀ x rest, pullAnswer n l = .value (some (x, rest)) → ∀ y rest', Expr.Alike y x →
      rest'.Alike rest → ∀ acc, Finishes (fun _ => True)
        (f n acc y >>= fun acc => foldItems (advance .cacheFree n) (f n) rounds acc rest')) (acc :
        β) :
    Finishes (fun _ => True) (foldItems (advance .cacheFree n) (f n) (rounds + 1) acc l') := by
  rw [foldItems_succ]
  refine .bind .check fun _ _ => .bind (finishes_pull halike hpull) fun p hp => ?_
  rcases p with _ | ⟨y, rest'⟩
  · exact .pure trivial
  · exact hrest _ _ hp y rest' y.alike_erase rest'.alike_erase acc

/-- **A loop over a list that ends comes to an end**, if each of its rounds does. -/
theorem finishes_foldItems {k : Nat} {l : LazyList} (h : l.Has k (.value none)) (htells : l.Tells)
    (hf : FinishesOn f l) :
    ∃ n₀, ∀ n, n₀ ≤ n → ∀ rounds, k < rounds → ∀ acc l', LazyList.Alike l' l →
      Finishes (fun _ => True) (foldItems (advance .cacheFree n) (f n) rounds acc l') := by
  -- where the first pull gives no element, one round is enough
  have hfirst : ∀ {l : LazyList} {k} {p : Answer (Option (Expr × LazyList))},
      Tends (fun n => pullAnswer n l) p → p.Returns → (∀ q, p ≠ .value (some q)) →
      ∃ n₀, ∀ n, n₀ ≤ n → ∀ rounds, k < rounds → ∀ acc l', LazyList.Alike l' l →
        Finishes (fun _ => True) (foldItems (advance .cacheFree n) (f n) rounds acc l') := by
    rintro l k p ⟨-, n₀, hpull⟩ hknown hnone
    refine ⟨n₀, fun n hn rounds hrounds acc l' halike => ?_⟩
    obtain ⟨rounds, rfl⟩ : ∃ i, rounds = i + 1 := ⟨rounds - 1, by omega⟩
    have hp : pullAnswer n l = p := hpull n hn
    exact finishes_round halike (hp ▸ hknown)
      (fun x rest hx => absurd (hp.symm.trans hx) (hnone _)) acc
  induction k generalizing l with
  | zero => exact hfirst (LazyList.tends_pull_none h) trivial nofun
  | succ k ih =>
    obtain ⟨b, hb⟩ := h.before (Nat.zero_le (k + 1))
    rcases LazyList.tends_pull hb with ⟨-, hpull⟩ | ⟨e, rfl, hpull⟩
      | ⟨x, rest, rfl, ⟨-, n₀, hpull⟩, hrest⟩
    · exact hfirst hpull trivial nofun
    · exact hfirst hpull (htells 0 e hb) nofun
    · obtain ⟨n₁, hround⟩ := hf 0 x hb
      obtain ⟨n₂, hloop⟩ :=
        ih ((hrest k _).mpr h) (fun j e he => htells (j + 1) e ((hrest j _).mp he))
        fun j y hy => hf (j + 1) y ((hrest j _).mp hy)
      refine ⟨max n₀ (max n₁ n₂), fun n hn rounds hrounds acc l' halike => ?_⟩
      obtain ⟨rounds, rfl⟩ : ∃ i, rounds = i + 1 := ⟨rounds - 1, by omega⟩
      have hp : pullAnswer n l = .value (some (x, rest)) := hpull n (by omega)
      refine finishes_round halike (hp ▸ trivial) ?_ acc
      rintro _ _ hx y rest' hy hrest' acc
      cases hp.symm.trans hx
      exact .bind (hround n (by omega) acc y hy) fun acc _ =>
        hloop n (by omega) rounds (by omega) acc rest' hrest'

/-- The loop with as many rounds as there is fuel. -/
theorem finishes_loop {l : LazyList} (h : l.Finite ∧ l.Tells) (hf : FinishesOn f l) (acc : β) :
    ∃ n₀, ∀ n, n₀ ≤ n → ∀ l', LazyList.Alike l' l →
      Finishes (fun _ => True) (foldItems (advance .cacheFree n) (f n) n acc l') := by
  obtain ⟨⟨k, hk⟩, htells⟩ := h
  obtain ⟨n₀, hloop⟩ := finishes_foldItems hk htells hf
  exact ⟨max n₀ (k + 1), fun n hn l' => hloop n (by omega) n (by omega) acc l'⟩

end Loops

/-! ## 3. Values that can be materialized and written -/

/-- What materializing a value gives. -/
def materializeAnswer (n : Nat) (e : Expr) : Answer Expr :=
  .ofRun Expr.erase (materialize .cacheFree n e (.fresh ()))

theorem mirror_materialize (n : Nat) {e e' : Expr} (h : e.Alike e') :
    MirroredBy Expr.Alike (materialize .cacheFree n e) (materialize .cacheFree n e') := by
  intro m m' hm hm'
  have hvalue := (Bond.mirror.sound n (fun _ => n) fun _ => rfl).materialize (w := ())
    (Tenure.free_value h)
  exact (hvalue m m' hm hm').imp fun _ _ hv => hv.1

theorem materializeAnswer_eq {n : Nat} {e e' : Expr} {m : Machine Unit} (hm : m.Plain)
    (h : e.Alike e') :
    Answer.ofRun Expr.erase (materialize .cacheFree n e m) = materializeAnswer n e' :=
  (mirror_materialize n h m _ hm (Machine.fresh_plain ())).answer_eq

theorem materializeAnswer_more {n n' : Nat} (h : n ≤ n') (e : Expr) :
    (materializeAnswer n e).Below (materializeAnswer n' e) :=
  answer_below (materialize_more _ (Setting.builtins_steady _ _ _) h _)

/-- The lists in the value that say they are finite are gone through without a standstill, and so
are those among their elements. -/
inductive Expr.Calm : Expr → Prop where
  | other {e : Expr} (h : ∀ l, e = .list l → l.isInfinite = true) : Calm e
  | list {l : LazyList} (hreturns : l.Returns) (hmoves : ¬ l.Stalls)
    (helements : ∀ k x, l.Has k (.value (some x)) → Calm x) : Calm (.list l)

/-- If materializing the value gives a value, then that one has a text. -/
def Expr.Printable (e : Expr) : Prop :=
  ∀ n v, materializeAnswer n e = .value v → ∃ n', (v.display? n').isSome = true

/-- One value that materializing gives is the only one. -/
theorem Expr.printable_of_eq {e v : Expr} {n k : Nat} (h : materializeAnswer n e = .value v)
    (hv : (v.display? k).isSome = true) : e.Printable := by
  intro n' u hu
  have hleft := (materializeAnswer_more (Nat.le_max_left n n') e).eq (h ▸ Answer.value_ne_unknown)
  have hright := (materializeAnswer_more (Nat.le_max_right n n') e).eq
    (hu ▸ Answer.value_ne_unknown)
  rw [h] at hleft
  rw [hu, hleft] at hright
  cases hright
  exact ⟨k, hv⟩

/-- The elements of a range are numbers. -/
theorem Progression.eq_number_of_get {p : Progression} {n k j : Nat} {x : Expr}
    (h : (p.trace n k).get j = .value (some x)) : ∃ i, x = .number i := by
  induction n generalizing k j with
  | zero => cases h
  | succ n ih =>
    rw [trace] at h
    cases hterm : p.term? k with
    | none =>
      rw [hterm] at h
      cases h
    | some i =>
      simp only [hterm] at h
      split at h
      · cases h
      · cases j with
        | zero =>
          cases h
          exact ⟨i, rfl⟩
        | succ j => exact ih h

/-- A range that comes to no standstill is calm. -/
theorem Expr.calm_progression {p : Progression} (h : ¬ p.Stalls) :
    (Expr.list (.progression p)).Calm := by
  refine .list trivial h fun k x hx => .other ?_
  obtain ⟨-, n, hget⟩ := hx
  obtain ⟨i, rfl⟩ := Progression.eq_number_of_get hget
  exact nofun

/-- What is not a list that says it is finite is materialized as it is. -/
theorem materialize_done (n : Nat) {e : Expr} (h : ∀ l, e = .list l → l.isInfinite = true) :
    materialize .cacheFree (n + 1) e = pure e := by
  cases e with
  | list l => simp only [materialize, h l rfl, if_true]
  | _ => rfl

theorem materialize_list (n : Nat) {l : LazyList} (h : l.isInfinite = false) :
    materialize .cacheFree (n + 1) (.list l) = (do
      let elements ← foldItems (advance .cacheFree n)
        (fun elements x => do pure ((← materialize .cacheFree n x) :: elements)) n [] l
      newList elements.reverse .top) := by
  simp only [materialize, h, Bool.false_eq_true, if_false]

/-- A list that ends is materialized, if its elements are. -/
theorem concludes_materialize_list {l : LazyList} (hl : l.isInfinite = false)
    (hend : l.Finite ∧ l.Tells)
    (helements : ∀ k x, l.Has k (.value (some x)) → Concludes fun n => materialize .cacheFree n x) :
    Concludes fun n => materialize .cacheFree n (.list l) := by
  have hround : FinishesOn
    (fun n elements x => do pure ((← materialize .cacheFree n x) :: elements)) l := by
    intro j x hx
    obtain ⟨n₀, hn₀⟩ := helements j x hx
    refine ⟨n₀, fun n hn acc y hy =>
      .bind ((hn₀ n hn).mirrored (mirror_materialize n hy)) fun _ _ => ?_⟩
    exact .pure trivial
  obtain ⟨n₀, hloop⟩ := finishes_loop hend hround []
  refine .of_shift 1 ⟨n₀, fun n hn => ?_⟩
  show Finishes _ (materialize .cacheFree (n + 1) (.list l))
  rw [materialize_list n hl]
  exact .bind (hloop n hn l rfl) fun _ _ => .newList _ _

/-- **A calm value is materialized.** -/
theorem Expr.Calm.concludes {e : Expr} (h : e.Calm) : Concludes fun n =>
    materialize .cacheFree n e := by
  have hdone : ∀ {e : Expr}, (∀ l, e = .list l → l.isInfinite = true) →
      Concludes fun n => materialize .cacheFree n e := fun h =>
    .of_shift 1 ⟨0, fun n _ => by
      show Finishes _ (materialize .cacheFree (n + 1) _)
      rw [materialize_done n h]
      exact .pure trivial⟩
  -- the induction is on the lists in the value
  induction h with
  | other h => exact hdone h
  | @list l hreturns hmoves _ ih =>
    cases hl : l.isInfinite with
    | true =>
      refine hdone ?_
      rintro _ ⟨⟩
      exact hl
    | false =>
      have hfinite := (LazyList.finite_or_stalls hl hreturns).resolve_left hmoves
      exact concludes_materialize_list hl hfinite ih

/-- **A calm value with a text is written.** -/
theorem Expr.Calm.concludes_render {e : Expr} (h : e.Calm) (htext : e.Printable) :
    Concludes fun n => render .cacheFree n e := by
  obtain ⟨n₀, hn₀⟩ := h.concludes
  -- what a materialization gives is the answer
  have hmaterialize : ∀ n, n₀ ≤ n →
      Finishes (fun v => materializeAnswer n e = .value v.erase) (materialize .cacheFree n e) :=
        fun n hn =>
    .of_answer (mirror_materialize n rfl) (fun _ hm => materializeAnswer_eq hm rfl)
      ((hn₀ n hn).answer_returns _ (Machine.fresh_plain ()))
  by_cases hvalue : ∃ n v, materializeAnswer n e = .value v
  · obtain ⟨k, v, hv⟩ := hvalue
    obtain ⟨n', hdisplay⟩ := htext k v hv
    obtain ⟨text, htext⟩ := Option.isSome_iff_exists.mp hdisplay
    refine ⟨max n₀ (max k n'), fun n hn => .bind (hmaterialize n (by omega)) fun u hu => ?_⟩
    -- the value that there is in the end is the one that has the text
    have hsame := (materializeAnswer_more (show k ≤ n by omega) e).eq (hv ▸ Answer.value_ne_unknown)
    obtain rfl : u.erase = v := Answer.value.inj (hu.symm.trans (hsame.trans hv))
    show Finishes _ (fueled (u.display? n))
    rw [display_alike u.alike_erase n, display_mono (show n' ≤ n by omega) u.erase text htext]
    exact .pure trivial
  · exact ⟨n₀, fun n hn => .bind (hmaterialize n hn) fun u hu => absurd ⟨n, _, hu⟩ hvalue⟩

/-- The text that it has inside other text. -/
theorem Expr.Calm.concludes_displayText {e : Expr} (h : e.Calm) (htext : e.Printable) :
    Concludes fun n => displayText .cacheFree n e := by
  obtain ⟨n₀, hn₀⟩ := h.concludes_render htext
  refine .of_shift 1 ⟨n₀, fun n hn => ?_⟩
  cases e with
  | str | null => exact .pure trivial
  | _ => exact hn₀ n hn

theorem mirror_displayText (n : Nat) {e e' : Expr} (h : e.Alike e') :
    MirroredBy (· = ·) (displayText .cacheFree n e) (displayText .cacheFree n e') :=
  (Bond.mirror.sound n (fun _ => n) fun _ => rfl).displayText (w := ()) (Tenure.free_value h)

/-! ## 4. The functions that go through a list -/

/-- `length`, as a value. -/
def Expr.length : Expr := .function Builtin.length.toFunction

/-- `join`, with its separator. -/
def Expr.joinWith (separator : String) : Expr :=
  .applied (.function Builtin.join.toFunction) [.str separator]

section Functions

variable {l : LazyList} (hl : l.isInfinite = false)

include hl

theorem apply_length {σ : Type} (S : Setting σ) (n : Nat) :
    apply S (n + 4) .length (.list l) = (do
      let length ← foldItems (advance S n) (fun length _ => pure (length + 1)) n 0 l
      pure (.integer (int64OfLength length))) := by
  show (lift (if l.isInfinite then _ else _) >>= _) = _
  rw [hl]
  rfl

theorem apply_joinWith {σ : Type} (S : Setting σ) (n : Nat) (separator : String) :
    apply S (n + 4) (.joinWith separator) (.list l) = (do
      let parts ← foldItems (advance S n)
        (fun parts x => do pure ((← displayText S n x) :: parts)) n [] l
      pure (.str (separator.intercalate parts.reverse))) := by
  show (lift (if l.isInfinite then _ else _) >>= _) = _
  rw [hl]
  rfl

omit hl in
/-- What goes through the whole list with a loop. -/
theorem concludes_apply (hend : l.Finite ∧ l.Tells) {β : Type} {f : Nat → β → Expr → Eval Unit β}
    {acc : β} {g : Expr} {last : β → Expr} (hf : FinishesOn f l)
    (happly : ∀ n, apply .cacheFree (n + 4) g (.list l) =
      foldItems (advance .cacheFree n) (f n) n acc l >>= fun acc => pure (last acc)) :
    Concludes fun n => apply .cacheFree n g (.list l) := by
  obtain ⟨n₀, hloop⟩ := finishes_loop hend hf acc
  refine .of_shift 4 ⟨n₀, fun n hn => ?_⟩
  show Finishes _ (apply .cacheFree (n + 4) g (.list l))
  rw [happly n]
  exact .bind (hloop n hn l rfl) fun _ _ => .pure trivial

omit hl in
/-- A value that is no number, and has a text, is refused as such. -/
theorem hasText_of_asNumber {x y : Expr} (halike : y.Alike x) (htext : x.number? = none → x.HasText)
    {e : Fault} (he : y.asNumber = .error e) : e.HasText := by
  unfold Expr.asNumber Expr.castTo at he
  split at he
  · cases he
  · next hnumber =>
    cases he
    have hx : x.number? = none := by
      have herase : y.erase = x.erase := halike
      rw [← number?_erase, ← herase, number?_erase, hnumber]
    exact Fault.hasText_invalidCast.mpr ((htext hx).of_alike halike.symm)

/-- What `sum` refuses needs to have a text. -/
theorem concludes_sum (hend : l.Finite ∧ l.Tells)
    (htexts : ∀ k x, l.Has k (.value (some x)) → x.number? = none → x.HasText) :
    Concludes fun n => apply .cacheFree n .sum (.list l) := by
  refine concludes_apply hend (f := fun _ => addToTotal) ?_ fun n => apply_sum .cacheFree n hl
  intro j x hx
  refine ⟨0, fun n _ total y hy => .bind (.lift (fun _ _ => trivial) fun e => ?_) fun i _ => ?_⟩
  · exact hasText_of_asNumber hy (htexts j x hx)
  · cases total.add? i.toDecimal with
    | some total => exact .pure trivial
    | none => exact .fail ⟨0, _, rfl⟩

theorem concludes_length (hend : l.Finite ∧ l.Tells) :
    Concludes fun n => apply .cacheFree n .length (.list l) :=
  concludes_apply hend (f := fun _ length _ => pure (length + 1))
    (fun _ _ _ => ⟨0, fun _ _ _ _ _ => .pure trivial⟩) fun n => apply_length hl .cacheFree n

theorem concludes_joinWith (hend : l.Finite ∧ l.Tells) (separator : String)
    (helements : ∀ k x, l.Has k (.value (some x)) → x.Calm ∧ x.Printable) :
    Concludes fun n => apply .cacheFree n (.joinWith separator) (.list l) := by
  refine concludes_apply hend
    (f := fun n parts x => do pure ((← displayText .cacheFree n x) :: parts)) ?_ fun n =>
      apply_joinWith hl .cacheFree n separator
  intro j x hx
  obtain ⟨hcalm, htext⟩ := helements j x hx
  obtain ⟨n₀, hn₀⟩ := hcalm.concludes_displayText htext
  refine ⟨n₀, fun n hn parts y hy =>
    .bind ((hn₀ n hn).mirrored (mirror_displayText n hy)) fun _ _ => ?_⟩
  exact .pure trivial

end Functions

/-! ## 5. Sessions -/

namespace Session

/-- With enough fuel, the evaluation comes to an end: with a value, or with a fault and its
message. -/
def Ends {α : Type} (s : Session) (x : Nat → Eval Nat α) : Prop :=
  ∃ n, ∀ fuel, n ≤ fuel → (∃ a, (s.run s.current (x fuel)).1 = .ok a) ∨
    ∃ e, (s.run s.current (x fuel)).1 = .error (.fault e) ∧ e.HasText

/-- An evaluation with a memory ends, if the one without does. -/
theorem Fits.ends {α β : Type} {s : Session} {Γ : Ledger} (hs : s.Fits Γ) {x : Nat → Eval Nat α}
    {y : Nat → Eval Unit β} (P : Ledger → α → β → Prop)
    (htold : ∀ n, ToldBy Γ P (x n) fun i => y (n + i)) (hy : Concludes y) : s.Ends x := by
  obtain ⟨n₀, hn₀⟩ := hy
  refine ⟨n₀, fun n hn => ?_⟩
  rw [hs.run]
  have hrun := htold n s.machine (.fresh ()) hs.machine (Machine.fresh_plain ())
  generalize x n s.machine = r at hrun ⊢
  cases hrun with
  | ok => exact .inl ⟨_, rfl⟩
  | limited => exact .inr ⟨_, rfl, 0, _, rfl⟩
  | fault _ _ herase hy =>
    -- without a memory the fault is the same, up to cells
    obtain ⟨⟨k, hk⟩, -⟩ := hy
    have hend : y (n + k) (.fresh ()) = _ := hk k (Nat.le_refl k)
    rcases hn₀ (n + k) (by omega) (.fresh ()) (Machine.fresh_plain ()) with
      ⟨_, _, hend', -, -⟩ | ⟨_, _, hend', htext⟩
    · cases hend.symm.trans hend'
    · cases hend.symm.trans hend'
      exact .inr ⟨_, rfl, htext.of_erase herase.symm⟩
  | unknown _ _ h =>
    -- without a memory there would be no end either
    rcases hn₀ n hn (.fresh ()) (Machine.fresh_plain ()) with ⟨_, _, hend, -, -⟩ | ⟨_, _, hend, -⟩
    · cases hend.symm.trans h
    · cases hend.symm.trans h

section Loops

variable {s : Session} {Γ : Ledger} (hs : s.Fits Γ)

include hs

theorem Fits.ends_apply {f a : Expr} (hf : ∀ c ∈ f.claims, Γ.Owns c) (ha : ∀ c ∈ a.claims, Γ.Owns c)
    (h : Concludes fun n => Eval.apply .cacheFree n f a) :
    s.Ends fun fuel => Eval.apply s.setting fuel f a := by
  let B := Bond.memo Nat true (some maxDepth)
  rw [hs.setting]
  refine hs.ends B.like.value (fun n => ?_) h
  exact (B.sound n (fun i => n + i) fun _ => rfl).apply (w := Γ) ⟨rfl, hf, fun _ _ => trivial⟩
    ⟨rfl, ha, fun _ _ => trivial⟩

theorem Fits.ends_materialize {v : Expr} (hv : ∀ c ∈ v.claims, Γ.Owns c)
    (h : Concludes fun n => Eval.materialize .cacheFree n v) :
    s.Ends fun fuel => Eval.materialize s.setting fuel v := by
  let B := Bond.memo Nat true (some maxDepth)
  rw [hs.setting]
  refine hs.ends B.like.value (fun n => ?_) h
  exact (B.sound n (fun i => n + i) fun _ => rfl).materialize (w := Γ) ⟨rfl, hv, fun _ _ => trivial⟩

theorem Fits.ends_render {v : Expr} (hv : ∀ c ∈ v.claims, Γ.Owns c)
    (h : Concludes fun n => Eval.render .cacheFree n v) :
    s.Ends fun fuel => Eval.render s.setting fuel v := by
  let B := Bond.memo Nat true (some maxDepth)
  rw [hs.setting]
  refine hs.ends (fun _ text text' => text = text') (fun n => ?_) h
  exact B.follows_render (n := n) (g := fun i => n + i) (fun _ => rfl) (w := Γ)
    ⟨rfl, hv, fun _ _ => trivial⟩

/-- **A traversal of a list that ends comes to its end**, unless evaluations are nested too
deeply. -/
theorem Fits.traversal_ends {l : LazyList} (hl : ∀ c ∈ l.claims, Γ.Owns c) (h : l.Finite) :
    ∃ k n, ∀ fuels, (∀ fuel ∈ fuels, n ≤ fuel) → k < fuels.length →
      (∃ o ∈ (s.outcomes fuels (s.begin l)).take (k + 1), Limited o) ∨
        (s.outcomes fuels (s.begin l))[k]? = some (.ok none) := by
  obtain ⟨k, hk⟩ := h
  obtain ⟨n, hn⟩ := (hs.traverses hl).complete k _ hk
  refine ⟨k, n, fun fuels hfuels hk => (hn fuels hfuels hk).imp_right ?_⟩
  rintro ⟨(_ | (_ | x)), ho, hend⟩
  · rename_i failure
    cases failure <;> cases hend
  · exact ho
  · cases hend

end Loops

end Session

/-! ## 6. Lists that say they are finite -/

namespace LazyList

/-- The ranges that a list is made of. -/
def ranges : LazyList → List Progression
  | items .. => []
  | progression p => [p]
  | prepend _ tail => tail.ranges
  | concat first second => first.ranges ++ second.ranges
  | mapped _ source | filtered _ source | dropped _ source => source.ranges

/-- In a list that says it is finite, all ranges have an end and a step; where one comes to a
standstill, its elements are decimals. -/
theorem Stalls.exists_decimal : ∀ {l : LazyList}, l.isInfinite = false → l.Stalls →
    ∃ p ∈ l.ranges, p.Stalls ∧ (p.start.isDecimal = true ∨ p.step.isDecimal = true)
  | .progression p, hl, h => by
    refine ⟨p, List.mem_singleton_self p, h, ?_⟩
    by_contra hdecimal
    rw [not_or, Bool.not_eq_true, Bool.not_eq_true] at hdecimal
    exact Progression.not_stalls_of_integers hdecimal.1 hdecimal.2 (Bool.or_eq_false_iff.mp hl).2 h
  | .prepend _ tail, hl, h => exists_decimal (l := tail) hl h
  | .concat first second, hl, h => by
    obtain ⟨hfirst, hsecond⟩ := Bool.or_eq_false_iff.mp hl
    rcases h with h | h
    · obtain ⟨p, hp, hstalls⟩ := exists_decimal hfirst h
      exact ⟨p, List.mem_append_left _ hp, hstalls⟩
    · obtain ⟨p, hp, hstalls⟩ := exists_decimal hsecond h
      exact ⟨p, List.mem_append_right _ hp, hstalls⟩
  | .mapped _ source, hl, h | .filtered _ source, hl, h | .dropped _ source, hl, h =>
    exists_decimal (l := source) hl h

end LazyList

/-- What goes through a list comes to an end. -/
structure ListEnds (H : Holding) (l : LazyList) : Prop where
  /-- At some position, every traversal that gets as far has come to its end. -/
  traversal : ∃ k n, ∀ fuels, (∀ fuel ∈ fuels, n ≤ fuel) → k < fuels.length →
    (∃ o ∈ (H.session.outcomes fuels (H.session.begin l)).take (k + 1), Limited o) ∨
      (H.session.outcomes fuels (H.session.begin l))[k]? = some (.ok none)
  /-- A fault on the way has a message. -/
  tells : l.Tells
  /-- A value that is no number is refused, with a message in which it is written: it needs to have
  a text. -/
  sum : (∀ k x, l.Has k (.value (some x)) → x.number? = none → x.HasText) →
    H.session.Ends fun fuel => apply H.session.setting fuel .sum (.list l)
  length : H.session.Ends fun fuel => apply H.session.setting fuel .length (.list l)
  /-- What goes through lists among the elements as well needs these to be calm. -/
  materialize : (∀ k x, l.Has k (.value (some x)) → x.Calm) →
    H.session.Ends fun fuel => materialize H.session.setting fuel (.list l)
  /-- What writes elements needs these to have texts: an argument that a function has captured may
  lead back to itself. -/
  join : (∀ k x, l.Has k (.value (some x)) → x.Calm ∧ x.Printable) → ∀ separator,
    H.session.Ends fun fuel => apply H.session.setting fuel (.joinWith separator) (.list l)
  render : (∀ k x, l.Has k (.value (some x)) → x.Calm) → (Expr.list l).Printable →
    H.session.Ends fun fuel => render H.session.setting fuel (.list l)

/-- **A list that says it is finite is gone through in finitely many steps**, whatever an
application has done and whichever list it has, as far as its elements, functions and predicates
return, with a value or with a fault and its message; or else one of its ranges, which are of
decimals then, comes to an element that the step does not move. -/
theorem finite_list_ends {H : Holding} (h : Reached H) {l : LazyList} (hl : .list l ∈ H.values)
    (hfinite : l.isInfinite = false) (hreturns : l.Returns) :
    (∃ p ∈ l.ranges, p.Stalls ∧ (p.start.isDecimal = true ∨ p.step.isDecimal = true)) ∨
    ListEnds H l := by
  by_cases hstalls : l.Stalls
  · exact .inl (hstalls.exists_decimal hfinite)
  obtain ⟨Γ, hsound⟩ := sound_of_reached h
  have hs := hsound.session
  have howns := hsound.values _ hl
  have hend := (LazyList.finite_or_stalls hfinite hreturns).resolve_left hstalls
  refine .inr {
    traversal := hs.traversal_ends howns hend.1
    tells := hend.2
    sum := fun htexts => hs.ends_apply nofun howns (concludes_sum hfinite hend htexts)
    length := hs.ends_apply nofun howns (concludes_length hfinite hend)
    materialize := fun helements =>
      hs.ends_materialize howns (Expr.Calm.list hreturns hstalls helements).concludes
    join := fun helements separator =>
      hs.ends_apply nofun howns (concludes_joinWith hfinite hend separator helements)
    render := fun helements htext =>
      hs.ends_render howns ((Expr.Calm.list hreturns hstalls helements).concludes_render htext) }

/-- A list with a range in it, which is no number, and is joined and written as well. -/
theorem finite_list_ends_nested :
    let list : LazyList := .items [.range (.integer 1) none (some (.integer 3))] .top (some 0)
    ∃ H, Reached H ∧ .list list ∈ H.values ∧ list.isInfinite = false ∧ list.Returns ∧
      ListEnds H list ∧
      H.session.Ends (fun fuel => apply H.session.setting fuel .sum (.list list)) ∧
      H.session.Ends (fun fuel => apply H.session.setting fuel (.joinWith ", ") (.list list)) ∧
      H.session.Ends (fun fuel => render H.session.setting fuel (.list list)) := by
  intro list
  let range : LazyList := .progression ⟨.integer 1, .integer 1, some (.integer 3)⟩
  have hparse : parse "[[1..3]]" =
    .ok (.literal [.range (.integer 1) none (some (.integer 3))]) := by cbv
  have hreached := Reached.ask .fresh (.program 3 hparse)
  have hreturns : list.Returns := LazyList.returnsAt_items _ _ fun x hx => by
    cases List.mem_singleton.mp hx
    exact ⟨9, trivial⟩
  have hends := (finite_list_ends hreached (l := list) List.mem_cons_self rfl hreturns).resolve_left
    (by simp [list, LazyList.ranges])
  have helement : list.Has 0 (.value (some (.list range))) := ⟨Answer.value_ne_unknown, 9, rfl⟩
  have hover : list.Has 1 (.value none) := ⟨Answer.value_ne_unknown, 9, rfl⟩
  have helements : ∀ k x, list.Has k (.value (some x)) → x = .list range := by
    rintro (_ | k) x hx
    · cases hx.unique helement
      rfl
    · cases hx.unique (hover.over (Nat.succ_le_succ (Nat.zero_le k)))
  have hcalm : (Expr.list range).Calm :=
    Expr.calm_progression (Progression.not_stalls_of_integers rfl rfl (by decide))
  refine ⟨_, hreached, List.mem_cons_self, rfl, hreturns, hends, hends.sum fun k x hx _ => ?_,
    hends.join (fun k x hx => ?_) ", ", hends.render (fun k x hx => ?_) ?_⟩
  · cases helements k x hx
    exact ⟨9, _, rfl⟩
  · cases helements k x hx
    exact ⟨hcalm, Expr.printable_of_eq (n := 9) (k := 9) rfl rfl⟩
  · cases helements k x hx
    exact hcalm
  · exact Expr.printable_of_eq (n := 12) (k := 9) rfl rfl

end LazyExpr
