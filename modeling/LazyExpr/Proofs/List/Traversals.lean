import LazyExpr.Proofs.Eval.Memo
import LazyExpr.Proofs.List.Walk
import LazyExpr.Session

/-!
# Traversals that an application holds

An application evaluates programs, applies and combines the values it gets, and traverses the lists
among them.  It may hold any number of traversals at once, of one list or of lists that share parts,
and go on with any of them at any time; the elements it meets are remembered in cells that all of
them see.

A *holding* is what it has at some point: the session, the values, and its visits of lists with the
outcomes that each of them has had so far.

* `Visit.Sound` — the invariant of a visit: its outcomes are those of the list, and what remains is
  the rest of the list.
* `nextWithin_sound` — one step of one traversal keeps it.
* `visits_refine` — **the outcomes of every traversal are those of its list**, whatever else was
  done in between, up to the first time that evaluations are nested too deeply; and where the list
  has a next outcome, the traversal gives it.
-/

namespace LazyExpr

open Eval

/-! ## 1. Runs of a session -/

namespace Session

/-- The session after an evaluation that left the machine like this. -/
def keep (s : Session) (token : Nat) (m : Machine Nat) : Session :=
  { s with
    machine := { m with cancelled := false }
    tokens := s.tokens.setIfInBounds token m.cancelled }

/-- No token asks to stop. -/
def Awake (s : Session) : Prop := ∀ token, s.isCancelled token = false

/-- A session of built-in functions, none of which is asked to stop, with a machine in line with a
ledger. -/
structure Fits (s : Session) (Γ : Ledger) : Prop where
  natives : s.natives = #[]
  awake : s.Awake
  machine : Γ.Fits s.machine

theorem fits_fresh : Session.fresh.Fits [] where
  natives := rfl
  awake token := by
    show ((#[false] : Array Bool)[token]?).getD false = false
    cases token <;> rfl
  machine := Ledger.fits_fresh 0

variable {s : Session} {Γ : Ledger}

theorem Fits.setting (h : s.Fits Γ) : s.setting = .builtins Nat true (some maxDepth) := by
  rw [Session.setting, h.natives]
  rfl

theorem Fits.keep (h : s.Fits Γ) (token : Nat) {Γ' : Ledger} {m : Machine Nat} (hm : Γ'.Fits m) :
    (s.keep token m).Fits Γ' where
  natives := h.natives
  awake other := by
    have hother := h.awake other
    simp only [isCancelled, Session.keep, hm.plain.1] at hother ⊢
    rw [Array.getElem?_setIfInBounds]
    split
    · split <;> rfl
    · exact hother
  machine := ⟨⟨rfl, hm.plain.2⟩, hm.size, hm.filled⟩

/-- A run of a session is a run on its machine. -/
theorem Fits.run {α : Type} (h : s.Fits Γ) (token : Nat) (x : Eval Nat α) :
    s.run token x = match x s.machine with
      | .ok a m => (.ok a, s.keep token m)
      | .error halt m => (.error (.ofHalt halt), s.keep token m) := by
  have hmachine : { s.machine with cancelled := s.isCancelled token } = s.machine := by
    rw [h.awake token, ← h.machine.plain.1]
  rw [Session.run, hmachine]
  rfl

/-- What a traversal makes of a pull: after the end or a fault it is finished. -/
def afterPull (s : Session) (token : Nat) (t : Traversal) (rest : LazyList) :
    Ended Nat (Option (Expr × LazyList)) → Except Failure (Option Expr) × Traversal × Session
  | .ok (some (x, rest)) m => (.ok (some x), { t with rest }, s.keep token m)
  | .ok none m => (.ok none, { t with rest, finished := true }, s.keep token m)
  | .error halt m => (.error (.ofHalt halt), { t with rest, finished := true }, s.keep token m)

/-- A traversal that is not over takes its next element by a pull. -/
theorem Fits.nextWithin (h : s.Fits Γ) {t : Traversal} {token : Nat} (ht : t.token = some token)
    (hrest : t.finished = false) (fuel : Nat) :
    ∃ rest, s.nextWithin fuel t =
      s.afterPull token t rest
        (pull (.builtins Nat true (some maxDepth)) fuel t.rest s.machine) := by
  have hcheck : (Eval.check >>= fun _ => advance s.setting fuel t.rest) s.machine =
      advance s.setting fuel t.rest s.machine := by
    rw [bind_run, check_plain h.machine.plain]
    rfl
  obtain ⟨list, _, _⟩ := t
  cases ht
  cases hrest
  simp only [Session.nextWithin, Bool.false_eq_true, if_false, h.run, pull, bind_run, ← h.setting]
    at hcheck ⊢
  rw [hcheck]
  cases advance s.setting fuel list s.machine with
  | error halt m => exact ⟨list, rfl⟩
  | ok step m =>
    obtain ⟨outcome, rest⟩ := step
    rcases outcome with _ | _ | x
    · exact ⟨rest, rfl⟩
    · exact ⟨rest, rfl⟩
    · exact ⟨rest, rfl⟩

end Session

/-! ## 2. Pulls with a memory -/

/-- How a pull with a memory ends, by what the list gives without one. -/
inductive PullsTo (Γ : Ledger) (n : Nat) (l : LazyList) :
    Ended Nat (Option (Expr × LazyList)) → Prop where
  | ended {Γ' : Ledger} {m : Machine Nat} {k : Nat} (hle : Γ <+: Γ') (hm : Γ'.Fits m)
    (h : pullAnswer k l = .value none) : PullsTo Γ n l (.ok none m)
  | cons {Γ' : Ledger} {m : Machine Nat} {k : Nat} {x : Expr} {rest : LazyList} (hle : Γ <+: Γ')
    (hm : Γ'.Fits m) (hx : ∀ c ∈ x.claims, Γ'.Owns c) (hrest : ∀ c ∈ rest.claims, Γ'.Owns c)
    (h : pullAnswer k l = .value (some (x.erase, rest.erase))) :
      PullsTo Γ n l (.ok (some (x, rest)) m)
  | fault {Γ' : Ledger} {m : Machine Nat} {k : Nat} {e : Fault} (hle : Γ <+: Γ') (hm : Γ'.Fits m)
    (h : pullAnswer k l = .fault e.erase) : PullsTo Γ n l (.error (.fault e) m)
  | limited {Γ' : Ledger} {m : Machine Nat} (limit : Nat) (hle : Γ <+: Γ') (hm : Γ'.Fits m) :
    PullsTo Γ n l (.error (.fault (.recursionLimit limit)) m)
  | unknown {Γ' : Ledger} {m : Machine Nat} (hle : Γ <+: Γ') (hm : Γ'.Fits m)
    (h : pullAnswer n l = .unknown) : PullsTo Γ n l (.error .outOfFuel m)

theorem pullsTo {Γ : Ledger} {m : Machine Nat} {l : LazyList} (hm : Γ.Fits m)
    (hl : ∀ c ∈ l.claims, Γ.Owns c) (n : Nat) :
    PullsTo Γ n l (pull (.builtins Nat true (some maxDepth)) n l m) := by
  let B := Bond.memo Nat true (some maxDepth)
  have hlist : B.like.list Γ l l := ⟨rfl, hl, fun _ _ => trivial⟩
  have htold := (B.sound n (fun i => n + i) fun _ => rfl).pull hlist m (.fresh ()) hm
    (Machine.fresh_plain ())
  change Told Γ B.Pulled (pull (.builtins Nat true (some maxDepth)) n l m)
    (fun i => pull .cacheFree (n + i) l (.fresh ())) at htold
  generalize pull (.builtins Nat true (some maxDepth)) n l m = r at htold ⊢
  have hanswer : ∀ i, pullAnswer i l = .ofRun erasePulled (pull .cacheFree i l (.fresh ())) :=
    fun _ => rfl
  cases htold with
  | ok hle hm _ h hy =>
    obtain ⟨k, hk⟩ := hy.later
    have hvalue := (hanswer (n + k)).trans (congrArg _ (hk k (Nat.le_refl k)))
    cases h with
    | none => exact .ended hle hm hvalue
    | some h =>
      refine .cons hle hm h.1.2.1 h.2.2.1 (hvalue.trans ?_)
      exact congrArg (fun p => Answer.value (some p))
        (Prod.ext h.1.1.symm (Expr.list.inj h.2.1).symm)
  | fault hle hm h hy =>
    obtain ⟨k, hk⟩ := hy.later
    refine .fault hle hm (((hanswer (n + k)).trans (congrArg _ (hk k (Nat.le_refl k)))).trans ?_)
    exact congrArg Answer.fault h.symm
  | limited limit hle hm => exact .limited limit hle hm
  | unknown hle hm hy => exact .unknown hle hm ((hanswer n).trans (congrArg _ hy))

/-! ## 3. What an application holds -/

/-- A traversal of a list, with the outcomes it has had so far. -/
structure Visit where
  list : LazyList
  traversal : Traversal
  outcomes : List (Except Failure (Option Expr))

/-- What an application has at some point. -/
structure Holding where
  session : Session
  values : List Expr
  visits : List Visit

/-- What an application asks the evaluator for: the value of a program or of a value that it has,
the value of a function at an argument, a list's elements, or a new list. -/
inductive Asks (S : Setting Nat) (values : List Expr) : Eval Nat Expr → Prop where
  | program (fuel : Nat) {source : String} {e : Expr} (h : parse source = .ok e) :
    Asks S values (eval S fuel .top e)
  | again (fuel : Nat) {v : Expr} (h : v ∈ values) : Asks S values (eval S fuel .top v)
  | apply (fuel : Nat) {f a : Expr} (hf : f ∈ values) (ha : a ∈ values) :
    Asks S values (apply S fuel f a)
  | materialize (fuel : Nat) {v : Expr} (h : v ∈ values) : Asks S values (materialize S fuel v)
  | newList {vs : List Expr} (h : ∀ v ∈ vs, v ∈ values) : Asks S values (newList vs .top)

/-- A view of lists that an application has. -/
inductive Views (values : List Expr) : LazyList → Prop where
  | progression (p : Progression) : Views values (.progression p)
  | prepend {head : Expr} {tail : LazyList} (hh : head ∈ values) (ht : .list tail ∈ values) :
    Views values (.prepend head tail)
  | concat {first second : LazyList} (ha : .list first ∈ values) (hb : .list second ∈ values) :
    Views values (.concat first second)
  | mapped {f : Expr} {source : LazyList} (hf : f ∈ values) (hs : .list source ∈ values) :
    Views values (.mapped f source)
  | filtered {p : Expr} {source : LazyList} (hp : p ∈ values) (hs : .list source ∈ values) :
    Views values (.filtered p source)
  | dropped (count : Nat) {source : LazyList} (hs : .list source ∈ values) :
    Views values (.dropped count source)

/-- The value among the results of an evaluation, if there is one. -/
def resultValue : Except Failure Expr → List Expr
  | .ok v => [v]
  | .error _ => []

/-- The element among the outcomes of a step, if there is one. -/
def outcomeValue : Except Failure (Option Expr) → List Expr
  | .ok (some x) => [x]
  | _ => []

/-- The holdings that an application can come to: it starts with nothing, asks for evaluations,
views the lists it has in other ways, begins to traverse them, and takes one more step of any
traversal.  A step that did not end within its bound is none. -/
inductive Reached : Holding → Prop where
  | fresh : Reached ⟨.fresh, [], []⟩
  | ask {H : Holding} (h : Reached H) {x : Eval Nat Expr} (hx : Asks H.session.setting H.values x) :
    Reached
      { session := (H.session.run H.session.current x).2
        values := resultValue (H.session.run H.session.current x).1 ++ H.values
        visits := H.visits }
  | view {H : Holding} (h : Reached H) {l : LazyList} (hl : Views H.values l) :
    Reached { H with values := .list l :: H.values }
  | start {H : Holding} (h : Reached H) {l : LazyList} (hl : .list l ∈ H.values) :
    Reached { H with visits := H.visits ++ [⟨l, ⟨l, some H.session.current, false⟩, []⟩] }
  | step {H : Holding} (h : Reached H) (fuel : Nat) {i : Nat} {v : Visit}
    (hv : H.visits[i]? = some v)
    {o : Except Failure (Option Expr)} {t : Traversal} {s : Session}
    (hnext : H.session.nextWithin fuel v.traversal = (o, t, s)) (ho : o ≠ .error .unfinished) :
    Reached ⟨s, outcomeValue o ++ H.values, H.visits.set i ⟨v.list, t, v.outcomes ++ [o]⟩⟩

/-! ## 4. What a traversal gives -/

/-- What an outcome says, without cells. -/
def outcomeAnswer : Except Failure (Option Expr) → Answer (Option Expr)
  | .ok o => .value (o.map Expr.erase)
  | .error (.fault e) => .fault e.erase
  | .error _ => .unknown

/-- Evaluations were nested too deeply. -/
def IsLimit (o : Except Failure (Option Expr)) : Prop :=
  ∃ limit, o = .error (.fault (.recursionLimit limit))

namespace Visit

/-- Evaluations were nested too deeply in one of the first steps. -/
def LimitedBy (v : Visit) (k : Nat) : Prop := ∃ o ∈ v.outcomes.take k, IsLimit o

/-- What the traversal has still to give: the outcomes of the rest, or nothing. -/
def Remains (t : Traversal) (k : Nat) (a : Answer (Option Expr)) : Prop :=
  if t.finished then a = .value none else t.rest.Has k a

/-- The outcomes are those of the list, and what remains is the rest of the list. -/
structure Sound (v : Visit) (Γ : Ledger) : Prop where
  token : ∃ token, v.traversal.token = some token
  owns : ∀ c ∈ v.traversal.rest.claims, v.traversal.finished = false → Γ.Owns c
  outcomes : ∀ {k o}, v.outcomes[k]? = some o → v.LimitedBy (k + 1) ∨ v.list.Has k (outcomeAnswer o)
  remains : ¬ v.LimitedBy v.outcomes.length → ∀ k a,
    v.list.Has (v.outcomes.length + k) a ↔ Remains v.traversal k a

theorem Sound.mono {v : Visit} {Γ Γ' : Ledger} (h : v.Sound Γ) (hle : Γ <+: Γ') : v.Sound Γ' :=
  { h with owns := fun c hc hf => (h.owns c hc hf).mono hle }

/-- A traversal that has not begun has the whole list before it. -/
theorem sound_start {Γ : Ledger} {l : LazyList} (token : Nat) (hl : ∀ c ∈ l.claims, Γ.Owns c) :
    Sound ⟨l, ⟨l, some token, false⟩, []⟩ Γ where
  token := ⟨token, rfl⟩
  owns c hc _ := hl c hc
  outcomes h := nomatch h
  remains _ k a := by rw [List.length_nil, Nat.zero_add]; rfl

theorem limitedBy_append {v : Visit} {t : Traversal} {o : Except Failure (Option Expr)} :
    LimitedBy ⟨v.list, t, v.outcomes ++ [o]⟩ (v.outcomes.length + 1) ↔
      v.LimitedBy v.outcomes.length ∨ IsLimit o := by
  have htake : (v.outcomes ++ [o]).take (v.outcomes.length + 1) = v.outcomes ++ [o] :=
    List.take_of_length_le (by simp)
  simp only [LimitedBy, htake, List.take_length, List.mem_append, List.mem_singleton, or_and_right,
    exists_or, exists_eq_left]

/-- One more outcome: the first of what remained, unless evaluations were nested too deeply. -/
theorem Sound.extend {v : Visit} {Γ Γ' : Ledger} (h : v.Sound Γ) {t : Traversal}
    {o : Except Failure (Option Expr)} (htoken : t.token = v.traversal.token)
    (howns : ∀ c ∈ t.rest.claims, t.finished = false → Γ'.Owns c)
    (hnext : IsLimit o ∨ Remains v.traversal 0 (outcomeAnswer o) ∧
      ∀ k a, Remains v.traversal (k + 1) a ↔ Remains t k a) :
    Sound ⟨v.list, t, v.outcomes ++ [o]⟩ Γ' := by
  refine ⟨htoken ▸ h.token, howns, ?_, ?_⟩
  · intro k o' ho'
    rcases Nat.lt_or_ge k v.outcomes.length with hk | hk
    · have hk' : (v.outcomes ++ [o]).take (k + 1) = v.outcomes.take (k + 1) :=
        List.take_append_of_le_length hk
      rw [List.getElem?_append_left hk] at ho'
      rcases h.outcomes ho' with ⟨u, hu, hlimit⟩ | hhas
      · exact .inl ⟨u, hk'.symm ▸ hu, hlimit⟩
      · exact .inr hhas
    · rw [List.getElem?_append_right hk] at ho'
      obtain ⟨rfl, rfl⟩ : k = v.outcomes.length ∧ o = o' := by
        rw [List.getElem?_singleton] at ho'
        split at ho'
        · exact ⟨by omega, Option.some.inj ho'⟩
        · cases ho'
      by_cases hbefore : v.LimitedBy v.outcomes.length
      · exact .inl (limitedBy_append.mpr (.inl hbefore))
      · rcases hnext with hlimit | ⟨hfirst, -⟩
        · exact .inl (limitedBy_append.mpr (.inr hlimit))
        · exact .inr ((h.remains hbefore 0 _).mpr hfirst)
  · intro hfree k a
    rw [List.length_append, List.length_singleton] at hfree ⊢
    rw [limitedBy_append, not_or] at hfree
    obtain ⟨-, hrest⟩ := hnext.resolve_left hfree.2
    rw [← hrest k a, ← h.remains hfree.1 (k + 1) a, Nat.add_right_comm, Nat.add_assoc]

end Visit

theorem LazyList.has_alike {l l' : LazyList} (h : l.Alike l') (k : Nat) (a : Answer (Option Expr)) :
    l.Has k a ↔ l'.Has k a := by
  rw [has_iff_walks, has_iff_walks]
  refine and_congr_right fun _ => exists_congr fun t => and_congr_left fun _ => ?_
  exact ⟨.alike h, .alike h.symm⟩

/-- The outcomes of a list that gives an answer. -/
theorem LazyList.has_of_pull {n : Nat} {l : LazyList} {p : Answer (Option (Expr × LazyList))}
    (h : pullAnswer n l = p) (hp : p ≠ .unknown) (k : Nat) (a : Answer (Option Expr)) :
    l.Has k a ↔ Follow p k a := by
  rw [LazyList.has_iff (n := n) (h ▸ hp), h]

/-- **One step of a traversal** keeps the session in line with a ledger and the visit sound. -/
theorem nextWithin_sound {s s' : Session} {Γ : Ledger} {v : Visit} {fuel : Nat}
    {o : Except Failure (Option Expr)} {t : Traversal} (hs : s.Fits Γ) (hv : v.Sound Γ)
    (hnext : s.nextWithin fuel v.traversal = (o, t, s')) (ho : o ≠ .error .unfinished) :
    ∃ Γ' : Ledger, Γ <+: Γ' ∧ s'.Fits Γ' ∧ (∀ x ∈ outcomeValue o, ∀ c ∈ x.claims, Γ'.Owns c) ∧
      Visit.Sound ⟨v.list, t, v.outcomes ++ [o]⟩ Γ' := by
  obtain ⟨token, htoken⟩ := hv.token
  cases hfinished : v.traversal.finished with
  | true =>
    rw [Session.nextWithin, htoken, hfinished] at hnext
    cases hnext
    have hover : ∀ k a, Visit.Remains v.traversal k a ↔ a = .value none := fun k a => by
      rw [Visit.Remains, hfinished]
      exact Iff.rfl
    refine ⟨Γ, List.prefix_rfl, hs, (fun x hx => absurd hx List.not_mem_nil),
      hv.extend rfl hv.owns (.inr ⟨?_, ?_⟩)⟩
    · exact (hover _ _).mpr rfl
    · exact fun k a => (hover _ _).trans (hover k a).symm
  | false =>
    have hremains : ∀ k a, Visit.Remains v.traversal k a ↔ v.traversal.rest.Has k a := fun k a => by
      rw [Visit.Remains, hfinished]
      exact Iff.rfl
    obtain ⟨rest, hpull⟩ := hs.nextWithin htoken hfinished fuel
    rw [hpull] at hnext
    have hends := pullsTo hs.machine (fun c hc => hv.owns c hc hfinished) fuel
    generalize pull (.builtins Nat true (some maxDepth)) fuel v.traversal.rest s.machine = r
      at hends hnext
    cases hends with
    | ended hle hm h =>
      cases hnext
      have hhas := LazyList.has_of_pull h fun h => nomatch h
      refine ⟨_, hle, hs.keep token hm, (fun x hx => absurd hx List.not_mem_nil),
        hv.extend rfl (fun _ _ h => nomatch h) (.inr ⟨?_, ?_⟩)⟩
      · exact (hremains _ _).mpr ((hhas 0 _).mpr rfl)
      · exact fun k a => (hremains _ _).trans (hhas (k + 1) a)
    | @cons Γ' m k x rest hle hm hx hrest h =>
      cases hnext
      have hhas := LazyList.has_of_pull h fun h => nomatch h
      refine ⟨Γ', hle, hs.keep token hm, ?_,
        hv.extend rfl (fun c hc _ => hrest c hc) (.inr ⟨?_, ?_⟩)⟩
      · intro u hu
        obtain rfl := List.mem_singleton.mp hu
        exact hx
      · exact (hremains _ _).mpr ((hhas 0 _).mpr rfl)
      · intro k a
        refine ((hremains _ _).trans (hhas (k + 1) a)).trans ?_
        simp only [Visit.Remains, hfinished]
        exact LazyList.has_alike (LazyList.alike_erase rest).symm k a
    | fault hle hm h =>
      cases hnext
      have hhas := LazyList.has_of_pull h fun h => nomatch h
      refine ⟨_, hle, hs.keep token hm, (fun x hx => absurd hx List.not_mem_nil),
        hv.extend rfl (fun _ _ h => nomatch h) (.inr ⟨?_, ?_⟩)⟩
      · exact (hremains _ _).mpr ((hhas 0 _).mpr rfl)
      · exact fun k a => (hremains _ _).trans (hhas (k + 1) a)
    | limited limit hle hm =>
      cases hnext
      exact ⟨_, hle, hs.keep token hm, (fun x hx => absurd hx List.not_mem_nil),
        hv.extend rfl (fun _ _ h => nomatch h) (.inl ⟨limit, rfl⟩)⟩
    | unknown =>
      cases hnext
      exact absurd rfl ho

/-- A step ends, where the rest of the list gives an answer. -/
theorem nextWithin_ends {s : Session} {Γ : Ledger} {v : Visit} (fuel : Nat) (hs : s.Fits Γ)
    (hv : v.Sound Γ)
    (h : v.traversal.finished = false → pullAnswer fuel v.traversal.rest ≠ .unknown) :
    (s.nextWithin fuel v.traversal).1 ≠ .error .unfinished := by
  obtain ⟨token, htoken⟩ := hv.token
  cases hfinished : v.traversal.finished with
  | true =>
    rw [Session.nextWithin, htoken, hfinished]
    exact fun h => nomatch h
  | false =>
    obtain ⟨rest, hpull⟩ := hs.nextWithin htoken hfinished fuel
    rw [hpull]
    have hends := pullsTo hs.machine (fun c hc => hv.owns c hc hfinished) fuel
    generalize pull (.builtins Nat true (some maxDepth)) fuel v.traversal.rest s.machine =
      r at hends ⊢
    cases hends with
    | unknown _ _ hunknown => exact absurd hunknown (h hfinished)
    | _ => exact fun h => nomatch h

/-! ## 5. All traversals at once -/

/-- What is asked for keeps the machine in line with a ledger. -/
theorem Asks.told {values : List Expr} {x : Eval Nat Expr} {Γ : Ledger}
    (h : Asks (.builtins Nat true (some maxDepth)) values x)
    (hvalues : ∀ v ∈ values, ∀ c ∈ v.claims, Γ.Owns c) :
    ∃ y, ToldBy Γ Tenure.ledger.Value x y := by
  let B := Bond.memo Nat true (some maxDepth)
  have hsound : ∀ n, B.Sound n fun i => n + i := fun n => B.sound n _ fun _ => rfl
  have hvalue : ∀ {v}, v ∈ values → Tenure.ledger.Value Γ v v := fun hv =>
    ⟨rfl, hvalues _ hv, fun _ _ => trivial⟩
  cases h with
  | program fuel h =>
    exact ⟨_, (hsound fuel).eval (w := Γ)
      ⟨Tenure.env_top, Tenure.value_of_claims (claims_of_parseIn h)⟩⟩
  | again fuel h => exact ⟨_, (hsound fuel).eval (w := Γ) ⟨Tenure.env_top, hvalue h⟩⟩
  | apply fuel hf ha => exact ⟨_, (hsound fuel).apply (hvalue hf) (hvalue ha)⟩
  | materialize fuel h => exact ⟨_, (hsound fuel).materialize (hvalue h)⟩
  | newList h =>
    refine ⟨_, ToldBy.newList Tenure.env_top (List.forall₂_same.mpr fun v hv => ?_)⟩
    exact hvalue (h v hv)

/-- The cells of a view are cells of what it is made of. -/
theorem Views.owns {values : List Expr} {l : LazyList} {Γ : Ledger} (h : Views values l)
    (hvalues : ∀ v ∈ values, ∀ c ∈ v.claims, Γ.Owns c) : ∀ c ∈ l.claims, Γ.Owns c := by
  intro c hc
  cases h with
  | progression => cases hc
  | prepend h h' | concat h h' | mapped h h' | filtered h h' =>
    rcases List.mem_append.mp hc with hc | hc
    · exact hvalues _ h c hc
    · exact hvalues _ h' c hc
  | dropped _ h => exact hvalues _ h c hc

/-- The session is in line with a ledger, which has the cells of all values, and all visits are
sound. -/
structure Holding.Sound (H : Holding) (Γ : Ledger) : Prop where
  session : H.session.Fits Γ
  values : ∀ v ∈ H.values, ∀ c ∈ v.claims, Γ.Owns c
  visits : ∀ v ∈ H.visits, v.Sound Γ

theorem Holding.Sound.ask {H : Holding} {Γ : Ledger} (h : H.Sound Γ) {x : Eval Nat Expr}
    (hx : Asks H.session.setting H.values x) :
    ∃ Γ', Holding.Sound
      { session := (H.session.run H.session.current x).2
        values := resultValue (H.session.run H.session.current x).1 ++ H.values
        visits := H.visits } Γ' := by
  rw [h.session.setting] at hx
  obtain ⟨y, hy⟩ := hx.told h.values
  have htold := hy H.session.machine (.fresh ()) h.session.machine (Machine.fresh_plain ())
  -- however the evaluation ends, the ledger has grown and what was there is still in it
  have hgrown : ∀ {Γ' : Ledger} {m : Machine Nat}, Γ <+: Γ' → Γ'.Fits m →
      Holding.Sound ⟨H.session.keep H.session.current m, H.values, H.visits⟩ Γ' := fun hle hm =>
    ⟨h.session.keep _ hm, fun v hv c hc => (h.values v hv c hc).mono hle,
      fun v hv => (h.visits v hv).mono hle⟩
  rw [h.session.run]
  generalize x H.session.machine = r at htold ⊢
  cases htold with
  | @ok Γ' v b m m' _ hle hm _ hv _ =>
    obtain ⟨hsession, hvalues, hvisits⟩ := hgrown hle hm
    refine ⟨Γ', hsession, fun u hu => ?_, hvisits⟩
    rcases List.mem_cons.mp hu with rfl | hu
    · exact hv.2.1
    · exact hvalues u hu
  | fault hle hm => exact ⟨_, hgrown hle hm⟩
  | limited limit hle hm => exact ⟨_, hgrown hle hm⟩
  | unknown hle hm => exact ⟨_, hgrown hle hm⟩

theorem sound_of_reached {H : Holding} (h : Reached H) : ∃ Γ, H.Sound Γ := by
  induction h with
  | fresh => exact ⟨[], Session.fits_fresh, (fun v hv => nomatch hv), fun v hv => nomatch hv⟩
  | ask _ hx ih =>
    obtain ⟨Γ, h⟩ := ih
    exact h.ask hx
  | view _ hl ih =>
    obtain ⟨Γ, h⟩ := ih
    refine ⟨Γ, h.session, fun v hv => ?_, h.visits⟩
    rcases List.mem_cons.mp hv with rfl | hv
    · exact hl.owns h.values
    · exact h.values v hv
  | start _ hl ih =>
    obtain ⟨Γ, h⟩ := ih
    refine ⟨Γ, h.session, h.values, fun v hv => ?_⟩
    rcases List.mem_append.mp hv with hv | hv
    · exact h.visits v hv
    · obtain rfl := List.mem_singleton.mp hv
      exact Visit.sound_start _ (h.values _ hl)
  | step _ fuel hv hnext ho ih =>
    obtain ⟨Γ, h⟩ := ih
    obtain ⟨Γ', hle, hs, hx, hvisit⟩ :=
      nextWithin_sound h.session (h.visits _ (List.mem_of_getElem? hv)) hnext ho
    refine ⟨Γ', hs, fun v hv => ?_, fun v hv => ?_⟩
    · rcases List.mem_append.mp hv with hv | hv
      · exact hx v hv
      · exact fun c hc => (h.values v hv c hc).mono hle
    · rcases List.mem_or_eq_of_mem_set hv with hv | rfl
      · exact (h.visits v hv).mono hle
      · exact hvisit

/-- **A traversal gives the outcomes of its list**, whatever the application does in between and
however many other traversals it holds.  Each outcome is the one that the list has at this position,
unless evaluations were nested too deeply in this step of the traversal or in one before; and where
they were not, and the list has a next outcome, the next step ends with it, or because evaluations
are nested too deeply. -/
theorem visits_refine {H : Holding} (h : Reached H) {v : Visit} (hv : v ∈ H.visits) :
    (∀ k o, v.outcomes[k]? = some o → v.LimitedBy (k + 1) ∨ v.list.Has k (outcomeAnswer o)) ∧
      (¬ v.LimitedBy v.outcomes.length → ∀ a, v.list.Has v.outcomes.length a →
        ∃ n, ∀ fuel, n ≤ fuel → IsLimit (H.session.nextWithin fuel v.traversal).1 ∨
          outcomeAnswer (H.session.nextWithin fuel v.traversal).1 = a) := by
  obtain ⟨Γ, hsound⟩ := sound_of_reached h
  have hvisit := hsound.visits v hv
  refine ⟨fun k o => hvisit.outcomes, fun hfree a ha => ?_⟩
  have hremains := (hvisit.remains hfree 0 a).mp ha
  -- with enough fuel the rest of the list gives an answer, so the step ends
  obtain ⟨n, hn⟩ : ∃ n, v.traversal.finished = false →
      pullAnswer n v.traversal.rest ≠ .unknown := by
    cases hfinished : v.traversal.finished with
    | true => exact ⟨0, fun h => nomatch h⟩
    | false =>
      rw [Visit.Remains, hfinished] at hremains
      obtain ⟨n, hn⟩ := LazyList.Has.pull hremains
      exact ⟨n, fun _ => hn⟩
  refine ⟨n, fun fuel hle => ?_⟩
  have hends := nextWithin_ends fuel hsound.session hvisit fun hf => by
    rw [(pullAnswer_more hle v.traversal.rest).eq (hn hf)]
    exact hn hf
  obtain ⟨Γ', -, -, -, hnext⟩ := nextWithin_sound hsound.session hvisit rfl hends
  have hlast : (v.outcomes ++ [(H.session.nextWithin fuel v.traversal).1])[v.outcomes.length]? =
      some (H.session.nextWithin fuel v.traversal).1 := List.getElem?_concat_length
  rcases hnext.outcomes hlast with hlimited | hhas
  · exact .inl ((Visit.limitedBy_append.mp hlimited).resolve_left hfree)
  · exact .inr (hhas.unique ha)

/-- Two traversals of a view of views, taken turn by turn: the elements of one literal are read
through a function in the first half, and as they are in the second. -/
theorem visits_refine_shared :
    let xs : LazyList := .items [.integer 1, .integer 2] .top (some 0)
    let next : Expr := .closure 1 ["x"] (.binary .add (.argument ⟨1, 0, "x"⟩) (.integer 1)) .top
    let list : LazyList := .concat (.mapped next xs) (.dropped 1 xs)
    ∃ H v w, Reached H ∧ H.visits = [v, w] ∧ v.list = list ∧ w.list = list ∧
      v.outcomes = [.ok (some (.integer 2)), .ok (some (.integer 3)), .ok (some (.integer 2))] ∧
      w.outcomes = [.ok (some (.integer 2)), .ok (some (.integer 3))] ∧
      (v.LimitedBy 3 ∨ list.Has 2 (.value (some (.integer 2)))) ∧
      ∃ n, ∀ fuel, n ≤ fuel → IsLimit (H.session.nextWithin fuel w.traversal).1 ∨
        outcomeAnswer (H.session.nextWithin fuel w.traversal).1 = .value (some (.integer 2)) := by
  intro xs next list
  have hxs : parse "[1, 2]" = .ok (.literal [.integer 1, .integer 2]) := by cbv
  have hnext : parse "\\x -> x + 1" =
      .ok (.lambda 1 ["x"] (.binary .add (.argument ⟨1, 0, "x"⟩) (.integer 1))) := by cbv
  -- the session with what its two cells hold, and the visits with what is left to traverse
  let session (first second : Option Expr) : Session :=
    { Session.fresh with machine := { Machine.fresh 0 with cells := #[first, second] } }
  let visit (rest : LazyList) (given : List Int64) : Visit :=
    ⟨list, ⟨rest, some 0, false⟩, given.map fun i => .ok (some (.integer i))⟩
  let behind (k : Nat) : LazyList := .items ([.integer 1, .integer 2].drop k) .top (some k)
  let half (k : Nat) : LazyList := .concat (.mapped next (behind k)) (.dropped 1 xs)
  let views : List Expr :=
    [.list list, .list (.dropped 1 xs), .list (.mapped next xs), next, .list xs]
  have hasked : Reached ⟨session none none, [next, .list xs], []⟩ :=
    .ask (.ask .fresh (.program 3 hxs)) (.program 3 hnext)
  have hmapped := Reached.view hasked (l := .mapped next xs) (.mapped (by simp) (by simp))
  have hdropped := Reached.view hmapped (l := .dropped 1 xs) (.dropped 1 (by simp))
  have hviewed : Reached ⟨session none none, views, []⟩ :=
    .view hdropped (.concat (by simp) (by simp))
  have hbegun : Reached ⟨session none none, views, [visit list [], visit list []]⟩ :=
    .start (.start hviewed List.mem_cons_self) List.mem_cons_self
  have h₁ : Reached ⟨session (some (.integer 1)) none, .integer 2 :: views,
      [visit (half 1) [2], visit list []]⟩ :=
    .step hbegun 9 (i := 0) (o := .ok (some (.integer 2))) rfl rfl (by rintro ⟨⟩)
  have h₂ : Reached ⟨session (some (.integer 1)) none, .integer 2 :: .integer 2 :: views,
      [visit (half 1) [2], visit (half 1) [2]]⟩ :=
    .step h₁ 9 (i := 1) (o := .ok (some (.integer 2))) rfl rfl (by rintro ⟨⟩)
  have h₃ : Reached ⟨session (some (.integer 1)) (some (.integer 2)),
      .integer 3 :: .integer 2 :: .integer 2 :: views,
        [visit (half 2) [2, 3], visit (half 1) [2]]⟩ :=
    .step h₂ 9 (i := 0) (o := .ok (some (.integer 3))) rfl rfl (by rintro ⟨⟩)
  have h₄ : Reached ⟨session (some (.integer 1)) (some (.integer 2)),
      .integer 2 :: .integer 3 :: .integer 2 :: .integer 2 :: views,
      [visit (behind 2) [2, 3, 2], visit (half 1) [2]]⟩ :=
    .step h₃ 9 (i := 0) (o := .ok (some (.integer 2))) rfl rfl (by rintro ⟨⟩)
  have h₅ : Reached ⟨session (some (.integer 1)) (some (.integer 2)),
      .integer 3 :: .integer 2 :: .integer 3 :: .integer 2 :: .integer 2 :: views,
      [visit (behind 2) [2, 3, 2], visit (half 2) [2, 3]]⟩ :=
    .step h₄ 9 (i := 1) (o := .ok (some (.integer 3))) rfl rfl (by rintro ⟨⟩)
  have hthird : list.Has 2 (.value (some (.integer 2))) := ⟨Answer.value_ne_unknown, 9, rfl⟩
  refine ⟨_, _, _, h₅, rfl, rfl, rfl, rfl, rfl, ?_, ?_⟩
  · exact (visits_refine h₅ List.mem_cons_self).1 2 _ rfl
  · refine (visits_refine h₅ (List.mem_cons_of_mem _ List.mem_cons_self)).2 ?_ _ hthird
    rintro ⟨o, ho, limit, rfl⟩
    obtain ⟨i, -, hi⟩ := List.mem_map.mp (List.mem_of_mem_take ho)
    cases hi

end LazyExpr
