import LazyExpr.Proofs.Eval.CacheFree
import LazyExpr.Proofs.Eval.Requests

/-!
# The recursion limit

Evaluations may be nested only so deep.  The limit shows in one way: an evaluation that would pass
it ends with a fault of its own.  The depth is looked at for nothing else, and it is the same again
when an evaluation is over, however it ended.

* `ShallowerBy` compares a run with the same run from a smaller depth; `eval_shallower` says that
  the two are one unless the first reached the limit.
* `nesting` is how many of the evaluations in a list of events are still going on at its end.
* `depth_transparent` — **the limit is not seen unless it is reached, no more evaluations than it
  allows go on at once, and no request changes the depth at which the next begins.**
-/

namespace LazyExpr

open Eval

/-! ## 1. The same run from a smaller depth -/

section Shallower

variable {σ α β γ δ : Type}

/-- How a run ends that began at the depth `d₂` and not at `d₁`: in the same way, each back at the
depth where it began, unless the one from `d₁` ended at the limit. -/
inductive Shallower (P : α → β → Prop) (d₁ d₂ : Nat) : Ended σ α → Ended σ β → Prop where
  | ok {a : α} {b : β} (m : Machine σ) (hdepth : m.depth = d₁) (h : P a b) :
    Shallower P d₁ d₂ (.ok a m) (.ok b { m with depth := d₂ })
  | halt (halt : Halt) (m : Machine σ) :
    Shallower P d₁ d₂ (.error halt m) (.error halt { m with depth := d₂ })
  | limited (limit : Nat) (m : Machine σ) (r : Ended σ β) :
    Shallower P d₁ d₂ (.error (.fault (.recursionLimit limit)) m) r

/-- The run on every machine is the same from every smaller depth, unless it ended at the limit. -/
def ShallowerBy (P : α → β → Prop) (x : Eval σ α) (y : Eval σ β) : Prop :=
  ∀ m d, d ≤ m.depth → Shallower P m.depth d (x m) (y { m with depth := d })

namespace ShallowerBy

variable {P : α → β → Prop} {Q : γ → δ → Prop}

theorem pure {a : α} {b : β} (h : P a b) : ShallowerBy (σ := σ) P (pure a) (pure b) :=
  fun m _ _ => .ok m rfl h

theorem throw (halt : Halt) : ShallowerBy (σ := σ) P (throw halt) (throw halt) :=
  fun m _ _ => .halt halt m

theorem bind {x : Eval σ α} {y : Eval σ β} {f : α → Eval σ γ} {g : β → Eval σ δ}
    (hx : ShallowerBy P x y) (hf : ∀ a b, P a b → ShallowerBy Q (f a) (g b)) :
    ShallowerBy Q (x >>= f) (y >>= g) := by
  intro m d hd
  have hxy := hx m d hd
  rw [bind_run, bind_run]
  generalize x m = r at hxy ⊢
  generalize y { m with depth := d } = r' at hxy ⊢
  cases hxy with
  | ok m' hdepth hab =>
    rw [← hdepth] at hd ⊢
    exact hf _ _ hab m' d hd
  | halt halt m' => exact .halt halt m'
  | limited limit m' => exact .limited limit m' _

theorem onCells (f : Cells → α × Cells) : ShallowerBy (σ := σ) (· = ·) (onCells f) (onCells f) :=
  fun m _ _ => .ok { m with cells := (f m.cells).2 } rfl rfl

theorem newList (xs : List Expr) (env : Env) :
    ShallowerBy (σ := σ) (· = ·) (newList xs env) (newList xs env) := by
  rw [newList_eq]
  exact onCells _

theorem fueled (o : Option α) : ShallowerBy (σ := σ) (· = ·) (fueled o) (fueled o) := by
  cases o with
  | some a => exact pure rfl
  | none => exact throw .outOfFuel

theorem check : ShallowerBy (σ := σ) (fun _ _ => True) check check := by
  intro m d _
  obtain ⟨cells, depth, cancelled, checksLeft, host⟩ := m
  cases cancelled with
  | true => exact .halt _ _
  | false =>
    rcases checksLeft with _ | _ | left
    · exact .ok ⟨cells, depth, false, none, host⟩ rfl trivial
    · exact .halt _ ⟨cells, depth, true, some 0, host⟩
    · exact .ok ⟨cells, depth, false, some left, host⟩ rfl trivial

theorem above {x : Eval σ α} {y : Eval σ β} (h : ShallowerBy P x y) {m : Machine σ} {d : Nat}
    (hd : d ≤ m.depth) :
    Shallower P m.depth d (above m.depth x m) (above d y { m with depth := d }) := by
  have hxy := h { m with depth := m.depth + 1 } (d + 1) (Nat.succ_le_succ hd)
  rw [above_run, above_run]
  generalize x { m with depth := m.depth + 1 } = r at hxy ⊢
  generalize y { m with depth := d + 1 } = r' at hxy ⊢
  cases hxy with
  | ok m' _ hab => exact .ok { m' with depth := m.depth } rfl hab
  | halt halt m' => exact .halt halt { m' with depth := m.depth }
  | limited limit m' => exact .limited limit { m' with depth := m.depth } _

theorem nested {x : Eval σ α} {y : Eval σ β} (h : ShallowerBy P x y) (limit : Option Nat) :
    ShallowerBy P (nested limit x) (nested limit y) := by
  intro m d hd
  cases limit with
  | none => exact h.above hd
  | some l =>
    rw [nested_some, nested_some]
    by_cases hl : l ≤ m.depth
    · rw [if_pos hl]
      exact .limited l m _
    · have hl' : ¬ l ≤ d := by omega
      rw [if_neg hl, if_neg hl']
      exact h.above hd

theorem force (S : Setting σ) (cell : Option Nat) {x y : Eval σ Expr}
    (h : ShallowerBy (· = ·) x y) : ShallowerBy (· = ·) (force S cell x) (force S cell y) := by
  unfold Eval.force
  rw [known_eq]
  refine (onCells _).bind ?_
  rintro seen _ rfl
  cases seen with
  | some v => exact pure rfl
  | none =>
    refine h.bind ?_
    rintro v _ rfl
    rw [remember_eq]
    exact onCells _

end ShallowerBy

/-- The evaluator at two depths. -/
def Bond.shallower (σ : Type) (remembers : Bool) (limit : Option Nat) : Bond σ σ where
  left := .builtins σ remembers limit
  right := .builtins σ remembers limit
  like := .equality Env.lookup
  Ample n g := ∀ i, g i = n
  Follows _ P x y := ShallowerBy (P ()) x (y 0)
  ample_succ := Bond.ample_const
  follows_pure h := .pure h
  follows_bind hx hf := hx.bind fun a b hab => hf () a b trivial hab
  follows_fail h := h.eq ▸ .throw _
  follows_stray _ _ _ hname := hname ▸ .throw _
  follows_zero hample h := by
    rw [h 0 (hample 0)]
    exact .throw _
  follows_check := .check
  follows_nested h := h.nested limit
  follows_newList := by
    rintro w env _ xs xs' rfl h
    obtain rfl := eq_of_forall₂ (h.imp fun _ _ h => h.2)
    exact ShallowerBy.newList xs env
  follows_force := by
    rintro w n g x x' xs xs' env env' cell cell' hample hl hx
    cases hl
    exact ShallowerBy.force _ cell hx
  follows_display := by
    rintro w n g v _ hample rfl
    obtain rfl : g = fun _ => n := funext hample
    exact ShallowerBy.fueled (v.display? n)
  follows_perform := by
    rintro w n g args args' entry hample h
    obtain rfl : g = fun _ => n := funext hample
    cases n with
    | zero => exact ShallowerBy.throw .outOfFuel
    | succ n => exact ShallowerBy.pure rfl

/-- **A limit that is not reached is not reached from a smaller depth either**, and the run is the
same. -/
theorem eval_shallower (remembers : Bool) (limit : Option Nat) (n : Nat) (env : Env) (e : Expr) :
    ShallowerBy (σ := σ) (· = ·) (eval (.builtins σ remembers limit) n env e)
      (eval (.builtins σ remembers limit) n env e) :=
  ((Bond.shallower σ remembers limit).sound n (fun _ => n) fun _ => rfl).eval (w := ()) ⟨rfl, rfl⟩

/-- The run from a smaller depth, of a run that did not end at the limit. -/
theorem Shallower.eq {d₁ d₂ : Nat} {r r' : Ended σ α} (h : Shallower (· = ·) d₁ d₂ r r')
    (hlimit : ∀ l m, r ≠ .error (.fault (.recursionLimit l)) m) : r' = Ended.atDepth d₂ r := by
  cases h with
  | ok m _ h => exact h ▸ rfl
  | halt halt m => rfl
  | limited l m => exact absurd rfl (hlimit l m)

end Shallower

/-! ## 2. How many evaluations go on -/

/-- By how much an event changes the number of evaluations that go on. -/
def Event.nesting : Event → Int
  | .opened => 1
  | .closed => -1
  | _ => 0

/-- How many evaluations go on after some events. -/
def nesting : List Event → Int
  | [] => 0
  | event :: events => event.nesting + nesting events

@[simp] theorem nesting_nil : nesting [] = 0 := rfl

@[simp] theorem nesting_append (before after : List Event) :
    nesting (before ++ after) = nesting before + nesting after := by
  induction before with
  | nil => exact (Int.zero_add _).symm
  | cons event before ih => rw [List.cons_append, nesting, ih, nesting, Int.add_assoc]

@[simp] theorem nesting_singleton (event : Event) : nesting [event] = event.nesting :=
  Int.add_zero _

theorem Event.nesting_eq_zero {event : Event} (h : event ≠ .opened ∧ event ≠ .closed) :
    event.nesting = 0 := by
  cases event with
  | opened => exact absurd rfl h.1
  | closed => exact absurd rfl h.2
  | _ => rfl

section Level

variable {σ : Type} {base limit : Nat} {m m' : Machine (σ × List Event)}

/-- The depth is the depth at the beginning and one for each evaluation that goes on, and it has
never passed the limit. -/
structure Level (base limit : Nat) (m : Machine (σ × List Event)) : Prop where
  depth : (m.depth : Int) = base + nesting m.host.2
  bounded : ∀ before, before <+: m.host.2 → base + nesting before ≤ limit

/-- One more event. -/
theorem Level.note (hm : Level base limit m) {event : Event} {depth : Nat}
    (hdepth : (depth : Int) = m.depth + event.nesting) (hlimit : depth ≤ limit) :
    Level base limit { (Watch.log σ).after event m with depth } := by
  have hafter : base + nesting (m.host.2 ++ [event]) = (depth : Int) := by
    rw [nesting_append, nesting_singleton, hdepth, hm.depth]
    omega
  refine ⟨hafter.symm, fun before hbefore => ?_⟩
  rcases List.prefix_concat_iff.mp hbefore with rfl | hbefore
  · rw [hafter]
    omega
  · exact hm.bounded before hbefore

/-- The depth has not passed the limit now. -/
theorem Level.depth_le (hm : Level base limit m) : m.depth ≤ limit := by
  have h := hm.bounded m.host.2 List.prefix_rfl
  have hdepth := hm.depth
  omega

/-- What is kept is the depth. -/
def Regime.level (σ : Type) (base limit : Nat) : Regime σ :=
  .ofMachine (Level base limit) (fun m m' => m'.depth = m.depth) (fun _ => rfl)
    fun _ _ _ h h' => h'.trans h

theorem Regime.level_laws {S : Setting σ} (hlimit : S.depthLimit = some limit) :
    (Regime.level σ base limit).Laws S := by
  refine Regime.laws_ofMachine ?_ ?_ ?_ ?_ ?_ ?_ ?_
  · exact fun hm _ _ => ⟨⟨hm.depth, hm.bounded⟩, rfl⟩
  · intro m event hm hevent
    refine ⟨hm.note ?_ hm.depth_le, rfl⟩
    rw [Event.nesting_eq_zero hevent, Int.add_zero]
  · exact fun hm => ⟨⟨hm.depth, hm.bounded⟩, rfl⟩
  · intro m hm hdepth
    have hlt : m.depth < limit := hdepth limit hlimit
    have hdepth : ((m.depth + 1 : Nat) : Int) = m.depth + Event.opened.nesting := by
      rw [Event.nesting]
      omega
    exact hm.note hdepth hlt
  · intro m m' hm hm' hkept
    have hkept : m'.depth = m.depth + 1 := hkept
    have hdepth : (m.depth : Int) = m'.depth + Event.closed.nesting := by
      rw [Event.nesting, hkept]
      omega
    exact ⟨hm'.note hdepth hm.depth_le, rfl⟩
  · exact fun _ hm => ⟨⟨hm.depth, hm.bounded⟩, rfl⟩
  · intro m a v hm
    rw [fill_eq]
    exact ⟨⟨hm.depth, hm.bounded⟩, rfl⟩

/-- At the beginning no evaluation goes on. -/
theorem Level.observed {m : Machine σ} (hm : m.depth ≤ limit) :
    Level m.depth limit m.observed := by
  refine ⟨by simp [Machine.observed], fun before hbefore => ?_⟩
  rw [List.prefix_nil.mp hbefore, nesting_nil]
  omega

end Level

/-! ## 3. The limit -/

section Limit

variable {σ : Type}

/-- Every single evaluation comes back to the depth where it began. -/
theorem eval_level (S : Setting σ) {limit : Nat} (hlimit : S.depthLimit = some limit) (n : Nat)
    (env : Env) (e : Expr) {m : Machine σ} (hm : m.depth ≤ limit) :
    let r := (Engine.watched S n).eval env e m.observed
    eval S n env e m = Ended.onMachine Machine.unwatched r ∧ (Ended.machine r).depth = m.depth ∧
      ∀ before, before <+: (Ended.machine r).host.2 → m.depth + nesting before ≤ limit := by
  have hlaws : (Regime.level σ m.depth limit).Laws S := Regime.level_laws hlimit
  have hholds : (Regime.level σ m.depth limit).Holds () (fun _ _ => True)
      ((Engine.watched S n).eval env e) (eval S n env e) := (hlaws.sound n).eval trivial
  obtain ⟨hsame, _, -, hfits, hkept, -⟩ := hholds m.observed (.observed hm)
  exact ⟨hsame, hkept, hfits.bounded⟩

/-- Whatever is asked for, one thing after another, each begins at the same depth. -/
theorem history_level (S : Setting σ) {limit : Nat} (hlimit : S.depthLimit = some limit)
    {C : Client σ} (hC : C.machine.depth ≤ limit) (requests : List (Nat × Request)) :
    let C' := C.observed.history (Engine.watched S) requests
    C'.unwatched = C.history (Engine.actual S) requests ∧ C'.machine.depth = C.machine.depth ∧
      ∀ before, before <+: C'.log → C.machine.depth + nesting before ≤ limit := by
  have hlaws : (Regime.level σ C.machine.depth limit).Laws S := Regime.level_laws hlimit
  have howns : (Regime.level σ C.machine.depth limit).Owns () C.observed :=
    ⟨.observed hC, fun _ _ => trivial, fun _ _ => trivial⟩
  have hadmits : ∀ r ∈ requests, (Regime.level σ C.machine.depth limit).Admits r.2 :=
    fun r _ => Regime.admits_ofMachine r.2
  obtain ⟨hsame, _, -, hkept, howns⟩ := hlaws.history (fun _ _ => trivial) howns hadmits
  exact ⟨hsame.symm, hkept, howns.machine.bounded⟩

/-- **The recursion limit is transparent, and leaves the machine as it found it.** An evaluation
over the built-in functions that does not end at the limit ends in the same way from every smaller
depth.  With any functions of an application beside these, the evaluations that go on at once are
never more than the limit allows, and each of them comes back to the depth where it began, whatever
its end; so does everything that can be asked for. -/
theorem depth_transparent (host : Host σ) :
    (∀ n env e (m : Machine σ) (d₁ d₂ : Nat), d₂ ≤ d₁ →
      let run d := eval (.builtins σ true (some maxDepth)) n env e { m with depth := d }
      (∀ l m', run d₁ ≠ .error (.fault (.recursionLimit l)) m') →
      run d₂ = Ended.atDepth d₂ (run d₁)) ∧
    (∀ n env e (m : Machine σ), m.depth ≤ maxDepth →
      let r := (Engine.watched { host } n).eval env e m.observed
      eval { host } n env e m = Ended.onMachine Machine.unwatched r ∧
        (Ended.machine r).depth = m.depth ∧
        ∀ before, before <+: (Ended.machine r).host.2 → m.depth + nesting before ≤ maxDepth) ∧
    ∀ (C : Client σ) (requests : List (Nat × Request)), C.machine.depth ≤ maxDepth →
      let C' := C.observed.history (Engine.watched { host }) requests
      C'.unwatched = C.history (Engine.actual { host }) requests ∧
        C'.machine.depth = C.machine.depth ∧
        ∀ before, before <+: C'.log → C.machine.depth + nesting before ≤ maxDepth := by
  refine ⟨fun n env e m d₁ d₂ hd => ?_, fun n env e m hm => eval_level _ rfl n env e hm,
    fun C requests hC => history_level _ rfl hC requests⟩
  exact (eval_shallower true (some maxDepth) n env e { m with depth := d₁ } d₂ hd).eq

end Limit

/-- A function that is applied to itself for ever gets to the limit, not beyond it, and all the way
back.  The identity needs few levels, and ends alike at the depths 0 and 9. -/
theorem depth_transparent_runaway :
    let ω : Expr := .lambda 1 ["f"] (.call (.argument ⟨1, 0, "f"⟩) (.argument ⟨1, 0, "f"⟩))
    let m : Machine Unit := .fresh ()
    let id : Expr := .lambda 1 ["x"] (.argument ⟨1, 0, "x"⟩)
    let run d := eval (.builtins Unit true (some maxDepth)) 9 .top (.call id .null)
      { m with depth := d }
    let r := (Engine.watched { host := Host.absent } 400).eval .top (.call ω ω) m.observed
    (∀ l m', run 9 ≠ .error (.fault (.recursionLimit l)) m') ∧ run 0 = Ended.atDepth 0 (run 9) ∧
    (∃ before, before <+: (Ended.machine r).host.2 ∧ nesting before = maxDepth) ∧
      (Ended.machine r).depth = m.depth ∧
      ∀ before, before <+: (Ended.machine r).host.2 → m.depth + nesting before ≤ maxDepth := by
  intro ω m id run
  have hrun : run 9 = .ok .null { m with depth := 9 } := by cbv
  have hruns : ∀ l m', run 9 ≠ .error (.fault (.recursionLimit l)) m' := by rw [hrun]; nofun
  have hsame := (depth_transparent Host.absent).1 9 .top (.call id .null) m 9 0
    (Nat.zero_le 9) hruns
  have hlevel := (depth_transparent Host.absent).2.1 400 .top (.call ω ω) m (Nat.zero_le maxDepth)
  refine ⟨hruns, hsame, ⟨_, List.take_prefix 758 _, ?_⟩, hlevel.2⟩
  decide +kernel

end LazyExpr
