import LazyExpr.Proofs.Eval.CatchUp
import LazyExpr.Proofs.Eval.Stands
import LazyExpr.Proofs.Eval.Uncaptured

/-!
# Functions mean what they show

A closure is shown with its captured arguments in their places.  Read again, the text may mean
something else: an argument with a minus sign becomes a subtraction, the name of a built-in function
the name of a parameter.  Where none of this happens, what is read is evaluated to a value that
behaves like the one that was shown.

* `Reread.evaluates`: **what is read for a value is evaluated to what stands for it.**
* `Bond.stands` and `Bond.standsBack`: a value and what stands for it catch up with each other.
* `BehavesLike v v'`: what the two are applied to and what is taken from them, the same comes of it.
* `parse_display_behaves`: **a function or a list means what it shows.**
* `captured_shown_differently`: what captured arguments may come to mean.
-/

namespace LazyExpr

open Eval

/-! ## 1. Evaluation of what was read -/

/-- A number that stays is read with the digits it has. -/
theorem Number.Stays.pointed_eq {n : Number} (h : n.Stays) : n.pointed = n := by
  cases n with
  | integer n => rfl
  | decimal d => exact congrArg Number.decimal h

theorem Number.Stays.map_pointed {o : Option Number} (h : ∀ n ∈ o, n.Stays) :
    o.map Number.pointed = o := by
  cases o with
  | none => rfl
  | some n => exact congrArg some (h n rfl).pointed_eq

/-- What stands for a function takes as many arguments. -/
theorem Stands.takes_eq {f f' : Expr} (h : Stands .value f f') : f'.takes = f.takes := by
  cases h <;> rfl

/-- What stands for a list is a list. -/
theorem Stands.exists_list {l : LazyList} {v' : Expr} (h : Stands .value (.list l) v') :
    ∃ l', v' = .list l' ∧ Stands .value (.list l) (.list l') := by
  obtain ⟨l', rfl⟩ : ∃ l', v' = .list l' := by
    cases h <;> exact ⟨_, rfl⟩
  exact ⟨l', rfl, h⟩

/-- **What is read for a value is evaluated to what stands for it.** -/
theorem Reread.evaluates {fixed : Bool} {scope : Scope} {v e' : Expr}
    (h : Reread fixed .value scope v e')
    {env : Env} (hroom : env.Admits fixed scope) : Evaluates env e' (Stands .value v) := by
  generalize hplace : Place.value = place at h
  induction h generalizing env with
  | @number _ _ _ n hstays =>
    refine .of_steps 3 3 fun fuel => (gives_number (S := .cacheFree) n env).imp ?_
    rintro _ rfl
    rw [hstays.pointed_eq]
    exact .atom rfl
  | bool | str | null => exact .atom rfl (.atom rfl)
  | builtin => exact .builtin _ (.function _)
  | leftSection op _ ih =>
    exact (ih hroom hplace).kept (.leftSection op) (fun _ => rfl) fun _ => .leftSection op
  | @rightSection _ _ _ op _ _ _ _ ih =>
    exact (ih hroom hplace).kept (.rightSection op) (fun _ => rfl) fun _ => .rightSection op
  | @closure _ scope depth names _ _ own _ _ henv h =>
    refine .lambda (.closure h (.inside henv hroom.below) ⟨Nat.le_refl depth, Nat.add_comm _ _⟩ ?_)
    intro slot _ v _ hslot hv _
    rw [henv.lookup_eq_none hslot.1] at hv
    cases hv
  | @applied _ _ f f' args g _ _ hne hlength ihf ih =>
    have hf : Evaluates env f' fun v => ∃ f' ys, Stands .value f f' ∧
        List.Forall₂ (Stands .value) [] ys ∧ v = received f' ys :=
      (ihf hroom hplace).imp fun f' h => ⟨f', [], h, .nil, rfl⟩
    have hall := evaluates_arguments (fun _ h => h.takes_eq) (by simpa using hlength) hf
      fun x hx => ih x hx hroom hplace
    refine hall.imp ?_
    rintro _ ⟨f', ys, hf', hys, rfl⟩
    cases hys with
    | nil => exact absurd rfl hne
    | cons hy hys => exact .applied_of hf' (.cons hy hys)
  | items cell g h =>
    refine .literal fun cell' => .items_of cell cell' (forall₂_map fun x hx => ?_)
    have hstands : Stands (.code (Env.orElse _ .top) env) x (g x) := stands_element hroom (h x hx)
    rwa [Env.orElse_top] at hstands
  | @progression _ _ p h =>
    obtain ⟨step, hstep, hback⟩ := h.step
    have hnumbers : rangeStep? p.start.pointed (p.second?.map Number.pointed) = some step := by
      rw [h.start.pointed_eq, Number.Stays.map_pointed h.second, hstep]
    refine .of_steps 4 4 fun fuel => (gives_range (S := .cacheFree) p.stop hnumbers env).imp ?_
    rintro _ rfl
    rw [h.start.pointed_eq, Number.Stays.map_pointed h.stop, hback]
    exact .progression p
  | prepend _ _ ihx ihl =>
    refine (ihx hroom hplace).binary (ihl hroom hplace) (by decide) fun x v hx hv => ?_
    obtain ⟨l, rfl, hl⟩ := hv.exists_list
    exact ⟨_, rfl, .prepend hx hl⟩
  | concat _ _ iha ihb =>
    refine (iha hroom hplace).binary (ihb hroom hplace) (by decide) fun u v hu hv => ?_
    obtain ⟨a, rfl, ha⟩ := hu.exists_list
    obtain ⟨b, rfl, hb⟩ := hv.exists_list
    exact ⟨_, rfl, .concat ha hb⟩
  | mapped _ _ _ ihf ihl =>
    exact evaluates_view .mapped rfl (ihf hroom hplace)
      ((ihl hroom hplace).imp fun _ => Stands.exists_list)
      (fun _ _ _ _ => rfl) fun _ _ => .mapped
  | filtered _ _ _ ihf ihl =>
    exact evaluates_view .filtered rfl (ihf hroom hplace)
      ((ihl hroom hplace).imp fun _ => Stands.exists_list)
      (fun _ _ _ _ => rfl) fun _ _ => .filtered
  | dropped _ hcount _ ihl =>
    exact evaluates_dropped hcount ((ihl hroom hplace).imp fun _ => Stands.exists_list) fun _ =>
      .dropped _
  | _ => cases hplace

/-! ## 2. What stands for a value does the same -/

/-- The runs of an expression that is evaluated to a value, with whatever fuel. -/
theorem Evaluates.runs {env : Env} {e : Expr} {P : Expr → Prop} (h : Evaluates env e P)
    {m : Machine Unit} (hm : m.Plain) : ∃ v m', m'.Plain ∧ P v ∧
      (∃ k, ∀ n, k ≤ n → eval .cacheFree n env e m = .ok v m') ∧
      ∀ n, eval .cacheFree n env e m = .ok v m' ∨
      ∃ m', eval .cacheFree n env e m = .error .outOfFuel m' := by
  obtain ⟨k, h⟩ := h
  obtain ⟨v, m', hrun, hm', -, hv⟩ := h k (Nat.le_refl k) m hm nofun
  have hsettles : ∀ n, Settles (fun i => eval .cacheFree (n + i) env e m) (.ok v m') := fun n =>
    settles_eval hrun fun _ => nofun
  obtain ⟨j, hj⟩ := (hsettles 0).later
  refine ⟨v, m', hm', hv, ⟨j, fun n hn => ?_⟩, fun n => (hsettles n).first⟩
  rw [← hj n hn, Nat.zero_add]

/-- Two expressions that are evaluated to values. -/
theorem CatchesUp.of_evaluates {env env' : Env} {e e' : Expr} {P Q : Expr → Prop}
    {R : Expr → Expr → Prop} (h : Evaluates env e P) (h' : Evaluates env' e' Q)
    (hR : ∀ a b, P a → Q b → R a b) (n : Nat) :
    CatchesUp R (eval .cacheFree n env e) fun i => eval .cacheFree i env' e' := by
  intro m m' hm hm'
  obtain ⟨a, m₁, hm₁, ha, -, hends⟩ := h.runs hm
  obtain ⟨b, m₁', hm₁', hb, hends', -⟩ := h'.runs hm'
  rcases hends n with hok | ⟨m₂, hunknown⟩
  · rw [hok]
    exact .ok hm₁ hm₁' (hR a b ha hb) hends'
  · rw [hunknown]
    exact .unknown m₂ _

/-- What is found at once is what the other is evaluated to. -/
theorem Respelled.evaluates {here here' : Env} {e e' : Expr} (h : Respelled here here' e e') :
    ∃ v, Evaluates here e (· = v) ∧ Evaluates here' e' (Stands .value v) := by
  cases h with
  | @captured _ _ slot v _ hslot h hroom =>
    refine ⟨v, .of_steps 1 1 fun fuel => Gives.checked ?_, h.evaluates hroom⟩
    have hfind : Setting.cacheFree.find slot here = some v := hslot
    simp only [hfind]
    exact .pure rfl
  | done hdone h hroom =>
    exact ⟨_, .of_steps 1 1 fun fuel => gives_done (S := .cacheFree) hdone, h.evaluates hroom⟩

/-- What is shown alike is shown with the same text, once there is fuel enough. -/
theorem ShownAlike.display {v v' : Expr} (h : ShownAlike .top .top v v') {n : Nat} {text : String}
    (hn : v.display? n = some text) : ∃ k, ∀ fuel, k ≤ fuel → v'.display? fuel = some text := by
  obtain ⟨u, u', ⟨j, hu⟩, ⟨k, hu'⟩, htext, -⟩ := h
  have hlater := display_mono (Nat.le_max_left n j) v text hn
  rw [Expr.display?, hu _ (Nat.le_max_right n j)] at hlater
  obtain rfl : u.source = text := Option.some.inj hlater
  exact ⟨k, fun fuel hfuel => by rw [Expr.display?, hu' fuel hfuel, ← htext]; rfl⟩

/-- What stands for a value catches up with it. -/
def Bond.stands : Bond Unit Unit :=
  .catchUp .stands (fun _ h cell cell' => .items_of cell cell' h)
    (fun h n => by
      obtain ⟨v, hleft, hright⟩ := h.evaluates
      exact .of_evaluates hleft hright (fun a b ha hb => ha ▸ hb) n)
    fun h _ _ hn => (h.showsIn .top .top).display hn

/-- The value catches up with what stands for it. -/
def Bond.standsBack : Bond Unit Unit :=
  .catchUp Likeness.stands.swap (fun _ h cell cell' => .items_of cell' cell h.flip)
    (fun h n => by
      obtain ⟨v, hleft, hright⟩ := h.evaluates
      exact .of_evaluates hright hleft (fun a b ha hb => hb ▸ ha) n)
    fun h _ _ hn => (h.showsIn .top .top).symm.display hn

/-- To an evaluator, what is the same up to cells is the same. -/
def Bond.alike : Bond Unit Unit :=
  .catchUp (.alike .free)
    (fun henv hxs cell cell' => Tenure.free_value
      (congrArg Expr.list (items_alike (hxs.imp fun _ _ h => h.2.1) henv.1 cell cell')))
    (fun h _ => h.elim)
    fun hv n text hn => ⟨n, fun _ hfuel => display_mono hfuel _ text (display_alike hv.1 n ▸ hn)⟩

/-! ## 3. What a value is used for -/

/-- A function that is applied to arguments, one after another. -/
theorem Bond.follows_applied {σ τ : Type} {B : Bond σ τ} {n : Nat} {g : Nat → Nat}
    (ih : B.Sound n g)
    {w : B.like.World} {args args' : List Expr} (hargs : List.Forall₂ (B.like.value w) args args') :
    ∀ {w' : B.like.World} {v v' : Expr}, B.like.le w w' → B.like.value w' v v' →
      B.Follows w' B.like.value (args.foldlM (apply B.left n) v) fun i =>
        args'.foldlM (apply B.right (g i)) v' := by
  induction hargs with
  | nil => exact fun _ hv => B.follows_pure hv
  | cons ha _ hrest =>
    intro w' v v' hle hv
    simp only [List.foldlM_cons]
    refine B.follows_bind (ih.apply hv (B.like.value_mono hle ha)) fun w₂ u u' h₂ hu => ?_
    exact hrest (B.like.le_trans hle h₂) hu

/-- What a value is used for: it is applied to arguments, or elements are taken from it. -/
inductive Use where
  | apply (args : List Expr)
  | take (count : Int64)

namespace Use

/-- What using the value gives. -/
def run {σ : Type} (S : Setting σ) (n : Nat) : Use → Expr → Eval σ Expr
  | apply args, v => args.foldlM (Eval.apply S n) v
  | take count, v =>
    Eval.apply S n (.applied (.function Builtin.take.toFunction) [.integer count]) v

/-- The text of what using the value gives. -/
def text (use : Use) (n : Nat) (v : Expr) : Answer String :=
  .ofRun id ((use.run .cacheFree n v >>= render .cacheFree n) (.fresh ()))

/-- All arguments are data. -/
def OfData : Use → Prop
  | apply args => ∀ a ∈ args, ∃ d, IsData d a
  | take _ => True

end Use

/-- Whatever the two are used for, the same comes of it: a text, a fault of the same variant, or
nothing ever. -/
def BehavesLike (v v' : Expr) : Prop :=
  ∀ use : Use, use.OfData → ∃ answer,
    Tends (fun n => (use.text n v).variant) answer ∧ Tends (fun n => (use.text n v').variant) answer

/-- Values that are the same are used alike. -/
theorem Bond.follows_use {σ τ : Type} {B : Bond σ τ} {n : Nat} {g : Nat → Nat}
    (hample : B.Ample n g)
    {w : B.like.World} (hdata : ∀ d a, IsData d a → B.like.value w a a) {use : Use}
    (huse : use.OfData)
    {v v' : Expr} (hv : B.like.value w v v') :
    B.Follows w (fun _ text text' => text = text') (use.run B.left n v >>= render B.left n) fun i =>
      use.run B.right (g i) v' >>= render B.right (g i) := by
  have ih := B.sound n g hample
  refine B.follows_bind (P := B.like.value) ?_ fun w₁ u u' _ hu => follows_render hample hu
  cases use with
  | apply args =>
    have hargs : List.Forall₂ (B.like.value w) args args := List.forall₂_same.2 fun a ha => by
      obtain ⟨d, hd⟩ := huse a ha
      exact hdata d a hd
    exact follows_applied ih hargs (B.like.le_refl w) hv
  | take count =>
    have hcount : B.like.value w (.integer count) (.integer count) := B.like.value_built (.atom rfl)
    have htake : B.like.value w (.function Builtin.take.toFunction)
      (.function Builtin.take.toFunction) :=
      B.like.value_built (.function _)
    exact ih.apply (B.like.value_built (.applied htake (.cons hcount .nil))) hv

/-- Two values of which each catches up with the other behave alike. -/
theorem behavesLike_of_catchUp {v v' : Expr}
    (h : ∀ use : Use, use.OfData →
      ∀ n, CatchesUp (· = ·) (use.run .cacheFree n v >>= render .cacheFree n)
      fun i => use.run .cacheFree (n + i) v' >>= render .cacheFree (n + i))
    (h' : ∀ use : Use, use.OfData →
      ∀ n, CatchesUp (· = ·) (use.run .cacheFree n v' >>= render .cacheFree n)
      fun i => use.run .cacheFree (n + i) v >>= render .cacheFree (n + i)) : BehavesLike v v' :=
  fun use huse => Tends.both (fun n => (h use huse n).answer_eq) fun n => (h' use huse n).answer_eq

theorem stands_data {d : Nat} {v : Expr} (h : IsData d v) : Stands .value v v := by
  induction h with
  | number | bool | str | null => exact .atom rfl
  | range => exact .progression _
  | items cell _ ih => exact .items_of cell cell (List.forall₂_same.2 fun x hx => .again (ih x hx))

/-- **What stands for a value behaves like it.** -/
theorem Stands.behavesLike {v v' : Expr} (h : Stands .value v v') : BehavesLike v v' :=
  behavesLike_of_catchUp
    (fun _ huse n => Bond.stands.follows_use (n := n) (g := fun i => n + i) (w := ())
      (fun _ => Nat.le_refl _) (fun _ _ => stands_data) huse h)
    fun _ huse n => Bond.standsBack.follows_use (n := n) (g := fun i => n + i) (w := ())
      (fun _ => Nat.le_refl _) (fun _ _ => stands_data) huse h

/-- What is the same up to cells behaves alike. -/
theorem Expr.Alike.behavesLike {v v' : Expr} (h : v.Alike v') : BehavesLike v v' :=
  behavesLike_of_catchUp
    (fun _ huse n => Bond.alike.follows_use (n := n) (g := fun i => n + i) (w := ())
      (fun _ => Nat.le_refl _) (fun _ _ _ => Tenure.free_value rfl) huse (Tenure.free_value h))
    fun _ huse n => Bond.alike.follows_use (n := n) (g := fun i => n + i) (w := ())
      (fun _ => Nat.le_refl _) (fun _ _ _ => Tenure.free_value rfl) huse (Tenure.free_value h.symm)

/-! ## 4. What is shown -/

/-- What a text is read as is evaluated to something. -/
theorem Evaluates.value {e : Expr} {P : Expr → Prop} (h : Evaluates .top e P) :
    ∃ v m, (∃ n, ∀ fuel, n ≤ fuel → eval .cacheFree fuel .top e (.fresh ()) = .ok v m) ∧ P v := by
  obtain ⟨v, m, -, hv, hruns, -⟩ := h.runs (Machine.fresh_plain ())
  exact ⟨v, m, hruns, hv⟩

/-- **A function or a list means what it shows**: if its text is not nested too deeply, it is read,
and evaluated to a value that behaves alike. -/
theorem parse_display_behaves {v : Expr}
    (h : Uncaptured v ∨ ∃ e, Reread false .value .standard v e) :
    ∃ text, (∃ n, ∀ fuel, n ≤ fuel → v.display? fuel = some text) ∧
      ((∃ e v' m, parse text = .ok e ∧
          (∃ n, ∀ fuel, n ≤ fuel → eval .cacheFree fuel .top e (.fresh ()) = .ok v' m) ∧
          BehavesLike v v') ∨
        ∃ error, parse text = .error error ∧ error.IsNestingLimit) := by
  obtain ⟨text, e, hdisplay, hparse, hvalue⟩ : ∃ text e,
      (∃ n, ∀ fuel, n ≤ fuel → v.display? fuel = some text) ∧
      (parse text = .ok e ∨ ∃ error, parse text = .error error ∧ error.IsNestingLimit) ∧
      Evaluates .top e (BehavesLike v) := by
    rcases h with h | ⟨e, h⟩
    · obtain ⟨ts, hwritten⟩ := written_uncaptured h
      refine ⟨v.source, v.spelling, display_uncaptured h, parse_written hwritten, ?_⟩
      refine (evaluates_spelling h).imp fun v' halike => ?_
      have hback : v.Alike v' := halike.symm
      exact hback.behavesLike
    · obtain ⟨ts, hwritten⟩ := written_source h.readable Scope.faithful_standard
      have hroom : Env.top.Admits false .standard := ⟨fun _ => trivial, fun _ => .inr rfl⟩
      refine ⟨e.source, e, h.display, parse_written hwritten, ?_⟩
      exact (h.evaluates hroom).imp fun _ hstands => hstands.behavesLike
  refine ⟨text, hdisplay, hparse.imp_left fun hok => ?_⟩
  obtain ⟨v', m, hruns, hlike⟩ := hvalue.value
  exact ⟨e, v', m, hok, hruns, hlike⟩

/-- A function that captured a number, which stands where the parameter was. -/
theorem parse_display_behaves_adder :
    let v : Expr := .closure 2 ["y"] (.binary .add (.argument ⟨1, 0, "x"⟩) (.argument ⟨2, 0, "y"⟩))
      (.frame 1 ["x"] [.integer 1] .top)
    (∃ e, Reread false .value .standard v e) ∧
      ∃ text, (∃ n, ∀ fuel, n ≤ fuel → v.display? fuel = some text) ∧
        ((∃ e v' m, parse text = .ok e ∧
            (∃ n, ∀ fuel, n ≤ fuel → eval .cacheFree fuel .top e (.fresh ()) = .ok v' m) ∧
            BehavesLike v v') ∨
          ∃ error, parse text = .error error ∧ error.IsNestingLimit) := by
  intro v
  have hv : ∃ e, Reread false .value .standard v e := by
    have hone : Number.Stays (.integer 1) := by
      intro h
      cases h
    have hname : Lexeme.IsName "y" := ⟨⟨'y', [], rfl, rfl, rfl⟩, rfl⟩
    let region : Region := .inside (.frame 1 ["x"] [.integer 1] .top) 2 1
    have hx : Reread false (.code region) (Scope.standard.inside ["y"]) (.argument ⟨1, 0, "x"⟩)
        (Number.integer 1).spelling := .captured rfl (.number hone rfl)
    have hslot : region.Own ⟨2, 0, "y"⟩ ⟨1, 0, "y"⟩ := ⟨Nat.le_refl 2, rfl, rfl, rfl⟩
    have hy : Reread false (.code region) (Scope.standard.inside ["y"]) (.argument ⟨2, 0, "y"⟩)
        (.argument ⟨1, 0, "y"⟩) := .parameter hslot rfl
    exact ⟨_, .closure (List.cons_ne_nil _ _) (List.forall_mem_singleton.2 hname)
      (Nat.lt_succ_self 1) (.binary .add hx hy)⟩
  exact ⟨hv, parse_display_behaves (.inr hv)⟩

/-- The text is evaluated to the value. -/
def Denotes (source : String) (v : Expr) : Prop :=
  ∃ e, parse source = .ok e ∧ (eval .standard 9 .top e).result (.fresh ()) = .ok v

/-- What `source` denotes is shown as `text`; applied to `a` it gives `r`, and what `text` denotes
gives `r'`. -/
def ReadOtherwise (source text : String) (a : Expr) (r r' : Except Failure Expr) : Prop :=
  ∃ v w, Denotes source v ∧ v.display? 9 = some text ∧ Denotes text w ∧
    (apply .standard 15 v a).result (.fresh ()) = r ∧
      (apply .standard 15 w a).result (.fresh ()) = r'

/-- **Captured arguments may come to mean something else.** A negative zero is shown without
parentheses, and behind a function it is read as a difference; a built-in function is shown by its
name, and under a parameter of that name it is read as the parameter. A whole decimal is shown with
a digit behind the point that it need not have; the least integer is read as a difference, which is
not shown in parentheses; and a parameter in a list that was evaluated outside of every call is
taken for a captured argument. -/
theorem captured_shown_differently :
    ReadOtherwise "(\\x -> \\f -> f x) (-0.0)" "\\f -> f -0.0" (.integer 1)
      (.error (.fault (.notCallable (.integer 1))))
      (.ok (.decimal ⟨false, 1, 0, by decide, by decide⟩)) ∧
    ReadOtherwise "(\\f -> \\sum -> f [1]) sum" "\\sum -> sum [1]" (.integer 1)
      (.ok (.decimal ⟨false, 1, 0, by decide, by decide⟩))
      (.error (.fault (.notCallable (.integer 1)))) ∧
    ReadOtherwise "(\\x -> \\y -> x * y) (sum [1])" "\\y -> 1.0 * y"
      (.decimal ⟨false, 25, 1, by decide, by decide⟩)
      (.ok (.decimal ⟨false, 25, 1, by decide, by decide⟩))
      (.ok (.decimal ⟨false, 250, 2, by decide, by decide⟩)) ∧
    ReadOtherwise "(\\x -> \\z -> join \"\" [\\y -> x]) (-9223372036854775807 - 1)"
      "\\z -> join \"\" [\\y -> (-9223372036854775807 - 1)]" .null
      (.ok (.str "\\y -> (-9223372036854775807 - 1)"))
      (.ok (.str "\\y -> -9223372036854775807 - 1")) ∧
    ReadOtherwise "(\\x y -> \\z -> head y z) 5 [\\a -> a]" "\\z -> head [\\a -> 5] z" .null
      (.ok .null) (.ok (.integer 5)) := by
  refine ⟨?negativeZero, ?shadowed, ?scale, ?leastInteger, ?parameter⟩
  case negativeZero =>
    let zero : Decimal := ⟨false, 0, 1, by decide, by decide⟩
    let body : Expr := .call (.argument ⟨2, 0, "f"⟩) (.argument ⟨1, 0, "x"⟩)
    let e : Expr := .call (.lambda 1 ["x"] (.lambda 2 ["f"] body)) (.unary .negate (.decimal zero))
    let read : Expr := .binary .sub (.argument ⟨1, 0, "f"⟩) (.decimal zero)
    exact ⟨.closure 2 ["f"] body (.frame 1 ["x"] [.decimal zero.neg] .top),
      .closure 1 ["f"] read .top,
      ⟨e, by cbv, by cbv⟩, by cbv, ⟨.lambda 1 ["f"] read, by cbv, by cbv⟩, by cbv, by cbv⟩
  case shadowed =>
    let sum : Expr := .function Builtin.sum.toFunction
    let body (f : Expr) : Expr := .call f (.literal [.integer 1])
    let e : Expr := .call (.lambda 1 ["f"] (.lambda 2 ["sum"] (body (.argument ⟨1, 0, "f"⟩)))) sum
    let read : Expr := body (.argument ⟨1, 0, "sum"⟩)
    exact ⟨.closure 2 ["sum"] (body (.argument ⟨1, 0, "f"⟩)) (.frame 1 ["f"] [sum] .top),
      .closure 1 ["sum"] read .top, ⟨e, by cbv, by cbv⟩, by cbv,
      ⟨.lambda 1 ["sum"] read, by cbv, by cbv⟩, by cbv, by cbv⟩
  case scale =>
    let one : Expr := .decimal ⟨false, 1, 0, by decide, by decide⟩
    let body (x : Expr) (d : Nat) : Expr := .binary .mul x (.argument ⟨d, 0, "y"⟩)
    let e : Expr := .call (.lambda 1 ["x"] (.lambda 2 ["y"] (body (.argument ⟨1, 0, "x"⟩) 2)))
      (.call (.function Builtin.sum.toFunction) (.literal [.integer 1]))
    let read : Expr := body (.decimal ⟨false, 10, 1, by decide, by decide⟩) 1
    exact ⟨.closure 2 ["y"] (body (.argument ⟨1, 0, "x"⟩) 2) (.frame 1 ["x"] [one] .top),
      .closure 1 ["y"] read .top, ⟨e, by cbv, by cbv⟩, by cbv,
      ⟨.lambda 1 ["y"] read, by cbv, by cbv⟩, by rfl, by rfl⟩
  case leastInteger =>
    let least : Expr := .binary .sub (.unary .negate (.integer Int64.maxValue)) (.integer 1)
    let body (x : Expr) (d : Nat) : Expr :=
      .call (.call (.function Builtin.join.toFunction) (.str "")) (.literal [.lambda d ["y"] x])
    let e : Expr := .call (.lambda 1 ["x"] (.lambda 2 ["z"] (body (.argument ⟨1, 0, "x"⟩) 3))) least
    let read : Expr := body least 2
    exact ⟨.closure 2 ["z"] (body (.argument ⟨1, 0, "x"⟩) 3)
      (.frame 1 ["x"] [.integer Int64.minValue] .top),
      .closure 1 ["z"] read .top, ⟨e, by cbv, by cbv⟩, by cbv,
      ⟨.lambda 1 ["z"] read, by cbv, by cbv⟩, by cbv, by cbv⟩
  case parameter =>
    let list (body : Expr) (d : Nat) : List Expr := [.lambda d ["a"] body]
    let body (y : Expr) (d : Nat) : Expr :=
      .call (.call (.function Builtin.head.toFunction) y) (.argument ⟨d, 0, "z"⟩)
    let captured := list (.argument ⟨1, 0, "a"⟩) 1
    let e : Expr :=
      .call (.call (.lambda 1 ["x", "y"] (.lambda 2 ["z"] (body (.argument ⟨1, 1, "y"⟩) 2)))
      (.integer 5)) (.literal captured)
    let read := body (.literal (list (.integer 5) 2)) 1
    exact ⟨.closure 2 ["z"] (body (.argument ⟨1, 1, "y"⟩) 2)
        (.frame 1 ["x", "y"] [.integer 5, .list (.items captured .top (some 0))] .top),
      .closure 1 ["z"] read .top, ⟨e, by cbv, by cbv⟩, by cbv,
      ⟨.lambda 1 ["z"] read, by cbv, by cbv⟩, by cbv, by cbv⟩

end LazyExpr
