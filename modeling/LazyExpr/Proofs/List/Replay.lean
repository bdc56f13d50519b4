import LazyExpr.Proofs.Eval.Spared
import LazyExpr.Proofs.Eval.Twins
import LazyExpr.Proofs.List.Cells

/-!
# Evaluating once more, with less in memory

Take two runs of the same expression, the second one on a machine that knows no more elements of
lists than the first one knows in the end.  Where the first run evaluates an element, so does the
second, or it knows the element already.  Where the first run knows an element, the second may have
to evaluate it.  Then it repeats what the first machine did when it came to know the element, and
again what it needs for that was known to the first machine afterwards.  So the second run may nest
its evaluations more deeply, but otherwise it ends like the first; and if the first is stopped by
the limit on nested evaluations, so is the second.

* `Backed` — what the machine on the right knows, the cells on the left hold too.
* `Settled` — whatever is known can be evaluated once more on every such machine.
* `Replays` — the two runs, and what the first of them leaves.
* `Bond.replay` — **an evaluation on a machine that knows less ends the same way, or at the limit.**
-/

namespace LazyExpr

open Eval

/-! ## 1. Machines that know less -/

/-- What is known in some cells is known in others. -/
def KnownIn (C C' : Cells) : Prop :=
  ∀ (a : Nat) (u : Expr), (C[a]?).join = some u → (C'[a]?).join = some u

theorem KnownIn.refl (C : Cells) : KnownIn C C := fun _ _ h => h

theorem KnownIn.trans {C C' C'' : Cells} (h : KnownIn C C') (h' : KnownIn C' C'') : KnownIn C C'' :=
  fun a u hu => h' a u (h a u hu)

theorem KnownIn.append (C : Cells) (count : Nat) : KnownIn C (C ++ Array.replicate count none) := by
  intro a u hu
  rw [Array.getElem?_append]
  split
  · exact hu
  · next hlt =>
    rw [Array.getElem?_eq_none (Nat.not_lt.mp hlt)] at hu
    cases hu

theorem KnownIn.fill {σ : Type} (m : Machine σ) (a : Nat) (v : Expr) :
    KnownIn m.cells (m.fill a v).cells :=
  fun _ _ hu => Machine.cell?_fill_of_some hu v

/-- Values that are alike, with cells on the right that stand for those on the left. -/
def Copy (Λ : Key) (u u' : Expr) : Prop := u.Alike u' ∧ Linked (some Λ) u.cells u'.cells

theorem Twin.copy {Γ : Ledger} {Λ : Key} {u u' : Expr} (h : Twin (Γ, some Λ) u u') : Copy Λ u u' :=
  ⟨h.1, h.2.2⟩

theorem Copy.twin {Γ : Ledger} {Λ : Key} {u u' : Expr} (h : Copy Λ u u')
    (howns : ∀ c ∈ u.claims, Γ.Owns c) : Twin (Γ, some Λ) u u' :=
  ⟨h.1, howns, h.2⟩

theorem Copy.mono {Λ Λ' : Key} (hle : Λ <+: Λ') {u u' : Expr} (h : Copy Λ u u') : Copy Λ' u u' := by
  have hkey : KeyLe (some Λ) (some Λ') := hle
  exact ⟨h.1, h.2.mono hkey⟩

/-- Without a key, a value is its own twin. -/
theorem Twin.self {Γ : Ledger} {u : Expr} (howns : ∀ c ∈ u.claims, Γ.Owns c) : Twin (Γ, none) u u :=
  ⟨rfl, howns, .idle⟩

/-- What the machine knows, the cells that its cells stand for hold too. -/
structure Backed {σ : Type} (C : Cells) (Λ : Key) (m : Machine σ) : Prop where
  plain : m.Plain
  size : Λ.length = m.cells.size
  known : ∀ {b : Nat} {u' : Expr}, m.cell? b = some u' →
    ∃ a u, Λ[b]? = some a ∧ (C[a]?).join = some u ∧ Copy Λ u u'

namespace Backed

variable {σ : Type} {C : Cells} {Λ : Key} {m : Machine σ}

theorem mono {C' : Cells} (h : KnownIn C C') (hm : Backed C Λ m) : Backed C' Λ m where
  plain := hm.plain
  size := hm.size
  known hb := by
    obtain ⟨a, u, ha, hu, hcopy⟩ := hm.known hb
    exact ⟨a, u, ha, h a u hu, hcopy⟩

theorem atDepth (hm : Backed C Λ m) (depth : Nat) : Backed C Λ { m with depth } :=
  ⟨hm.plain, hm.size, hm.known⟩

/-- What a cell is known to hold is a copy of what the cell holds that it stands for. -/
theorem recalled (hm : Backed C Λ m) {a b : Nat} {u u' : Expr} (hb : Λ[b]? = some a)
    (hu : (C[a]?).join = some u) (hknown : m.cell? b = some u') : Copy Λ u u' := by
  obtain ⟨a', v, ha', hv, hcopy⟩ := hm.known hknown
  obtain rfl : a = a' := Option.some.inj (hb.symm.trans ha')
  obtain rfl : u = v := Option.some.inj (hu.symm.trans hv)
  exact hcopy

/-- A cell is empty if the cell is that it stands for. -/
theorem vacant (hm : Backed C Λ m) {a b : Nat} (hb : Λ[b]? = some a)
    (hempty : (C[a]?).join = none) :
    m.cell? b = none := by
  refine Option.eq_none_iff_forall_ne_some.mpr fun u' hu' => ?_
  obtain ⟨a', u, ha', hu, -⟩ := hm.known hu'
  obtain rfl : a = a' := Option.some.inj (hb.symm.trans ha')
  cases hempty.symm.trans hu

/-- Remembering a copy of what the cell holds that a cell stands for. -/
theorem remembers (hm : Backed C Λ m) {a b : Nat} {u u' : Expr} (hb : Λ[b]? = some a)
    (hu : (C[a]?).join = some u) (hcopy : Copy Λ u u') :
    ∃ v m', remember true (some b) u' m = .ok v m' ∧ Backed C Λ m' ∧ m'.depth = m.depth ∧
      Copy Λ u v := by
  have hdepth : (m.fill b u').depth = m.depth := by rw [fill_eq]
  have hplain : (m.fill b u').Plain := by
    rw [fill_eq]
    exact hm.plain
  have hback : Backed C Λ (m.fill b u') := by
    refine ⟨hplain, hm.size.trans (Machine.size_fill b u').symm, fun {b' w} hw => ?_⟩
    by_cases hsame : b' = b
    · subst hsame
      cases hknown : m.cell? b' with
      | some v => exact hm.known ((Machine.cell?_fill_of_some hknown u').symm.trans hw ▸ hknown)
      | none =>
        have hlt : b' < m.cells.size := hm.size ▸ (List.getElem?_eq_some_iff.mp hb).1
        rw [Machine.cell?_fill_of_none hlt hknown] at hw
        cases hw
        exact ⟨a, u, hb, hu, hcopy⟩
    · rw [Machine.cell?_fill_of_ne m hsame] at hw
      exact hm.known hw
  refine ⟨((m.fill b u').cell? b).getD u', m.fill b u', rfl, hback, hdepth, ?_⟩
  cases hheld : (m.fill b u').cell? b with
  | none => exact hcopy
  | some v => exact hback.recalled hb hu hheld

/-- New cells that stand for new ones. -/
theorem append (hm : Backed C Λ m) (new : List Nat) :
    Backed C (Λ ++ new) { m with cells := m.cells ++ Array.replicate new.length none } where
  plain := hm.plain
  size := by simp [hm.size]
  known {b u'} hb := by
    rw [Machine.cell?_append] at hb
    obtain ⟨a, u, ha, hu, hcopy⟩ := hm.known hb
    have hle : Λ <+: Λ ++ new := List.prefix_append _ _
    exact ⟨a, u, Key.get_mono hle ha, hu, hcopy.mono hle⟩

end Backed

/-- The cells of a new list stand for those of another. -/
theorem linked_cellsFrom {Λ : Key} : ∀ {a b count : Nat}, (∀ i < count, Λ[b + i]? = some (a + i)) →
    List.Forall₂ (Option.Rel fun a b : Nat => Λ[b]? = some a) (cellsFrom (some a) count)
      (cellsFrom (some b) count)
  | _, _, 0, _ => .nil
  | a, b, count + 1, h => by
    refine .cons (.some (h 0 (Nat.succ_pos count))) (linked_cellsFrom fun i hi => ?_)
    have hnext := h (i + 1) (Nat.succ_lt_succ hi)
    rwa [Nat.add_right_comm b 1 i, Nat.add_assoc b i 1, Nat.add_right_comm a 1 i,
      Nat.add_assoc a i 1]

/-- New cells in a row stand for others in a row. -/
theorem linked_new (Λ : Key) (a count : Nat) :
    Linked (some (Λ ++ List.range' a count)) (cellsFrom (some a) count)
      (cellsFrom (some Λ.length) count) := by
  rintro _ ⟨⟩
  refine linked_cellsFrom fun i hi => ?_
  rw [List.getElem?_append_right (Nat.le_add_right _ _), Nat.add_sub_cancel_left,
    List.getElem?_range' hi, Nat.one_mul]

/-! ## 2. Ends of runs -/

section Ends

variable {σ α β γ : Type}

/-- The runs of a family are the same from some index on, and end in a certain way. -/
def EndIn (y : Nat → Ended σ β) (Q : Ended σ β → Prop) : Prop :=
  ∃ r, Q r ∧ ∃ k, ∀ i, k ≤ i → y i = r

namespace EndIn

theorem const {r : Ended σ β} {Q : Ended σ β → Prop} (h : Q r) : EndIn (fun _ => r) Q :=
  ⟨r, h, 0, fun _ _ => rfl⟩

theorem imp {y : Nat → Ended σ β} {Q Q' : Ended σ β → Prop} (h : EndIn y Q) (hq : ∀ r, Q r → Q' r) :
    EndIn y Q' := by
  obtain ⟨r, hr, hlater⟩ := h
  exact ⟨r, hq r hr, hlater⟩

theorem through {y : Nat → Ended σ β} {Q : Ended σ β → Prop} {Q' : Ended σ γ → Prop}
    (h : EndIn y Q) (f : Nat → Ended σ β → Ended σ γ) (hf : ∀ r, Q r → EndIn (fun i => f i r) Q') :
    EndIn (fun i => f i (y i)) Q' := by
  obtain ⟨r, hr, k, hk⟩ := h
  obtain ⟨r', hr', k', hk'⟩ := hf r hr
  refine ⟨r', hr', max k k', fun i hi => ?_⟩
  show f i (y i) = r'
  rw [hk i (Nat.le_trans (Nat.le_max_left k k') hi)]
  exact hk' i (Nat.le_trans (Nat.le_max_right k k') hi)

theorem shift {y : Nat → Ended σ β} {Q : Ended σ β → Prop} (h : EndIn y Q) (n : Nat) :
    EndIn (fun i => y (n + i)) Q := by
  obtain ⟨r, hr, k, hk⟩ := h
  exact ⟨r, hr, k, fun i hi => hk (n + i) (Nat.le_trans hi (Nat.le_add_left i n))⟩

theorem of_shift {y : Nat → Ended σ β} {Q : Ended σ β → Prop} {n : Nat}
    (h : EndIn (fun i => y (n + i)) Q) : EndIn y Q := by
  obtain ⟨r, hr, k, hk⟩ := h
  refine ⟨r, hr, n + k, fun i hi => ?_⟩
  obtain ⟨j, rfl⟩ := Nat.exists_eq_add_of_le (Nat.le_of_add_right_le hi)
  exact hk j (by omega)

end EndIn

/-- A value on a machine that is backed, or the limit on nested evaluations. -/
inductive Answers (limit : Option Nat) (C : Cells) (Λ : Key) (depth : Nat) (P : Key → β → Prop) :
    Ended σ β → Prop where
  | ok {Λ' : Key} {b : β} {m : Machine σ} (hle : Λ <+: Λ') (hm : Backed C Λ' m)
    (hd : m.depth = depth)
    (h : P Λ' b) : Answers limit C Λ depth P (.ok b m)
  | limited {l : Nat} (hl : limit = some l) (m : Machine σ) :
    Answers limit C Λ depth P (.error (.fault (.recursionLimit l)) m)

theorem Answers.imp {limit : Option Nat} {C : Cells} {Λ Λ' : Key} {depth : Nat}
    {P Q : Key → β → Prop} {r : Ended σ β} (h : Answers limit C Λ' depth P r) (hle : Λ <+: Λ')
    (hpq : ∀ Λ'' b, Λ' <+: Λ'' → P Λ'' b → Q Λ'' b) : Answers limit C Λ depth Q r := by
  cases h with
  | ok hle' hm hd h => exact .ok (hle.trans hle') hm hd (hpq _ _ hle' h)
  | limited hl m => exact .limited hl m

/-- The same fault up to cells, or the limit on nested evaluations. -/
inductive Refuses (limit : Option Nat) (e : Fault) : Ended σ β → Prop where
  | same {e' : Fault} (h : e.erase = e'.erase) (m : Machine σ) :
    Refuses limit e (.error (.fault e') m)
  | limited {l : Nat} (hl : limit = some l) (m : Machine σ) :
    Refuses limit e (.error (.fault (.recursionLimit l)) m)

/-- A fault stays the end of what goes on behind it. -/
theorem Refuses.andThen {limit : Option Nat} {e : Fault} {r : Ended σ β} (h : Refuses limit e r)
    (g : Nat → β → Eval σ γ) : EndIn (fun i => r.andThen (g i)) (Refuses limit e) := by
  cases h with
  | same h m => exact .const (.same h m)
  | limited hl m => exact .const (.limited hl m)

end Ends

/-! ## 3. Runs beside others that know less -/

section Replays

variable {σ α β γ δ : Type} {limit : Option Nat}

/-- Whatever is known in some cells, its element can be evaluated once more wherever no more is
known than in these or later: that gives a copy, or ends at the limit. -/
def Settled (σ : Type) (limit : Option Nat) (Γ : Ledger) (C : Cells) : Prop :=
  ∀ {a : Nat} {x : Expr} {env : Env} {u : Expr}, Γ.Owns ⟨a, x, env⟩ → (C[a]?).join = some u →
    ∀ {C' : Cells} {Λ : Key} {m : Machine σ} {x' : Expr} {env' : Env}, KnownIn C C' →
      Backed C' Λ m → env.Alike env' → Linked (some Λ) env.cells env'.cells → Copy Λ x x' →
      EndIn (fun i => eval (.builtins σ true limit) i env' x' m)
        (Answers limit C' Λ m.depth fun Λ' u' => Copy Λ' u u')

/-- New cells are empty. -/
theorem Settled.append {Γ : Ledger} {C : Cells} (h : Settled σ limit Γ C)
    (hsize : Γ.length = C.size) (new : List (Expr × Env)) (count : Nat) :
    Settled σ limit (Γ ++ new) (C ++ Array.replicate count none) := by
  intro a x env u howns hu C' Λ m x' env' hC
  have hold := cell_append hu
  have hlt : a < Γ.length := by
    rw [hsize]
    by_contra hge
    rw [Array.getElem?_eq_none (Nat.not_lt.mp hge)] at hold
    cases hold
  exact h ((List.getElem?_append_left hlt).symm.trans howns) hold
    ((KnownIn.append C count).trans hC)

/-- What holds at a world since some earlier one. -/
def Since (w : TwinWorld) (P : TwinWorld → α → β → Prop) (w' : TwinWorld) (a : α) (b : β) : Prop :=
  ∃ w₀, w.Le w₀ ∧ w₀.Le w' ∧ P w₀ a b

theorem Since.of_le {w w₁ w' : TwinWorld} {P : TwinWorld → α → β → Prop} {a : α} {b : β}
    (hle : w.Le w₁) (h : Since w₁ P w' a b) : Since w P w' a b := by
  obtain ⟨w₀, h₁, h₀, hP⟩ := h
  exact ⟨w₀, hle.trans h₁, h₀, hP⟩

/-- What is put into order by the run on the left: the machine is in line with a larger ledger. -/
structure Ordered (limit : Option Nat) (Γ Γ' : Ledger) (m : Machine σ) : Prop where
  le : Γ <+: Γ'
  fits : Γ'.Fits m
  settled : Settled σ limit Γ' m.cells

/-- A run with a memory, beside a family of runs that may know less.  The run leaves all in order by
itself, also where nothing is said of the others. -/
structure Replays (limit : Option Nat) (w : TwinWorld) (P : TwinWorld → α → β → Prop)
    (m : Machine σ)
    (r : Ended σ α) (y : Nat → Eval σ β) : Prop where
  grows : KnownIn m.cells r.machine.cells
  depth : r.machine.depth = m.depth
  alone : ∃ Γ', Ordered limit w.1 Γ' r.machine ∧ ∀ a m₁, r = .ok a m₁ → ∃ b, P (Γ', none) a b
  /-- If it gives a value, so do the others, or they end at the limit. -/
  value : ∀ {Λ a m₁ C m'}, Λ ∈ w.2 → r = .ok a m₁ → KnownIn m₁.cells C → Backed C Λ m' →
    EndIn (fun i => y i m') (Answers limit C Λ m'.depth fun Λ' b =>
      ∃ Γ', Ordered limit w.1 Γ' m₁ ∧ P (Γ', some Λ') a b)
  /-- If it fails, so do the others, if they are nested as deeply. -/
  fault : ∀ {Λ e m₁ m'}, Λ ∈ w.2 → r = .error (.fault e) m₁ → Backed m₁.cells Λ m' →
    m.depth ≤ m'.depth → EndIn (fun i => y i m') (Refuses limit e)

/-- The comparison on every machine in line with the ledger, now and later. -/
def ReplayedBy (limit : Option Nat) (w : TwinWorld) (P : TwinWorld → α → β → Prop) (x : Eval σ α)
    (y : Nat → Eval σ β) : Prop :=
  ∀ w', w.Le w' → ∀ m, w'.1.Fits m → Settled σ limit w'.1 m.cells →
    Replays limit w' (Since w P) m (x m) y

theorem Ordered.trans {Γ Γ₁ Γ₂ : Ledger} {m : Machine σ} (hle : Γ <+: Γ₁)
    (h : Ordered limit Γ₁ Γ₂ m) :
    Ordered limit Γ Γ₂ m := ⟨hle.trans h.le, h.fits, h.settled⟩

/-- With a key for the cells on the right, the world grows with the ledger and with the key. -/
theorem TwinWorld.Le.keyed {w : TwinWorld} {Γ' : Ledger} {Λ Λ' : Key} (hΛ : Λ ∈ w.2)
    (hle : w.1 <+: Γ') (hle' : Λ <+: Λ') : w.Le (Γ', some Λ') := by
  obtain ⟨Γ, key⟩ := w
  cases hΛ
  exact ⟨hle, hle'⟩

namespace Replays

variable {w : TwinWorld} {P Q : TwinWorld → α → β → Prop} {m : Machine σ} {r : Ended σ α}
  {y : Nat → Eval σ β}

theorem imp (h : Replays limit w P m r y) (hpq : ∀ w' a b, w.Le w' → P w' a b → Q w' a b) :
    Replays limit w Q m r y where
  grows := h.grows
  depth := h.depth
  alone := by
    obtain ⟨Γ', hordered, hP⟩ := h.alone
    refine ⟨Γ', hordered, fun a m₁ hr => ?_⟩
    obtain ⟨b, hb⟩ := hP a m₁ hr
    exact ⟨b, hpq _ a b ⟨hordered.le, trivial⟩ hb⟩
  value := by
    intro Λ a m₁ C m' hΛ hr hC hm'
    refine (h.value hΛ hr hC hm').imp fun r' hr' => hr'.imp List.prefix_rfl fun Λ' b hle hb => ?_
    obtain ⟨Γ', hordered, hb⟩ := hb
    exact ⟨Γ', hordered, hpq _ a b (.keyed hΛ hordered.le hle) hb⟩
  fault := h.fault

/-- A value that is given at once. -/
theorem ok {a : α} {b : β} (hm : w.1.Fits m) (hs : Settled σ limit w.1 m.cells)
    (halone : P (w.1, none) a b) (hy : ∀ Λ ∈ w.2, ∀ m', m'.Plain → ∀ i, y i m' = .ok b m')
    (h : ∀ Λ ∈ w.2, P (w.1, some Λ) a b) : Replays limit w P m (.ok a m) y where
  grows := .refl _
  depth := rfl
  alone := by
    refine ⟨w.1, ⟨List.prefix_rfl, hm, hs⟩, ?_⟩
    rintro _ _ ⟨⟩
    exact ⟨b, halone⟩
  value := by
    rintro Λ _ _ C m' hΛ ⟨⟩ - hm'
    simp only [hy Λ hΛ m' hm'.plain]
    exact .const (.ok List.prefix_rfl hm' rfl ⟨w.1, ⟨List.prefix_rfl, hm, hs⟩, h Λ hΛ⟩)
  fault := by
    rintro _ _ _ _ - ⟨⟩

/-- A fault, or too little fuel, at once. -/
theorem halt {halt : Halt} (hm : w.1.Fits m) (hs : Settled σ limit w.1 m.cells)
    (h : ∀ e, halt = .fault e → ∀ Λ ∈ w.2, ∀ m', m'.Plain → m.depth ≤ m'.depth →
      EndIn (fun i => y i m') (Refuses limit e)) : Replays limit w P m (.error halt m) y where
  grows := .refl _
  depth := rfl
  alone := by
    refine ⟨w.1, ⟨List.prefix_rfl, hm, hs⟩, ?_⟩
    rintro _ _ ⟨⟩
  value := by
    rintro _ _ _ _ _ - ⟨⟩
  fault := by
    rintro Λ e _ m' hΛ ⟨⟩ hm' hdepth
    exact h e rfl Λ hΛ m' hm'.plain hdepth

/-- A run that ended without a value, in another place. -/
theorem of_halt {P' : TwinWorld → γ → δ → Prop} {z : Nat → Eval σ δ} {halt : Halt} {m₁ : Machine σ}
    (h : Replays limit w P m (.error halt m₁ : Ended σ α) y)
    (hz : ∀ e, halt = .fault e → ∀ Λ ∈ w.2, ∀ m', Backed m₁.cells Λ m' →
      EndIn (fun i => y i m') (Refuses limit e) → EndIn (fun i => z i m') (Refuses limit e)) :
    Replays limit w P' m (.error halt m₁ : Ended σ γ) z where
  grows := h.grows
  depth := h.depth
  alone := by
    obtain ⟨Γ', hordered, -⟩ := h.alone
    refine ⟨Γ', hordered, ?_⟩
    rintro _ _ ⟨⟩
  value := by
    rintro _ _ _ _ _ - ⟨⟩
  fault := by
    rintro Λ e _ m' hΛ ⟨⟩ hm' hdepth
    exact hz e rfl Λ hΛ m' hm' (h.fault hΛ rfl hm' hdepth)

/-- A run one level deeper, beside others that are one level deeper or at the limit. -/
theorem above {x : Eval σ α} {z : Nat → Eval σ β}
    (hx : Replays limit w P { m with depth := m.depth + 1 } (x { m with depth := m.depth + 1 }) y)
    (hz : ∀ m', (∀ i, z i m' = Eval.above m'.depth (y i) m') ∨
      ∃ l, limit = some l ∧ ∀ i, z i m' = .error (.fault (.recursionLimit l)) m') :
    Replays limit w P m (Eval.above m.depth x m) z := by
  have hdeeper : ∀ {C Λ m'} {R R' : Ended σ β → Prop}, Backed C Λ m' →
      (Backed C Λ { m' with depth := m'.depth + 1 } →
        EndIn (fun i => y i { m' with depth := m'.depth + 1 }) R) →
      (∀ r, R r → R' (r.atDepth m'.depth)) →
      (∀ l, limit = some l → R' (.error (.fault (.recursionLimit l)) m')) →
        EndIn (fun i => z i m') R' := by
    intro C Λ m' R R' hm' hy hback hlimited
    rcases hz m' with habove | ⟨l, hl, hover⟩
    · simp only [habove, above_run]
      exact (hy (hm'.atDepth _)).through (fun _ => Ended.atDepth m'.depth) fun r hr =>
        .const (hback r hr)
    · simp only [hover]
      exact .const (hlimited l hl)
  rw [above_run]
  generalize x { m with depth := m.depth + 1 } = r at hx ⊢
  refine ⟨?_, ?_, ?_, ?_, ?_⟩
  · have hgrows := hx.grows
    cases r <;> exact hgrows
  · cases r <;> rfl
  · obtain ⟨Γ', hordered, hP⟩ := hx.alone
    refine ⟨Γ', ?_, fun a m₁ hr => ?_⟩
    · cases r <;> exact ⟨hordered.le, hordered.fits.atDepth _, hordered.settled⟩
    · cases r <;> cases hr
      exact hP _ _ rfl
  · intro Λ a m₁ C m' hΛ hr hC hm'
    cases r with
    | error => cases hr
    | ok a m₀ =>
      cases hr
      refine hdeeper hm' (hx.value hΛ rfl hC) (fun r hr => ?_) fun _ hl => .limited hl m'
      cases hr with
      | limited hl m => exact .limited hl _
      | ok hle hm hd h =>
        obtain ⟨Γ', hordered, hP⟩ := h
        exact .ok hle (hm.atDepth _) rfl
          ⟨Γ', ⟨hordered.le, hordered.fits.atDepth _, hordered.settled⟩, hP⟩
  · intro Λ e m₁ m' hΛ hr hm' hdepth
    cases r with
    | ok => cases hr
    | error halt m₀ =>
      cases hr
      refine hdeeper hm' (fun hm' => hx.fault hΛ rfl hm' (Nat.succ_le_succ hdepth)) (fun r hr => ?_)
        fun _ hl => .limited hl m'
      cases hr with
      | same h m => exact .same h _
      | limited hl m => exact .limited hl _

end Replays

namespace ReplayedBy

variable {w : TwinWorld} {P : TwinWorld → α → β → Prop} {Q : TwinWorld → γ → δ → Prop}

theorem pure {a : α} {b : β} (h : P w a b) :
    ReplayedBy (σ := σ) limit w P (pure a) fun _ => pure b := by
  intro w' hw m hm hs
  refine .ok (b := b) hm hs ⟨w, .refl w, ⟨hw.1, trivial⟩, h⟩ (fun _ _ _ _ _ => rfl) fun Λ hΛ => ?_
  exact ⟨w, .refl w, hw.trans (.keyed hΛ List.prefix_rfl List.prefix_rfl), h⟩

theorem fail {e e' : Fault} (h : e.erase = e'.erase) :
    ReplayedBy (σ := σ) limit w P (fail e) fun _ => fail e' := by
  intro w' _ m hm hs
  refine .halt hm hs ?_
  rintro _ ⟨⟩ Λ - m' - -
  exact .const (.same h m')

theorem outOfFuel (y : Nat → Eval σ β) : ReplayedBy (σ := σ) limit w P outOfFuel y := by
  intro w' _ m hm hs
  refine .halt hm hs ?_
  rintro _ ⟨⟩

theorem bind {x : Eval σ α} {y : Nat → Eval σ β} {f : α → Eval σ γ} {g : Nat → β → Eval σ δ}
    (hx : ReplayedBy limit w P x y)
    (hf : ∀ w' a b, w.Le w' → P w' a b → ReplayedBy limit w' Q (f a) fun i => g i b) :
    ReplayedBy limit w Q (x >>= f) fun i => y i >>= g i := by
  intro w' hw m hm hs
  have hxr := hx w' hw m hm hs
  rw [bind_run]
  generalize x m = r at hxr ⊢
  cases r with
  | error halt m₁ =>
    refine hxr.of_halt fun e _ Λ _ m' _ hends => ?_
    simp only [bind_run]
    exact hends.through (fun i r => r.andThen (g i)) fun r hr => hr.andThen g
  | ok a m₁ =>
    -- what goes on behind a value, at a world that is in order
    have hnext : ∀ {key : Option Key} {Γ₁ : Ledger} {b : β}, Ordered limit w'.1 Γ₁ m₁ →
        Since w P (Γ₁, key) a b → Replays limit (Γ₁, key) (Since w Q) m₁ (f a m₁) fun i =>
          g i b := by
      rintro key Γ₁ b hordered ⟨w₀, h₀, h₁, hP⟩
      exact (hf w₀ a b h₀ hP (Γ₁, key) h₁ m₁ hordered.fits hordered.settled).imp fun _ _ _ _ h =>
        h.of_le h₀
    obtain ⟨Γ₁, hordered, hgives⟩ := hxr.alone
    obtain ⟨b₀, hb₀⟩ := hgives a m₁ rfl
    have halone := hnext hordered hb₀
    -- the others, as far as they give a value too
    have hthrough : ∀ {Λ C m'} {R : Ended σ δ → Prop}, Λ ∈ w'.2 → KnownIn m₁.cells C →
      Backed C Λ m' → (∀ l m, limit = some l → R (.error (.fault (.recursionLimit l)) m)) →
        (∀ {Λ' Γ' b m''}, Λ <+: Λ' → Ordered limit w'.1 Γ' m₁ → Since w P (Γ', some Λ') a b →
          Backed C Λ' m'' → m''.depth = m'.depth → EndIn (fun i => g i b m'') R) →
        EndIn (fun i => (y i >>= g i) m') R := by
      intro Λ C m' R hΛ hC hm' hlimited hgoes
      simp only [bind_run]
      refine (hxr.value hΛ rfl hC hm').through (fun i r => r.andThen (g i)) fun r hends => ?_
      cases hends with
      | limited hl m => exact .const (hlimited _ m hl)
      | ok hle hm'' hd hb =>
        obtain ⟨Γ', hordered, hP⟩ := hb
        exact hgoes hle hordered hP hm'' hd
    change Replays limit w' (Since w Q) m (f a m₁) _
    refine ⟨hxr.grows.trans halone.grows, halone.depth.trans hxr.depth, ?_, ?_, ?_⟩
    · obtain ⟨Γ₂, hordered₂, hrest⟩ := halone.alone
      exact ⟨Γ₂, hordered₂.trans hordered.le, hrest⟩
    · intro Λ c m₂ C m' hΛ hr hC hm'
      have hgrows := halone.grows
      rw [hr] at hgrows
      refine hthrough hΛ (hgrows.trans hC) hm' (fun _ m hl => .limited hl m) ?_
      intro Λ' Γ' b m'' hle hordered hP hm'' hd
      refine ((hnext hordered hP).value rfl hr hC hm'').imp fun r hr => ?_
      rw [hd] at hr
      refine hr.imp hle fun Λ'' d _ h => ?_
      obtain ⟨Γ'', hordered'', hQ⟩ := h
      exact ⟨Γ'', hordered''.trans hordered.le, hQ⟩
    · intro Λ e m₂ m' hΛ hr hm' hdepth
      have hgrows := halone.grows
      rw [hr] at hgrows
      refine hthrough hΛ hgrows hm' (fun _ m hl => .limited hl m) ?_
      intro Λ' Γ' b m'' hle hordered hP hm'' hd
      refine (hnext hordered hP).fault rfl hr hm'' ?_
      exact Nat.le_trans (Nat.le_of_eq hxr.depth) (hd ▸ hdepth)

theorem check : ReplayedBy (σ := σ) limit w (fun _ _ _ => True) check fun _ => check := by
  intro w' hw m hm hs
  rw [check_plain hm.plain]
  refine .ok (b := ()) hm hs ⟨w, .refl w, ⟨hw.1, trivial⟩, trivial⟩
    (fun _ _ m' hm' _ => check_plain hm') fun Λ hΛ => ?_
  exact ⟨w, .refl w, hw.trans (.keyed hΛ List.prefix_rfl List.prefix_rfl), trivial⟩

theorem nested {x : Eval σ α} {y : Nat → Eval σ β} (hx : ReplayedBy limit w P x y) :
    ReplayedBy limit w P (nested limit x) fun i => nested limit (y i) := by
  intro w' hw m hm hs
  have hxr := hx w' hw { m with depth := m.depth + 1 } (hm.atDepth _) hs
  cases limit with
  | none => exact hxr.above fun m' => .inl fun i => nested_none (y i) m'
  | some l =>
    rw [nested_some]
    split
    · next hover =>
      refine .halt hm hs ?_
      rintro _ ⟨⟩ Λ - m' - hdepth
      simp only [nested_some, if_pos (Nat.le_trans hover hdepth)]
      exact .const (.limited rfl m')
    · refine hxr.above fun m' => ?_
      by_cases hover : l ≤ m'.depth
      · exact .inr ⟨l, rfl, fun i => by rw [nested_some, if_pos hover]⟩
      · exact .inl fun i => by rw [nested_some, if_neg hover]

/-- What is there with some fuel is there with more. -/
theorem fueled {o : Option α} {o' : Nat → Option α} (h : ∀ i, Below o (o' i)) :
    ReplayedBy (σ := σ) limit w (fun _ a b => a = b) (fueled o) fun i => fueled (o' i) := by
  cases o with
  | none => exact outOfFuel _
  | some a =>
    have hall : ∀ i, o' i = some a := fun i => h i a rfl
    simp only [hall]
    exact pure rfl

theorem newList {w : TwinWorld} {xs xs' : List Expr} {env env' : Env} (henv : EnvTwin w env env')
    (hxs : List.Forall₂ (Twin w) xs xs') :
    ReplayedBy (σ := σ) limit w Twin (newList xs env) fun _ => newList xs' env' := by
  intro w' hw m hm hs
  have hlength := hxs.length_eq
  have hordered : Ordered limit w'.1 (w'.1 ++ xs.map fun x => (x, env))
      { m with cells := m.cells ++ Array.replicate xs.length none } :=
    ⟨List.prefix_append _ _, hm.append xs env, hs.append hm.size _ _⟩
  -- the two lists are twins wherever the cells of the one stand for those of the other
  have htwin : ∀ {key : Option Key} (b : Nat), w.Le (w'.1 ++ xs.map fun x => (x, env), key) →
      Linked key (cellsFrom (some m.cells.size) xs.length) (cellsFrom (some b) xs'.length) →
      Twin (w'.1 ++ xs.map fun x => (x, env), key) (.list (.items xs env (some m.cells.size)))
        (.list (.items xs' env' (some b))) := by
    intro key b hle hlinked
    refine .items ⟨fun c hc => ?_, hlinked⟩ (hxs.imp fun _ _ h => h.mono hle) (henv.mono hle)
    rw [← hm.size] at hc
    exact Ledger.owns_cellClaims hc
  have hsince : ∀ {key : Option Key} (b : Nat), w.Le (w'.1 ++ xs.map fun x => (x, env), key) →
      Linked key (cellsFrom (some m.cells.size) xs.length) (cellsFrom (some b) xs'.length) →
      Since w Twin (w'.1 ++ xs.map fun x => (x, env), key)
        (.list (.items xs env (some m.cells.size)))
        (.list (.items xs' env' (some b))) :=
    fun b hle hlinked => ⟨_, hle, .refl _, htwin b hle hlinked⟩
  refine ⟨.append _ _, rfl, ⟨_, hordered, ?_⟩, ?_, ?_⟩
  · rintro _ _ ⟨⟩
    exact ⟨_, hsince 0 ⟨hw.1.trans hordered.le, trivial⟩ .idle⟩
  · rintro Λ _ _ C m' hΛ ⟨⟩ - hm'
    have hback := hm'.append (List.range' m.cells.size xs'.length)
    rw [List.length_range'] at hback
    refine .const (.ok (List.prefix_append _ _) hback rfl ⟨_, hordered, hsince m'.cells.size ?_ ?_⟩)
    · exact hw.trans (.keyed hΛ hordered.le (List.prefix_append _ _))
    · rw [← hlength, ← hm'.size]
      exact linked_new Λ _ _
  · rintro _ _ _ _ - ⟨⟩

end ReplayedBy

end Replays

/-! ## 4. Elements -/

section Elements

variable {σ : Type} {limit : Option Nat}

/-- With so much fuel, evaluations of twins go the same way. -/
def Replayable (σ : Type) (limit : Option Nat) (n : Nat) : Prop :=
  ∀ {w : TwinWorld} {env env' : Env} {x x' : Expr}, EnvTwin w env env' → Twin w x x' →
    ReplayedBy limit w Twin (eval (.builtins σ true limit) n env x) fun i =>
      eval (.builtins σ true limit) (n + i) env' x'

/-- A value that is put into an empty cell is what the cell then holds. -/
theorem remember_vacant {m : Machine σ} {a : Nat} (ha : a < m.cells.size)
    (hempty : m.cell? a = none) (v : Expr) : remember true (some a) v m = .ok v (m.fill a v) := by
  show EStateM.Result.ok (((m.fill a v).cell? a).getD v) (m.fill a v) = _
  rw [Machine.cell?_fill_of_none ha hempty]
  rfl

/-- What is remembered for the element of a cell is a copy of what the cell holds that it stands
for. -/
theorem force_copies {C : Cells} {Λ : Key} {m : Machine σ} {a b : Nat} {u : Expr}
    (hm : Backed C Λ m) (hb : Λ[b]? = some a) (hu : (C[a]?).join = some u) {y : Nat → Eval σ Expr}
    (hy : EndIn (fun i => y i m) (Answers limit C Λ m.depth fun Λ' u' => Copy Λ' u u')) :
    EndIn (fun i => force (.builtins σ true limit) (some b) (y i) m)
      (Answers limit C Λ m.depth fun Λ' u' => Copy Λ' u u') := by
  simp only [force_run (.builtins σ true limit) rfl]
  cases hknown : (m.cells[b]?).join with
  | some u' => exact .const (.ok List.prefix_rfl hm rfl (hm.recalled hb hu hknown))
  | none =>
    refine hy.through (fun _ r => r.andThen (remember true (some b))) fun r hr => ?_
    cases hr with
    | limited hl m => exact .const (.limited hl m)
    | @ok Λ' u' m₁ hle hm₁ hd hcopy =>
      obtain ⟨v, m₂, hrun, hm₂, hd₂, hcopy₂⟩ := hm₁.remembers (Key.get_mono hle hb) hu hcopy
      refine .const ?_
      show Answers limit C Λ m.depth _ (remember true (some b) u' m₁)
      rw [hrun]
      exact .ok hle hm₂ (hd₂.trans hd) hcopy₂

/-- An element that is given as a value. -/
theorem Replays.element {w : TwinWorld} {Γ₁ : Ledger} {v : Expr} {m m₁ : Machine σ}
    {y : Nat → Eval σ Expr} (hgrows : KnownIn m.cells m₁.cells) (hdepth : m₁.depth = m.depth)
    (hordered : Ordered limit w.1 Γ₁ m₁) (hclaims : ∀ c ∈ v.claims, Γ₁.Owns c)
    (hy : ∀ {Λ C m'}, Λ ∈ w.2 → KnownIn m₁.cells C → Backed C Λ m' →
      EndIn (fun i => y i m') (Answers limit C Λ m'.depth fun Λ' u' => Copy Λ' v u')) :
    Replays limit w Twin m (.ok v m₁) y where
  grows := hgrows
  depth := hdepth
  alone := by
    refine ⟨Γ₁, hordered, ?_⟩
    rintro _ _ ⟨⟩
    exact ⟨v, .self hclaims⟩
  value := by
    rintro Λ _ _ C m' hΛ ⟨⟩ hC hm'
    refine (hy hΛ hC hm').imp fun r hr => hr.imp List.prefix_rfl fun Λ' u' _ hcopy => ?_
    exact ⟨Γ₁, hordered, hcopy.twin hclaims⟩
  fault := by
    rintro _ _ _ _ - ⟨⟩

/-- The others may be replaced by ones that are the same where anything is said of them. -/
theorem Replays.congr {α β : Type} {w : TwinWorld} {P : TwinWorld → α → β → Prop} {m : Machine σ}
    {r : Ended σ α} {y z : Nat → Eval σ β} (h : Replays limit w P m r y) (hyz : ∀ Λ ∈ w.2, y = z) :
    Replays limit w P m r z where
  grows := h.grows
  depth := h.depth
  alone := h.alone
  value hΛ := hyz _ hΛ ▸ h.value hΛ
  fault hΛ := hyz _ hΛ ▸ h.fault hΛ

section First

variable {Γ : Ledger} {m m₁ : Machine σ} {a n : Nat} {x v : Expr} {env : Env}

/-- What the evaluation of an element gives, the element yields. -/
theorem Ledger.Fits.yields (hm : Γ.Fits m) (hx : ∀ c ∈ x.claims, Γ.Owns c)
    (henv : ∀ c ∈ env.claims, Γ.Owns c)
    (hrun : eval (.builtins σ true limit) n env x m = .ok v m₁) :
    Yields env x v := by
  have hcode : (Likeness.alike .ledger).code Γ env env x x :=
    ⟨⟨rfl, henv, fun _ _ => trivial⟩, rfl, hx, fun _ _ => trivial⟩
  have htold := ((Bond.memo σ true limit).sound n (fun i => n + i) fun _ => rfl).eval hcode m
    (.fresh ()) hm (Machine.fresh_plain ())
  change Told Γ _ (eval (.builtins σ true limit) n env x m) _ at htold
  rw [hrun] at htold
  generalize hys : (fun i => eval Setting.cacheFree (n + i) env x (Machine.fresh ())) = ys at htold
  cases htold with
  | ok _ _ _ hv hsettles =>
    subst hys
    exact hsettles.yields (Machine.fresh_plain ()) rfl rfl hv.1

/-- An element that is evaluated for the first time can be evaluated once more. -/
theorem Ordered.fill (hreplayable : Replayable σ limit n) (hm : Γ.Fits m)
    (hs : Settled σ limit Γ m.cells)
    (howns : Γ.Owns ⟨a, x, env⟩) (hx : ∀ c ∈ x.claims, Γ.Owns c) (henv : ∀ c ∈ env.claims, Γ.Owns c)
    (hrun : eval (.builtins σ true limit) n env x m = .ok v m₁) {Γ₁ : Ledger}
    (h : Ordered limit Γ Γ₁ m₁) (hv : ∀ c ∈ v.claims, Γ₁.Owns c) :
    Ordered limit Γ Γ₁ (m₁.fill a v) := by
  have howns₁ : Γ₁.Owns ⟨a, x, env⟩ := howns.mono h.le
  refine ⟨h.le, ?_, ?_⟩
  · rw [fill_eq]
    exact h.fits.fill howns₁ hv (hm.yields hx henv hrun)
  · intro a' x' env₀ u hother hu C' Λ m' x'' env' hC hm' halike hlinked hcopy
    have hC₁ : KnownIn m₁.cells C' := (KnownIn.fill m₁ a v).trans hC
    rw [fill_eq] at hu
    rcases cell_fillCell hu with hold | ⟨rfl, rfl⟩
    · exact h.settled hother hold hC₁ hm' halike hlinked hcopy
    · -- the element was evaluated just now, and its evaluation can be repeated
      obtain ⟨rfl, rfl⟩ : x = x' ∧ env = env₀ := by
        simpa [Ledger.Owns] using howns₁.symm.trans hother
      have hends := hreplayable (w := (Γ, some Λ)) ⟨halike, henv, hlinked⟩
        (hcopy.twin hx) (Γ, some Λ)
        (.refl _) m hm hs
      refine EndIn.of_shift ((hends.value rfl hrun hC₁ hm').imp fun r hr => ?_)
      refine hr.imp List.prefix_rfl fun Λ' u' _ h => ?_
      obtain ⟨Γ', -, w₀, -, h₀, htwin⟩ := h
      exact (htwin.mono h₀).copy

variable {w w₀ : TwinWorld} {cell' : Option Nat} {y : Nat → Eval σ Expr}

/-- An element that is known is known to the others too, or can be evaluated by them once more. -/
theorem Replays.known (hm : w.1.Fits m) (hs : Settled σ limit w.1 m.cells)
    (howns : w.1.Owns ⟨a, x, env⟩)
    (hknown : m.cell? a = some v) {x' : Expr} {env' : Env} (henv : EnvTwin w env env')
    (hx : Twin w x x')
    (hcell : ∀ Λ ∈ w.2, Option.Rel (fun a b : Nat => Λ[b]? = some a) (some a) cell') :
    Replays limit w Twin m (.ok v m) fun i =>
      force (.builtins σ true limit) cell' (eval (.builtins σ true limit) (n + i) env' x') := by
  refine .element (.refl _) rfl ⟨List.prefix_rfl, hm, hs⟩ (hm.recalled howns hknown).2
    fun {Λ C m'} hΛ hC hm' => ?_
  cases hcell Λ hΛ with
  | some hb =>
    have hends := hs howns hknown hC hm' henv.1 (henv.2.2.at_key hΛ) ⟨hx.1, hx.2.2.at_key hΛ⟩
    exact force_copies hm' hb (hC a v hknown) (hends.shift n)

/-- An element that is evaluated now is known to the others, or is evaluated by them now. -/
theorem Replays.first (h : Replays limit w (Since w₀ Twin) m (.ok v m₁) y)
    (hempty : m₁.cell? a = none) (hfilled : ∀ {Γ₁}, Ordered limit w.1 Γ₁ m₁ →
      (∀ c ∈ v.claims, Γ₁.Owns c) → Ordered limit w.1 Γ₁ (m₁.fill a v)) (ha : a < m₁.cells.size)
    (hcell : ∀ Λ ∈ w.2, Option.Rel (fun a b : Nat => Λ[b]? = some a) (some a) cell') :
    Replays limit w Twin m (.ok v (m₁.fill a v)) fun i =>
    force (.builtins σ true limit) cell' (y i) := by
  obtain ⟨Γ₁, hordered, hgives⟩ := h.alone
  obtain ⟨u₀, w₁, -, h₁, htwin⟩ := hgives v m₁ rfl
  have hv : ∀ c ∈ v.claims, Γ₁.Owns c := (htwin.mono h₁).2.1
  have hdepth : (m₁.fill a v).depth = m.depth := by
    rw [fill_eq]
    exact h.depth
  refine .element (h.grows.trans (.fill m₁ a v)) hdepth (hfilled hordered hv) hv
    fun {Λ C m'} hΛ hC hm' => ?_
  cases hcell Λ hΛ with
  | some hb =>
    refine force_copies hm' hb (hC a v (Machine.cell?_fill_of_none ha hempty v)) ?_
    refine (h.value hΛ rfl ((KnownIn.fill m₁ a v).trans hC) hm').imp fun r hr => ?_
    refine hr.imp List.prefix_rfl fun Λ' u' _ hgiven => ?_
    obtain ⟨Γ', -, w₁, -, h₁, htwin⟩ := hgiven
    exact (htwin.mono h₁).copy

/-- The cell of an element that fails stays empty, as does every one that stands for it. -/
theorem Replays.failed {P Q : TwinWorld → Expr → Expr → Prop} {halt : Halt}
    (h : Replays limit w P m (.error halt m₁) y) (hempty : halt ≠ .outOfFuel → m₁.cell? a = none)
    (hcell : ∀ Λ ∈ w.2, Option.Rel (fun a b : Nat => Λ[b]? = some a) (some a) cell') :
    Replays limit w Q m (.error halt m₁) fun i => force (.builtins σ true limit) cell' (y i) := by
  refine h.of_halt ?_
  rintro e rfl Λ hΛ m' hm' hends
  cases hcell Λ hΛ with
  | @some _ b hb =>
    have hunknown : (m'.cells[b]?).join = none := hm'.vacant hb (hempty (by rintro ⟨⟩))
    simp only [force_run (.builtins σ true limit) rfl, hunknown]
    exact hends.through (fun _ r => r.andThen (remember true (some b))) fun r hr => hr.andThen _

end First

/-- An element is remembered, or evaluated and remembered from then on. -/
theorem ReplayedBy.force {w : TwinWorld} {n : Nat} {x x' : Expr} {xs xs' : List Expr}
    {env env' : Env} {cell cell' : Option Nat} (hreplayable : Replayable σ limit n)
    (hl : Twin w (.list (.items (x :: xs) env cell)) (.list (.items (x' :: xs') env' cell'))) :
    ReplayedBy limit w Twin
      (force (.builtins σ true limit) cell (eval (.builtins σ true limit) n env x))
      fun i => force (.builtins σ true limit) cell'
        (eval (.builtins σ true limit) (n + i) env' x') := by
  intro w' hw m hm hs
  obtain ⟨hown, helements, henv⟩ := Twin.of_items (hl.mono hw)
  obtain ⟨hx, -⟩ := List.forall₂_cons.mp helements
  have hcell : ∀ Λ ∈ w'.2, Option.Rel (fun a b : Nat => Λ[b]? = some a) cell cell' := fun Λ hΛ =>
    (List.forall₂_cons.mp (hown.2 Λ hΛ)).1
  have hsince : ∀ w'' u u', w'.Le w'' → Twin w'' u u' → Since w Twin w'' u u' :=
    fun w'' u u' h hu =>
    ⟨w'', hw.trans h, .refl _, hu⟩
  have hxr := hreplayable henv hx w' (.refl _) m hm hs
  cases cell with
  | none =>
    rw [force_none]
    refine (hxr.imp fun w'' u u' h hu => ?_).congr fun Λ hΛ => ?_
    · obtain ⟨w₀, -, h₀, htwin⟩ := hu
      exact hsince w'' u u' h (htwin.mono h₀)
    · cases hcell Λ hΛ with
      | none => simp only [force_none]
  | some a =>
    have howns : w'.1.Owns ⟨a, x, env⟩ := hown.1 _ List.mem_cons_self
    rw [force_run (.builtins σ true limit) rfl]
    cases hknown : (m.cells[a]?).join with
    | some u => exact (Replays.known hm hs howns hknown henv hx hcell).imp hsince
    | none =>
      have hspared : ∀ {r}, eval (.builtins σ true limit) n env x m = r →
          (∀ m', r ≠ .error .outOfFuel m') → (Ended.machine r).cell? a = none := fun hrun hfuel =>
        hm.spared howns hx.2.1 henv.2.1 hknown hrun hfuel
      show Replays limit w' _ m (Ended.andThen (eval (.builtins σ true limit) n env x m) _) _
      rcases hrun : eval (.builtins σ true limit) n env x m with ⟨v, m₁⟩ | ⟨halt, m₁⟩
      · rw [hrun] at hxr
        obtain ⟨Γ₁, hordered, -⟩ := hxr.alone
        have ha : a < m₁.cells.size :=
          hordered.fits.size ▸ (List.getElem?_eq_some_iff.mp (howns.mono hordered.le)).1
        have hempty : m₁.cell? a = none := hspared hrun (by rintro _ ⟨⟩)
        show Replays limit w' _ m (remember true (some a) v m₁) _
        rw [remember_vacant ha hempty]
        exact (hxr.first hempty (.fill hreplayable hm hs howns hx.2.1 henv.2.1 hrun) ha hcell).imp
          hsince
      · rw [hrun] at hxr
        exact hxr.failed (fun hfuel => hspared hrun fun m' h => hfuel (by cases h; rfl)) hcell

end Elements

/-! ## 5. The comparison -/

section Evaluator

variable {σ : Type} {limit : Option Nat}

/-- The evaluator with a memory beside itself, with at least as much fuel. -/
def Bond.replay (σ : Type) (limit : Option Nat) : Bond σ σ where
  left := .builtins σ true limit
  right := .builtins σ true limit
  like := .twins
  Ample n g := (∀ k ≤ n, Replayable σ limit k) ∧ ∀ i, g i = n + i
  Follows w P x y := ReplayedBy limit w P x y
  ample_succ {n g} h := by
    refine ⟨fun i => n + i, ⟨fun k hk => h.1 k (Nat.le_succ_of_le hk), fun _ => rfl⟩, ?_⟩
    exact funext fun i => (h.2 i).trans (Nat.succ_add n i)
  follows_pure h := .pure h
  follows_bind hx hf := hx.bind hf
  follows_fail h := .fail (h.erase_eq fun _ _ hv => hv.1)
  follows_stray _ _ _ hname := .fail (by rw [hname])
  follows_zero _ _ := .outOfFuel _
  follows_check := .check
  follows_nested h := h.nested
  follows_newList henv hxs := .newList henv (hxs.imp fun _ _ h => h.2)
  follows_force := by
    intro w n g x x' xs xs' env env' cell cell' hample hl hx
    obtain rfl : g = fun i => n + i := funext hample.2
    exact .force (hample.1 n (Nat.le_refl n)) hl
  follows_display := by
    intro w n g v v' hample hv
    obtain rfl : g = fun i => n + i := funext hample.2
    refine .fueled fun i => ?_
    show Below (v.display? n) (v'.display? (n + i))
    rw [display_alike hv.1 n]
    exact display_mono (Nat.le_add_right n i) v'
  follows_perform := by
    intro w n g args args' entry hample h
    obtain rfl : g = fun i => n + i := funext hample.2
    cases n with
    | zero => exact .outOfFuel _
    | succ n =>
      simp only [Nat.succ_add]
      exact .pure (.of_atom rfl)

/-- With any fuel, evaluations of twins go the same way. -/
theorem replayable_all (n : Nat) : Replayable σ limit n := by
  induction n using Nat.strong_induction_on with
  | h n ih =>
    intro w env env' x x' henv hx
    cases n with
    | zero => exact .outOfFuel _
    | succ n =>
      let B := Bond.replay σ limit
      have hample : B.Ample n fun i => n + i :=
        ⟨fun k hk => ih k (Nat.lt_succ_of_le hk), fun _ => rfl⟩
      have hsound : B.Sound n fun i => n + i := B.sound n _ hample
      have hcode : B.like.code w env env' x x' := ⟨henv, hx⟩
      simp only [Nat.succ_add]
      exact Bond.follows_eval_succ hsound hample hcode

theorem Bond.replay_ample (n : Nat) : (Bond.replay σ limit).Ample n fun i => n + i :=
  ⟨fun k _ => replayable_all k, fun _ => rfl⟩

/-- **An evaluation on a machine that knows less ends the same way, or at the limit.** -/
theorem Bond.replay_sound (σ : Type) (limit : Option Nat) (n : Nat) :
    (Bond.replay σ limit).Sound n fun i => n + i :=
  Bond.sound n _ (replay_ample n)

/-- The same for values that are shown. -/
theorem ReplayedBy.render {w : TwinWorld} {v v' : Expr} (hv : Twin w v v') (n : Nat) :
    ReplayedBy limit w (fun _ text text' => text = text')
      (render (.builtins σ true limit) n v) fun i =>
      render (.builtins σ true limit) (n + i) v' :=
  Bond.follows_render (Bond.replay_ample n) hv

end Evaluator

end LazyExpr
