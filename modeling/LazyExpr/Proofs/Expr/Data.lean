import LazyExpr.Proofs.Expr.Erasure
import LazyExpr.Proofs.Expr.Literal

/-!
# Data

What is left when every function was called and every finite list replaced by its elements: numbers,
booleans, strings, null, lists of data, and progressions that do not end.

* `IsData d m`: `m` is data whose lists are nested at most `d` deep.
* `SameData m v`: `v` is the same data, where a whole decimal may have got a digit behind the point.
* `display_data`: data is shown as its source text.
* `parse_data`: **the source text of data is read as its spelling**, if its lists are nested no more
  than 120 deep.
-/

namespace LazyExpr

/-! ## 1. Data -/

/-- The progressions that range literals with integers give: the step is one, or what is between the
first element and the second. -/
inductive Progression.OfLiteral : Progression → Prop where
  | unit (start : Int64) (stop : Option Int64) :
    OfLiteral ⟨.integer start, .integer 1, stop.map .integer⟩
  | stepped {start second : Int64} {step : Number} (stop : Option Int64)
    (h : (Number.integer second).sub? (.integer start) = some step) :
    OfLiteral ⟨.integer start, step, stop.map .integer⟩

/-- Data whose lists are nested at most so deep.  Its finite lists are those that evaluation leaves:
they captured nothing. -/
inductive IsData : Nat → Expr → Prop where
  | number {d : Nat} (n : Number) : IsData d (.number n)
  | bool {d : Nat} (b : Bool) : IsData d (.bool b)
  | str {d : Nat} (text : String) : IsData d (.str text)
  | null {d : Nat} : IsData d .null
  | range {d : Nat} {p : Progression} (h : p.OfLiteral) (hinfinite : p.isInfinite = true) :
    IsData d (.list (.progression p))
  | items {d : Nat} {xs : List Expr} (cell : Option Nat) (h : ∀ x ∈ xs, IsData d x) :
    IsData (d + 1) (.list (.items xs .top cell))

/-- Equal up to the cells of lists and the scale of whole decimals, which does not show. -/
inductive SameData : Expr → Expr → Prop where
  | integer (n : Int64) : SameData (.integer n) (.integer n)
  | decimal {d d' : Decimal} (hsign : d'.negative = d.negative) (hvalue : d'.compare d = .eq)
    (hscale : d.scale ≠ 0 → d' = d) (htext : d'.source = d.source) :
    SameData (.decimal d) (.decimal d')
  | bool (b : Bool) : SameData (.bool b) (.bool b)
  | str (text : String) : SameData (.str text) (.str text)
  | null : SameData .null .null
  | progression (p : Progression) : SameData (.list (.progression p)) (.list (.progression p))
  | items {xs ys : List Expr} (cell cell' : Option Nat) (h : List.Forall₂ SameData xs ys) :
    SameData (.list (.items xs .top cell)) (.list (.items ys .top cell'))

/-! ## 2. Lengths -/

theorem length_elementsSource (xs : List Expr) :
    xs.length ≤ (elementsSource xs).length ∧
      ∀ x ∈ xs, x.source.length + 2 ≤ (elementsSource xs).length := by
  induction xs with
  | nil => exact ⟨Nat.zero_le _, nofun⟩
  | cons x xs ih =>
    have hlength : (elementsSource (x :: xs)).length =
      2 + x.source.length + (elementsSource xs).length := by
      rw [elementsSource, String.length_append, String.length_append]
      rfl
    refine ⟨by rw [hlength, List.length_cons]; omega, fun y hy => ?_⟩
    rcases List.mem_cons.mp hy with rfl | hy
    · omega
    · have := ih.2 y hy
      omega

/-- The text of a list is longer than the texts of its elements, and than the list. -/
theorem length_source_items (xs : List Expr) (env : Env) (cell : Option Nat) :
    xs.length + 1 ≤ (Expr.list (.items xs env cell)).source.length ∧
      ∀ x ∈ xs, x.source.length + 2 ≤ (Expr.list (.items xs env cell)).source.length := by
  cases xs with
  | nil =>
    have hlength : "[]".length = 2 := by decide
    exact ⟨by simp [Expr.source, LazyList.source, hlength], nofun⟩
  | cons x xs =>
    obtain ⟨hcount, hrest⟩ := length_elementsSource xs
    have hlength : (Expr.list (.items (x :: xs) env cell)).source.length =
        1 + x.source.length + (elementsSource xs).length + 1 := by
      simp only [Expr.source, LazyList.source, String.length_append]
      rfl
    refine ⟨by rw [hlength, List.length_cons]; omega, fun y hy => ?_⟩
    rcases List.mem_cons.mp hy with rfl | hy
    · omega
    · have := hrest y hy
      omega

/-! ## 3. What is shown -/

theorem mapM_eq_some_map {α β : Type} {f : α → Option β} {g : α → β} {xs : List α}
    (h : ∀ x ∈ xs, f x = some (g x)) : xs.mapM f = some (xs.map g) := by
  induction xs with
  | nil => rfl
  | cons x xs ih =>
    rw [List.mapM_cons, h x (by simp), ih fun y hy => h y (by simp [hy])]
    rfl

/-- Data captured nothing, so there is nothing to put in place. -/
theorem inline_data {d : Nat} {m : Expr} (h : IsData d m) {fuel : Nat}
    (hfuel : m.source.length < fuel) :
    m.inline fuel .top = some m.erase := by
  induction h generalizing fuel with
  | number | bool | str | null =>
    obtain ⟨fuel, rfl⟩ : ∃ f, fuel = f + 1 := ⟨fuel - 1, by omega⟩
    rfl
  | @range d p =>
    have hlong : 2 ≤ (Expr.list (.progression p)).source.length := by
      simp only [Expr.source, LazyList.source, Progression.source, String.length_append]
      have : "[".length = 1 ∧ "]".length = 1 := by decide
      omega
    obtain ⟨fuel, rfl⟩ : ∃ f, fuel = f + 2 := ⟨fuel - 2, by omega⟩
    rfl
  | @items d xs cell _ ih =>
    obtain ⟨hcount, hlengths⟩ := length_source_items xs .top cell
    obtain ⟨fuel, rfl⟩ : ∃ f, fuel = f + 2 := ⟨fuel - 2, by omega⟩
    have hmap : xs.mapM (Expr.inline fuel .top) = some (xs.map Expr.erase) :=
      mapM_eq_some_map fun x hx => ih x hx (by have := hlengths x hx; omega)
    simp [Expr.inline, LazyList.inline, Env.orElse, hmap, Expr.erase, LazyList.erase, Env.erase,
      eraseAll_eq_map]

/-- Data is shown as its source text. -/
theorem display_data {d : Nat} {m : Expr} (h : IsData d m) {fuel : Nat}
    (hfuel : m.source.length < fuel) : m.display? fuel = some m.source := by
  rw [Expr.display?, inline_data h hfuel, Option.map_some, Expr.source_erase]

/-! ## 4. The same data -/

theorem forall_of_forall₂ {α β : Type} {P : β → Prop} {xs : List α} {ys : List β}
    (h : List.Forall₂ (fun _ y => P y) xs ys) : ∀ y ∈ ys, P y := by
  induction h with
  | nil => exact nofun
  | cons hy _ ih => exact List.forall_mem_cons.mpr ⟨hy, ih⟩

/-- Elements with the same texts are written alike. -/
theorem source_items_congr {xs ys : List Expr}
    (h : List.Forall₂ (fun x y => y.source = x.source) xs ys)
    (env env' : Env) (cell cell' : Option Nat) :
    (LazyList.items ys env' cell').source = (LazyList.items xs env cell).source := by
  have helements : ∀ {xs ys : List Expr}, List.Forall₂ (fun x y => y.source = x.source) xs ys →
      elementsSource ys = elementsSource xs := by
    intro xs ys h
    induction h with
    | nil => rfl
    | cons hxy _ ih => simp only [elementsSource, hxy, ih]
  cases h with
  | nil => rfl
  | cons hxy h => simp only [LazyList.source, hxy, helements h]

/-- The same data is data again, and has the same text. -/
theorem SameData.isData {d : Nat} {m v : Expr} (hm : IsData d m) (h : SameData m v) :
    IsData d v ∧ v.source = m.source := by
  induction hm generalizing v with
  | number n =>
    cases h with
    | integer => exact ⟨.number _, rfl⟩
    | decimal _ _ _ htext => exact ⟨.number _, htext⟩
  | bool b =>
    cases h
    exact ⟨.bool b, rfl⟩
  | str text =>
    cases h
    exact ⟨.str text, rfl⟩
  | null =>
    cases h
    exact ⟨.null, rfl⟩
  | range hp hinfinite =>
    cases h
    exact ⟨.range hp hinfinite, rfl⟩
  | @items d xs cell _ ih =>
    cases h with
    | @items _ ys _ cell' hys =>
      have hboth : List.Forall₂ (fun x y => IsData d y ∧ y.source = x.source) xs ys :=
        ((List.forall₂_and_left xs ys).mpr ⟨ih, hys⟩).imp fun x y h => h.1 h.2
      refine ⟨.items cell' (forall_of_forall₂ (hboth.imp fun _ _ h => h.1)), ?_⟩
      exact source_items_congr (hboth.imp fun _ _ h => h.2) .top .top cell cell'

/-! ## 5. What is read -/

/-- Elements that are read within a level end brackets on it. -/
theorem endsWithin_elements {scope : Scope} {level : Nat} {xs : List Expr}
    (h : ∀ x ∈ xs, ∃ ts, Legible scope level x.source x.spelling ts) :
    ∃ ts, EndsWithin scope level (elementsSource xs ++ "]")
      (fun before item => some (.literal (before.reverse ++ item :: spellings xs))) ts := by
  induction xs with
  | nil => exact ⟨_, by simpa [elementsSource, spellings] using endsWithin_close⟩
  | cons x xs ih =>
    obtain ⟨us, hx⟩ := h x (by simp)
    obtain ⟨ts, hends⟩ := ih fun y hy => h y (by simp [hy])
    have hcomma := endsWithin_comma hx hends
    exact ⟨_, by simpa [elementsSource, spellings, String.append_assoc] using hcomma⟩

theorem legible_atom {scope : Scope} {text : String} {e : Expr} {t : Token}
    (h : Written scope text e Precedence.atom [t]) (ht : t.literal? = some e) :
    ∃ ts, Legible scope 1 text e ts :=
  ⟨[t], ⟨_, h⟩, .of_value fun _ => .literal ht⟩

/-- **Data is read from its text as its spelling**: each list takes one level, and what is in the
innermost lists three. -/
theorem legible_data {d : Nat} {m : Expr} (h : IsData d m) (scope : Scope) :
    ∃ ts, Legible scope (d + 3) m.source m.spelling ts := by
  have hmono : ∀ {d level : Nat} {text : String} {e : Expr}, (∃ ts, Legible scope level text e ts) →
      level ≤ d + 3 → ∃ ts, Legible scope (d + 3) text e ts := by
    rintro d level text e ⟨ts, h⟩ hle
    exact ⟨ts, h.mono hle⟩
  induction h with
  | number n => exact hmono (legible_number scope n) (by omega)
  | bool b => exact hmono (legible_atom (written_bool b) rfl) (by omega)
  | str text => exact hmono (legible_atom (written_str text) rfl) (by omega)
  | null => exact hmono (legible_atom written_null rfl) (by omega)
  | @range _ p =>
    obtain ⟨ts, hwritten, hwithin⟩ := written_progression scope p
    exact hmono ⟨ts, ⟨_, hwritten⟩, hwithin⟩ (by omega)
  | @items d xs cell _ ih =>
    cases xs with
    | nil => exact ⟨_, ⟨_, written_emptyList⟩, .of_value fun _ => .emptyList⟩
    | cons x xs =>
      obtain ⟨us, hx⟩ := ih x (by simp)
      obtain ⟨ts, hends⟩ := endsWithin_elements fun y (hy : y ∈ xs) => ih y (by simp [hy])
      have htext : (Expr.list (.items (x :: xs) .top cell)).source =
          "[" ++ x.source ++ (elementsSource xs ++ "]") := by
        simp [Expr.source, LazyList.source, String.append_assoc]
      obtain ⟨hwritten, hwithin⟩ := legible_brackets hx hends rfl
      rw [htext]
      exact ⟨_, ⟨_, hwritten⟩, hwithin⟩

/-- **The source text of data is read as its spelling.** -/
theorem parse_data {m : Expr} (h : IsData 120 m) : parse m.source = .ok m.spelling := by
  obtain ⟨ts, ⟨p, hwritten⟩, hwithin⟩ := legible_data h .standard
  have hlexes := hwritten.spells [] [] (.inl rfl) .nil
  have hreads := hwithin [] (by simp [Token.Closes])
  simp only [List.append_nil] at hlexes hreads
  exact parseIn_eq_ok hlexes hreads (by decide) (by decide)

end LazyExpr
