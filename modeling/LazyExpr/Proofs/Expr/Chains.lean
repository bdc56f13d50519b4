import LazyExpr.Proofs.Expr.Completeness
import LazyExpr.Proofs.Token.Spelling

/-!
# Chains of operators

A chain is a row of integers with binary operators between them and no parentheses.  Many trees have
the same chain as their reading from left to right; the table of precedences picks one of them.  Its
rule is local: an operator asks of each of its operands that it is a number or binds tightly enough,
where the right operand of an operator that groups to the left has to bind more tightly than the
operator itself, and the left operand of one that groups to the right.

The reader goes along the chain once.  It extends what it has by one operator after another and goes
a level further down for each right operand, so that two operators never meet as such.  The
condition that holds meanwhile is that what has been read may be the left operand of the operator
that comes next.

* `BinaryOp.leftPrecedence_le_iff` — of two operators in a row, either the first may be the left
  operand of the second, or the second the right operand of the first, and never both.
* `OperatorTree.eq_of_inOrder` — **at most one tree with a given chain is grouped by the table.**
* `reads_links` — what one run of the reader along a chain gives, by induction on what is left of
  it.
* `parseIn_chain` — **the reader gives the tree that the table asks for**, up to the bound on
  nesting, which is not reached by fewer than `maxNesting` operators.
-/

namespace LazyExpr

/-! ## 1. Two operators in a row -/

namespace BinaryOp

/-- Operators of one precedence group to one side. -/
theorem isRightAssociative_eq (op : BinaryOp) :
    op.isRightAssociative = decide (op.precedence = 5) := by
  cases op <;> rfl

/-- **Of two operators in a row exactly one can have the other as an operand.** -/
theorem leftPrecedence_le_iff (first second : BinaryOp) :
    second.leftPrecedence ≤ first.precedence ↔ second.precedence < first.rightPrecedence := by
  simp only [leftPrecedence, rightPrecedence, isRightAssociative_eq, decide_eq_true_eq]
  split <;> split <;> omega

theorem precedence_le_leftPrecedence (op : BinaryOp) : op.precedence ≤ op.leftPrecedence := by
  unfold leftPrecedence
  split <;> omega

theorem precedence_le_rightPrecedence (op : BinaryOp) : op.precedence ≤ op.rightPrecedence := by
  unfold rightPrecedence
  split <;> omega

end BinaryOp

/-! ## 2. Trees that follow the table -/

/-- A tree of binary operators with integers at its leaves. -/
inductive OperatorTree where
  | leaf (value : Int64)
  | node (op : BinaryOp) (left right : OperatorTree)

namespace OperatorTree

/-- The expression that the tree is. -/
def toExpr : OperatorTree → Expr
  | leaf n => .integer n
  | node op left right => .binary op left.toExpr right.toExpr

/-- The integers and operators of the tree from left to right. -/
def inOrder : OperatorTree → List Token
  | leaf n => [.integer n]
  | node op left right => left.inOrder ++ .operator op :: right.inOrder

/-- The tree is an integer, or its operator binds at least as tightly as `least`. -/
def Binds (least : Nat) : OperatorTree → Prop
  | leaf _ => True
  | node op _ _ => least ≤ op.precedence

/-- Every operator has operands that bind tightly enough for it. -/
def Grouped : OperatorTree → Prop
  | leaf _ => True
  | node op left right =>
    left.Binds op.leftPrecedence ∧ right.Binds op.rightPrecedence ∧ left.Grouped ∧ right.Grouped

theorem Binds.mono {least least' : Nat} (h : least' ≤ least) {t : OperatorTree}
    (ht : t.Binds least) :
    t.Binds least' := by
  cases t with
  | leaf => trivial
  | node op => exact Nat.le_trans h ht

theorem inOrder_ne_nil (t : OperatorTree) : t.inOrder ≠ [] := by
  cases t <;> simp [inOrder]

theorem inOrder_leaf_ne (n : Int64) (op : BinaryOp) (left right : OperatorTree) :
    (leaf n).inOrder ≠ (node op left right).inOrder := by
  intro h
  rcases List.append_eq_singleton_iff.mp h.symm with ⟨hleft, -⟩ | ⟨-, hright⟩
  · exact left.inOrder_ne_nil hleft
  · cases hright

/-- In a tree that is grouped no operator binds less tightly than the one at the root. -/
theorem le_precedence_of_mem {least : Nat} {t : OperatorTree} (ht : t.Grouped)
    (hleast : t.Binds least)
    {op : BinaryOp} (hop : .operator op ∈ t.inOrder) : least ≤ op.precedence := by
  induction t generalizing least with
  | leaf n => simp [inOrder] at hop
  | node root left right ihl ihr =>
    obtain ⟨hleft, hright, htl, htr⟩ := ht
    have hroot : least ≤ root.precedence := hleast
    rw [inOrder, List.mem_append, List.mem_cons] at hop
    rcases hop with hop | hop | hop
    · exact ihl htl (hleft.mono (hroot.trans root.precedence_le_leftPrecedence)) hop
    · cases hop
      exact hroot
    · exact ihr htr (hright.mono (hroot.trans root.precedence_le_rightPrecedence)) hop

/-- Two roots cannot stand at different places of one chain: each would be within an operand of the
other. -/
theorem not_apart {op op' : BinaryOp} {left right left' right' : OperatorTree}
    (ht : (node op left right).Grouped) (hu : (node op' left' right').Grouped)
    {between : List Token}
    (hleft : left'.inOrder = left.inOrder ++ .operator op :: between)
    (hright : right.inOrder = between ++ .operator op' :: right'.inOrder) : False := by
  have hop : op'.leftPrecedence ≤ op.precedence :=
    le_precedence_of_mem hu.2.2.1 hu.1 (by simp [hleft])
  have hop' : op.rightPrecedence ≤ op'.precedence :=
    le_precedence_of_mem ht.2.2.2 ht.2.1 (by simp [hright])
  exact Nat.not_lt.mpr hop' ((BinaryOp.leftPrecedence_le_iff op op').mp hop)

/-- So a chain is divided at one place. -/
theorem inOrder_node_inj {op op' : BinaryOp} {left right left' right' : OperatorTree}
    (ht : (node op left right).Grouped) (hu : (node op' left' right').Grouped)
    (h : (node op left right).inOrder = (node op' left' right').inOrder) :
    left.inOrder = left'.inOrder ∧ op = op' ∧ right.inOrder = right'.inOrder := by
  rw [inOrder, inOrder] at h
  rcases List.append_eq_append_iff.mp h with ⟨between, hleft, hright⟩ | ⟨between, hleft, hright⟩
  · cases between with
    | nil => simp_all
    | cons _ between =>
      obtain ⟨rfl, hrest⟩ := List.cons.inj hright
      exact (not_apart ht hu hleft hrest).elim
  · cases between with
    | nil => simp_all
    | cons _ between =>
      obtain ⟨rfl, hrest⟩ := List.cons.inj hright
      exact (not_apart hu ht hleft hrest).elim

/-- **A chain has at most one tree that is grouped by the table.** -/
theorem eq_of_inOrder {t u : OperatorTree} (ht : t.Grouped) (hu : u.Grouped)
    (h : t.inOrder = u.inOrder) : t = u := by
  induction t generalizing u with
  | leaf n =>
    cases u with
    | leaf m =>
      cases h
      rfl
    | node op left right => exact absurd h (inOrder_leaf_ne n op left right)
  | node op left right ihl ihr =>
    cases u with
    | leaf m => exact absurd h.symm (inOrder_leaf_ne m op left right)
    | node op' left' right' =>
      obtain ⟨hleft, rfl, hright⟩ := inOrder_node_inj ht hu h
      rw [ihl ht.2.2.1 hu.2.2.1 hleft, ihr ht.2.2.2 hu.2.2.2 hright]

end OperatorTree

/-! ## 3. Chains -/

/-- An integer as it is written: digits that stand for a number in range. -/
structure Numeral where
  digits : String
  value : Int64
  ne_nil : digits.toList ≠ []
  all_isDigit : digits.toList.all Char.isDigit = true
  reads : int64OfText? digits = some value

theorem Numeral.spells (a : Numeral) : Spells a.digits [.integer a.value] := by
  obtain ⟨c, cs, hdigits⟩ := List.exists_cons_of_ne_nil a.ne_nil
  have hall := a.all_isDigit
  rw [hdigits, List.all_cons, Bool.and_eq_true] at hall
  refine spells_of_scan c cs hdigits fun rest hrest => ?_
  rw [scan_digit hall.1, scanNumber_integer hall.2 hrest, Lexeme.integerOfDigits, ← hdigits,
    String.ofList_toList, a.reads]

/-- An operator with the integer behind it. -/
abbrev Link := BinaryOp × Numeral

/-- Integers with operators between them. -/
structure Chain where
  first : Numeral
  links : List Link

/-- The text of operators with integers behind them, with a space on both sides of each operator. -/
def linksText (links : List Link) : String :=
  String.join (links.map fun link => " " ++ link.1.symbol ++ " " ++ link.2.digits)

/-- The tokens of operators with integers behind them. -/
def linkTokens (links : List Link) : List Token :=
  links.flatMap fun link => [.operator link.1, .integer link.2.value]

/-- The text of a chain. -/
def Chain.text (c : Chain) : String := c.first.digits ++ linksText c.links

/-- The tokens of a chain. -/
def Chain.tokens (c : Chain) : List Token := .integer c.first.value :: linkTokens c.links

@[simp] theorem linkTokens_nil : linkTokens [] = [] := rfl

@[simp] theorem linkTokens_cons (op : BinaryOp) (a : Numeral) (links : List Link) :
    linkTokens ((op, a) :: links) = .operator op :: .integer a.value :: linkTokens links := rfl

theorem toList_linksText_cons (op : BinaryOp) (a : Numeral) (links : List Link) :
    (linksText ((op, a) :: links)).toList =
      ' ' :: (op.symbol.toList ++ ' ' :: (a.digits.toList ++ (linksText links).toList)) := by
  simp [linksText]

/-- What stands behind an integer separates it from its operator. -/
theorem separates_linksText (links : List Link) : Separates (linksText links).toList := by
  cases links with
  | nil => exact .inl rfl
  | cons link links =>
    rw [toList_linksText_cons]
    exact .inr (.inl ⟨' ', _, rfl, by decide⟩)

theorem lexes_linksText (links : List Link) :
    Lexes (linksText links).toList (linkTokens links) := by
  induction links with
  | nil => exact .nil
  | cons link links ih =>
    obtain ⟨op, a⟩ := link
    rw [toList_linksText_cons]
    have hvalue := lexes_space (a.spells _ _ (separates_linksText links) ih)
    exact lexes_space (spells_operator op _ _ (.inr (.inl ⟨' ', _, rfl, by decide⟩)) hvalue)

theorem Chain.lexes (c : Chain) : Lexes c.text.toList c.tokens := by
  rw [Chain.text, String.toList_append]
  exact c.first.spells _ _ (separates_linksText c.links) (lexes_linksText c.links)

/-! ## 4. Reading a chain -/

section Reading

variable {limit : Nat} {scope : Scope}

/-- An operand is an integer with what extends it. -/
theorem Reads.operand {n least : Nat} {a : Int64} {ts rest : List Token} {e : Expr}
    (h : Reads limit n scope (.extension least (.integer a)) ts [e] rest) :
    Reads limit (n + 1) scope (.expression least) (.integer a :: ts) [e] rest :=
  .expression (.literal rfl) h

/-- **One run along a chain.** What may be the left operand of the next operator is extended, up to
the first operator that does not bind tightly enough, to a tree that follows the table.  The levels
that are needed are no more than the operators. -/
theorem reads_links (least : Nat) (t : OperatorTree) (links : List Link) (ht : t.Grouped)
    (hleast : t.Binds least) (hnext : ∀ link ∈ links.head?, t.Binds link.1.leftPrecedence) :
    ∃ (u : OperatorTree) (rest : List Link), u.Grouped ∧ u.Binds least ∧ rest <:+ links ∧
      (∀ link ∈ rest.head?, link.1.precedence < least) ∧
      t.inOrder ++ linkTokens links = u.inOrder ++ linkTokens rest ∧
      Reads limit links.length scope (.extension least t.toExpr) (linkTokens links) [u.toExpr]
        (linkTokens rest) := by
  -- the induction is on what is left: a right operand takes some of it, and so does the loop
  induction hlength : links.length using Nat.strong_induction_on generalizing least t links with
  | _ length ih =>
  match links with
  | [] => exact ⟨t, [], ht, hleast, List.suffix_rfl, by simp, rfl, .stop trivial⟩
  | (op, a) :: links =>
    rw [List.length_cons] at hlength
    by_cases hop : op.precedence < least
    · refine ⟨t, (op, a) :: links, ht, hleast, List.suffix_rfl, ?_, rfl, .stop hop⟩
      simpa using hop
    · have hleft : t.Binds op.leftPrecedence := hnext (op, a) rfl
      obtain ⟨right, mid, hright, hbinds, hmid, hstop, horder, hreads⟩ :=
        ih links.length (by omega) op.rightPrecedence (.leaf a.value) links trivial trivial
          (fun _ _ => trivial) rfl
      -- the operator in front of which the right operand ended may have the new tree as an operand
      have hnext' : ∀ link ∈ mid.head?,
          (OperatorTree.node op t right).Binds link.1.leftPrecedence := fun link hlink =>
        (BinaryOp.leftPrecedence_le_iff op link.1).mpr (hstop link hlink)
      have hle : mid.length ≤ links.length := hmid.length_le
      obtain ⟨u, rest, hu, hubinds, hrest, hustop, huorder, hureads⟩ :=
        ih mid.length (by omega) least (.node op t right) mid ⟨hleft, hbinds, ht, hright⟩
          (Nat.not_lt.mp hop) hnext' rfl
      refine ⟨u, rest, hu, hubinds, hrest.trans (hmid.trans (List.suffix_cons _ _)), hustop, ?_, ?_⟩
      · rw [← huorder, linkTokens_cons, OperatorTree.inOrder, List.append_assoc, List.cons_append,
          ← horder]
        rfl
      · rw [← hlength]
        refine .binary (Nat.not_lt.mp hop) nofun hreads.operand ?_
        exact hureads.mono le_rfl (by omega)

end Reading

/-- **A chain of operators is read as the tree that the table of precedences asks for.** There is
exactly one tree of operators that is the chain when read from left to right, and in which every
operator has operands that bind tightly enough for it; the text of the chain is read as this tree,
or it is nested too deeply, for which it takes at least `maxNesting` operators. -/
theorem parseIn_chain (scope : Scope) (c : Chain) :
    ∃ t : OperatorTree, t.inOrder = c.tokens ∧ t.Grouped ∧
      (∀ u : OperatorTree, u.inOrder = c.tokens → u.Grouped → u = t) ∧
      (parseIn scope c.text = .ok t.toExpr ∨
        maxNesting ≤ c.links.length ∧ ∃ error, parseIn scope c.text = .error error ∧
        error.IsTooDeep) := by
  obtain ⟨t, rest, ht, -, -, hstop, horder, hreads⟩ :=
    @reads_links maxNesting scope Precedence.lowest (.leaf c.first.value) c.links
      trivial trivial fun _ _ => trivial
  -- every operator binds tightly enough for a whole text
  obtain rfl : rest = [] := List.head?_eq_none_iff.mp
    (Option.eq_none_iff_forall_not_mem.mpr fun link hlink => Nat.not_lt_zero _ (hstop link hlink))
  have htokens : t.inOrder = c.tokens := by
    rw [linkTokens_nil, List.append_nil] at horder
    exact horder.symm
  refine ⟨t, htokens, ht, fun u hu hgrouped => ?_, ?_⟩
  · exact OperatorTree.eq_of_inOrder hgrouped ht (hu.trans htokens.symm)
  · obtain hok | ⟨error, herror, hdeep, hlevels⟩ := parseIn_eq_ok_or_tooDeep c.lexes hreads.operand
    · exact .inl hok
    · exact .inr ⟨Nat.le_of_lt_succ hlevels, error, herror, hdeep⟩

/-- Operators that group to the left and to the right, and a numeral with a leading zero: the chain
is read as the one tree that is grouped. -/
theorem parseIn_chain_mixed :
    let one : Numeral := ⟨"1", 1, by decide, by decide, by decide⟩
    let three : Numeral := ⟨"3", 3, by decide, by decide, by decide⟩
    let seven : Numeral := ⟨"07", 7, by decide, by decide, by decide⟩
    let c : Chain :=
      ⟨one, [(.sub, three), (.sub, seven), (.prepend, one), (.concat, three), (.mul, seven)]⟩
    let t : OperatorTree := .node .prepend (.node .sub (.node .sub (.leaf 1) (.leaf 3)) (.leaf 7))
      (.node .concat (.leaf 1) (.node .mul (.leaf 3) (.leaf 7)))
    c.text = "1 - 3 - 07 : 1 ++ 3 * 07" ∧ t.inOrder = c.tokens ∧ t.Grouped ∧
      parse c.text = .ok t.toExpr := by
  intro one three seven c t
  have hgrouped : t.Grouped := by
    simp only [t, OperatorTree.Grouped, OperatorTree.Binds]
    decide
  obtain ⟨u, -, -, honly, hread | ⟨hlong, -⟩⟩ := parseIn_chain .standard c
  · obtain rfl := honly t rfl hgrouped
    exact ⟨by decide, rfl, hgrouped, hread⟩
  · exact absurd hlong (by decide)

end LazyExpr
