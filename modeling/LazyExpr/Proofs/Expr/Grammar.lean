import LazyExpr.Expr.Interpolation
import LazyExpr.Proofs.Token.Ahead
import LazyExpr.Scope

/-!
# The grammar of expressions

What the readers accept, as rules over lists of tokens: no stream, no fuel, no order of tries.
Every rule is one branch of a reader that succeeds.  Reading is bounded by levels: an expression,
and the operand of a prefix operator, is read one level further down, and an expression embedded in
a string starts again from a limit of its own.

* `Phrase` names what is being read, `Reads limit levels scope phrase ts items rest` says that the
  tokens `ts` begin with the phrase, which stands for `items`, and that `rest` follows it.
* `Reads.mono`: what can be read within some levels can be read within more.
* `Reads.startsValue`, `Reads.length_le_of_group`: what the first token of a value is, and that a
  group has no fewer expressions than were read.
-/

namespace LazyExpr

/-! ## 1. What tokens announce -/

namespace Token

/-- Whether a value can begin with the token. -/
def startsValue : Token → Bool
  | integer _ | decimal _ | bool _ | null | str _ | template _ | identifier _ | bang | leftParen
  | leftBracket | backslash | ifWord => true
  | operator op => op == .sub
  | thenWord | elseWord | arrow | rightParen | rightBracket | comma | dots | dollar => false

/-- The value that a literal token stands for. -/
def literal? : Token → Option Expr
  | integer n => some (.integer n)
  | decimal d => some (.decimal d)
  | bool b => some (.bool b)
  | null => some .null
  | str text => some (.str text)
  | identifier _ | template _ | operator _ | bang | backslash | arrow | leftParen | rightParen
  | leftBracket | rightBracket | comma | dots | dollar | ifWord | thenWord | elseWord => none

/-- `StopsAt least next`: an expression read at strength `least` ends in front of `next`. -/
def StopsAt (least : Nat) : Option Token → Prop
  | none => True
  | some (operator op) => op.precedence < least
  | some dollar => least ≠ Precedence.lowest
  | some t => t.startsValue = false

end Token

/-- The token of a prefix operator. -/
def UnaryOp.token : UnaryOp → Token
  | negate => .operator .sub
  | not => .bang

/-- The range with one or two values in front of its dots. -/
def Expr.rangeOf? (stop : Option Expr) : List Expr → Option Expr
  | [start] => some (.range start none stop)
  | [start, second] => some (.range start (some second) stop)
  | _ => none

/-! ## 2. The rules -/

/-- What is being read. -/
inductive Phrase where
  /-- An expression whose operators bind at least as tightly as `least`. -/
  | expression (least : Nat)
  /-- What extends `left`. -/
  | extension (least : Nat) (left : Expr)
  | value
  /-- What stands behind an opening parenthesis. -/
  | parens
  /-- The rest of a group; `items` were read before, the latest first. -/
  | group (items : List Expr)
  /-- The rest of a list or range; `items` were read before, the latest first. -/
  | elements (items : List Expr)
  /-- The pieces of an interpolated string, which take no token. -/
  | pieces (pieces : List Piece)

/-- `Reads limit levels scope phrase ts items rest`: with so many levels left, the phrase at the
front of `ts` stands for `items`, and `rest` is behind it. -/
inductive Reads (limit : Nat) :
    (levels : Nat) → Scope → Phrase → List Token → List Expr → List Token → Prop where
  | expression {n scope least ts first mid e rest}
      (hfirst : Reads limit n scope .value ts [first] mid)
      (hrest : Reads limit n scope (.extension least first) mid [e] rest) :
      Reads limit (n + 1) scope (.expression least) ts [e] rest
  | stop {n scope least left ts} (hstop : Token.StopsAt least ts.head?) :
      Reads limit n scope (.extension least left) ts [left] ts
  | binary {n scope least left op ts right mid e rest} (hleast : least ≤ op.precedence)
      (hparen : least = Precedence.lowest → ts.head? ≠ some .rightParen)
      (hright : Reads limit n scope (.expression op.rightPrecedence) ts [right] mid)
      (hrest : Reads limit n scope (.extension least (.binary op left right)) mid [e] rest) :
      Reads limit n scope (.extension least left) (.operator op :: ts) [e] rest
  | leftSection {n scope left op ts} :
      Reads limit n scope (.extension Precedence.lowest left) (.operator op :: .rightParen :: ts)
        [.leftSection op left] (.rightParen :: ts)
  | dollar {n scope left ts argument mid e rest}
      (hargument : Reads limit n scope (.expression Precedence.lowest) ts [argument] mid)
      (hrest : Reads limit n scope
        (.extension Precedence.lowest (.call left argument)) mid [e] rest) :
      Reads limit n scope (.extension Precedence.lowest left) (.dollar :: ts) [e] rest
  | juxtapose {n scope least left ts items mid e rest} (hop : ∀ op, ts.head? ≠ some (.operator op))
      (hvalue : Reads limit n scope .value ts items mid)
      (hrest : Reads limit n scope (.extension least (left.callAll items)) mid [e] rest) :
      Reads limit n scope (.extension least left) ts [e] rest
  | literal {n scope t e ts} (ht : t.literal? = some e) :
    Reads limit n scope .value (t :: ts) [e] ts
  | name {n scope name e ts} (hlookup : scope.lookup name = some e) :
      Reads limit n scope .value (.identifier name :: ts) [e] ts
  | template {n scope body fragments ts}
      (h : Reads limit n scope (.pieces (Piece.pieces body)) ts [.interpolated fragments] ts) :
      Reads limit n scope .value (.template body :: ts) [.interpolated fragments] ts
  | unary {n scope op ts operand rest} (h : Reads limit n scope .value ts [operand] rest) :
      Reads limit (n + 1) scope .value (UnaryOp.token op :: ts) [.unary op operand] rest
  | parens {n scope ts items rest} (h : Reads limit n scope .parens ts items rest) :
      Reads limit n scope .value (.leftParen :: ts) items rest
  | emptyList {n scope ts} :
      Reads limit n scope .value (.leftBracket :: .rightBracket :: ts) [.literal []] ts
  | list {n scope ts e rest} (hopen : ts.head? ≠ some .rightBracket)
      (h : Reads limit n scope (.elements []) ts [e] rest) :
      Reads limit n scope .value (.leftBracket :: ts) [e] rest
  | lambda {n scope names ts body rest} (hnames : names ≠ [])
      (h : Reads limit n (scope.inside names) (.expression Precedence.lowest) ts [body] rest) :
      Reads limit n scope .value (.backslash :: (names.map Token.identifier ++ .arrow :: ts))
        [.lambda (scope.depth + 1) names body] rest
  | conditional {n scope ts condition ts₁ yes ts₂ no rest}
      (hcondition : Reads limit n scope (.expression Precedence.lowest) ts [condition]
        (.thenWord :: ts₁))
      (hyes : Reads limit n scope (.expression Precedence.lowest) ts₁ [yes] (.elseWord :: ts₂))
      (hno : Reads limit n scope (.expression Precedence.lowest) ts₂ [no] rest) :
      Reads limit n scope .value (.ifWord :: ts) [.conditional condition yes no] rest
  /-- A minus sign behind a parenthesis is a prefix operator, and what it negates is extended on the
  level of the parenthesis. -/
  | negation {n scope ts operand mid e rest}
      (hoperand : Reads limit n scope .value ts [operand] mid)
      (hrest : Reads limit (n + 1) scope (.extension Precedence.lowest (.unary .negate operand)) mid
        [e] (.rightParen :: rest)) :
      Reads limit (n + 1) scope .parens (.operator .sub :: ts) [e] rest
  | rightSection {n scope op ts right rest} (hop : op ≠ .sub)
      (h : Reads limit n scope (.expression Precedence.lowest) ts [right] (.rightParen :: rest)) :
      Reads limit n scope .parens (.operator op :: ts) [.rightSection op right] rest
  | enclosed {n scope ts e rest} (hop : ∀ op, ts.head? ≠ some (.operator op))
      (h : Reads limit n scope (.expression Precedence.lowest) ts [e] (.rightParen :: rest)) :
      Reads limit n scope .parens ts [e] rest
  | grouped {n scope ts first mid items rest} (hop : ∀ op, ts.head? ≠ some (.operator op))
      (hfirst : Reads limit n scope (.expression Precedence.lowest) ts [first] (.comma :: mid))
      (hrest : Reads limit n scope (.group [first]) (.comma :: mid) items rest) :
      Reads limit n scope .parens ts items rest
  | groupMore {n scope items ts item mid all rest}
      (hitem : Reads limit n scope (.expression Precedence.lowest) ts [item] mid)
      (hrest : Reads limit n scope (.group (item :: items)) mid all rest) :
      Reads limit n scope (.group items) (.comma :: ts) all rest
  | groupEnd {n scope items ts} :
      Reads limit n scope (.group items) (.rightParen :: ts) items.reverse ts
  | elementsMore {n scope items ts item mid e rest}
      (hitem : Reads limit n scope (.expression Precedence.lowest) ts [item] (.comma :: mid))
      (hrest : Reads limit n scope (.elements (item :: items)) mid [e] rest) :
      Reads limit n scope (.elements items) ts [e] rest
  | elementsEnd {n scope items ts item rest}
      (hitem : Reads limit n scope (.expression Precedence.lowest) ts [item]
        (.rightBracket :: rest)) :
      Reads limit n scope (.elements items) ts [.literal (item :: items).reverse] rest
  | rangeOpen {n scope items ts item e rest}
      (hitem : Reads limit n scope (.expression Precedence.lowest) ts [item]
        (.dots :: .rightBracket :: rest))
      (hrange : Expr.rangeOf? none (item :: items).reverse = some e) :
      Reads limit n scope (.elements items) ts [e] rest
  | rangeClosed {n scope items ts item mid stop e rest}
      (hitem : Reads limit n scope (.expression Precedence.lowest) ts [item] (.dots :: mid))
      (hstop : Reads limit n scope (.expression Precedence.lowest) mid [stop]
        (.rightBracket :: rest))
      (hrange : Expr.rangeOf? (some stop) (item :: items).reverse = some e) :
      Reads limit n scope (.elements items) ts [e] rest
  | noPiece {n scope ts} : Reads limit n scope (.pieces []) ts [.interpolated []] ts
  | textPiece {n scope text pieces fragments ts}
      (h : Reads limit n scope (.pieces pieces) ts [.interpolated fragments] ts) :
      Reads limit n scope (.pieces (.text text :: pieces)) ts
        [.interpolated (.text text :: fragments)] ts
  | namePiece {n scope name e pieces fragments ts} (hlookup : scope.lookup name = some e)
      (h : Reads limit n scope (.pieces pieces) ts [.interpolated fragments] ts) :
      Reads limit n scope (.pieces (.name name :: pieces)) ts
        [.interpolated (.embedded e :: fragments)] ts
  /-- An embedded expression is a text of its own and starts with all levels. -/
  | sourcePiece {n scope source tokens e pieces fragments ts} (hlexes : Lexes source.toList tokens)
      (hsource : Reads limit limit scope (.expression Precedence.lowest) tokens [e] [])
      (h : Reads limit n scope (.pieces pieces) ts [.interpolated fragments] ts) :
      Reads limit n scope (.pieces (.source source :: pieces)) ts
        [.interpolated (.embedded e :: fragments)] ts

/-! ## 3. More levels -/

/-- **Levels are a bound.**  What is read within some levels and a limit is read within more. -/
theorem Reads.mono {limit n scope phrase ts items rest}
    (h : Reads limit n scope phrase ts items rest)
    {limit' n' : Nat} (hlimit : limit ≤ limit') (hn : n ≤ n') :
    Reads limit' n' scope phrase ts items rest := by
  induction h generalizing n' with
  | expression _ _ ih₁ ih₂ =>
    obtain ⟨m, rfl⟩ : ∃ m, n' = m + 1 := ⟨n' - 1, by omega⟩
    exact .expression (ih₁ (by omega)) (ih₂ (by omega))
  | stop hstop => exact .stop hstop
  | binary hleast hparen _ _ ih₁ ih₂ => exact .binary hleast hparen (ih₁ hn) (ih₂ hn)
  | leftSection => exact .leftSection
  | dollar _ _ ih₁ ih₂ => exact .dollar (ih₁ hn) (ih₂ hn)
  | juxtapose hop _ _ ih₁ ih₂ => exact .juxtapose hop (ih₁ hn) (ih₂ hn)
  | literal ht => exact .literal ht
  | name hlookup => exact .name hlookup
  | template _ ih => exact .template (ih hn)
  | unary _ ih =>
    obtain ⟨m, rfl⟩ : ∃ m, n' = m + 1 := ⟨n' - 1, by omega⟩
    exact .unary (ih (by omega))
  | parens _ ih => exact .parens (ih hn)
  | emptyList => exact .emptyList
  | list hopen _ ih => exact .list hopen (ih hn)
  | lambda hnames _ ih => exact .lambda hnames (ih hn)
  | conditional _ _ _ ih₁ ih₂ ih₃ => exact .conditional (ih₁ hn) (ih₂ hn) (ih₃ hn)
  | negation _ _ ih₁ ih₂ =>
    obtain ⟨m, rfl⟩ : ∃ m, n' = m + 1 := ⟨n' - 1, by omega⟩
    exact .negation (ih₁ (by omega)) (ih₂ hn)
  | rightSection hop _ ih => exact .rightSection hop (ih hn)
  | enclosed hop _ ih => exact .enclosed hop (ih hn)
  | grouped hop _ _ ih₁ ih₂ => exact .grouped hop (ih₁ hn) (ih₂ hn)
  | groupMore _ _ ih₁ ih₂ => exact .groupMore (ih₁ hn) (ih₂ hn)
  | groupEnd => exact .groupEnd
  | elementsMore _ _ ih₁ ih₂ => exact .elementsMore (ih₁ hn) (ih₂ hn)
  | elementsEnd _ ih => exact .elementsEnd (ih hn)
  | rangeOpen _ hrange ih => exact .rangeOpen (ih hn) hrange
  | rangeClosed _ _ hrange ih₁ ih₂ => exact .rangeClosed (ih₁ hn) (ih₂ hn) hrange
  | noPiece => exact .noPiece
  | textPiece _ ih => exact .textPiece (ih hn)
  | namePiece hlookup _ ih => exact .namePiece hlookup (ih hn)
  | sourcePiece hlexes _ _ ih₁ ih₂ => exact .sourcePiece hlexes (ih₁ hlimit) (ih₂ hn)

/-! ## 4. Shapes -/

/-- A value begins with a token that announces one. -/
theorem Reads.startsValue {limit n scope ts items rest}
    (h : Reads limit n scope .value ts items rest) : ts.head?.any Token.startsValue = true := by
  cases h with
  | @literal _ _ t _ _ ht => cases t <;> first | rfl | cases ht
  | @unary _ _ op => cases op <;> rfl
  | _ => rfl

/-- A group keeps what was read before. -/
theorem Reads.length_le_of_group {limit n scope before ts items rest}
    (h : Reads limit n scope (.group before) ts items rest) : before.length ≤ items.length := by
  generalize hphrase : Phrase.group before = phrase at h
  induction h generalizing before with
  | groupMore _ _ _ ih =>
    cases hphrase
    exact Nat.le_of_succ_le (ih rfl)
  | groupEnd =>
    cases hphrase
    simp
  | _ => cases hphrase

end LazyExpr
