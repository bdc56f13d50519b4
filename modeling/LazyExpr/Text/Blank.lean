/-!
# Blank characters

The white space of Unicode, and trimming it from a line.  Trimming is used where people's typing is
read leniently (boolean words) and where an error shows the source line without its indentation.

* `isBlank_of_isWhitespace`: every character that core counts as white space is blank.
* `trimLeft_eq_self_iff`: trimming changes nothing exactly when no blank stands in front.
-/

namespace LazyExpr.Text

/-! ## 1. The character class -/

/-- The blocks of white space characters, each from its first to its last code point. -/
def blankBlocks : List (Nat × Nat) :=
  [(0x09, 0x0D), (0x20, 0x20), (0x85, 0x85), (0xA0, 0xA0), (0x1680, 0x1680), (0x2000, 0x200A),
    (0x2028, 0x2029), (0x202F, 0x202F), (0x205F, 0x205F), (0x3000, 0x3000)]

/-- A character is blank when its code point lies in one of the blocks. -/
def isBlank (c : Char) : Bool :=
  blankBlocks.any fun (first, last) => first ≤ c.toNat && c.toNat ≤ last

theorem isBlank_of_isWhitespace {c : Char} (h : c.isWhitespace = true) : isBlank c = true := by
  have h' : c = ' ' ∨ c = '\t' ∨ c = '\r' ∨ c = '\n' := by
    simpa [Char.isWhitespace, or_assoc] using h
  rcases h' with rfl | rfl | rfl | rfl <;> decide

/-! ## 2. Trimming -/

/-- Characters without the blanks in front. -/
def trimLeft (cs : List Char) : List Char := cs.dropWhile isBlank

/-- Characters without the blanks behind. -/
def trimRight (cs : List Char) : List Char := (trimLeft cs.reverse).reverse

/-- Characters without the blanks on either side. -/
def trim (cs : List Char) : List Char := trimLeft (trimRight cs)

@[simp] theorem trimLeft_nil : trimLeft [] = [] := rfl

theorem trimLeft_cons (c : Char) (cs : List Char) :
    trimLeft (c :: cs) = if isBlank c then trimLeft cs else c :: cs := by
  cases h : isBlank c <;> simp [trimLeft, h]

theorem trimLeft_eq_self_iff {cs : List Char} :
    trimLeft cs = cs ↔ ∀ c ∈ cs.head?, isBlank c = false := by
  cases cs with
  | nil => simp
  | cons c cs =>
    cases h : isBlank c with
    | false => simp [trimLeft_cons, h]
    | true =>
      have hlen : (trimLeft cs).length ≤ cs.length := (List.dropWhile_sublist _).length_le
      have hne : trimLeft cs ≠ c :: cs := fun e => by
        have := congrArg List.length e
        simp only [List.length_cons] at this
        omega
      simp [trimLeft_cons, h, hne]

end LazyExpr.Text
