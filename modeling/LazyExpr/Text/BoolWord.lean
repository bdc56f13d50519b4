import LazyExpr.Text.Blank

/-!
# Boolean words

A string counts as a boolean when it is one of the words people type for yes and no, in any letter
case and with blanks around it.
-/

namespace LazyExpr.Text

/-- The words for true. -/
def yesWords : List String := ["true", "t", "y", "yes"]

/-- The words for false. -/
def noWords : List String := ["false", "f", "n", "no"]

/-- The text with its ASCII letters in lower case and without blanks on either side. -/
def plainWord (text : String) : String :=
  String.ofList ((trim text.toList).map Char.toLower)

/-- The boolean that `text` spells, if it spells one. -/
def readBool? (text : String) : Option Bool :=
  let word := plainWord text
  if word ∈ yesWords then some true
  else if word ∈ noWords then some false
  else none

theorem yesWords_disjoint : ∀ w ∈ yesWords, w ∉ noWords := by decide

theorem readBool?_eq_some_true_iff {text : String} :
    readBool? text = some true ↔ plainWord text ∈ yesWords := by
  unfold readBool?
  by_cases h : plainWord text ∈ yesWords <;> simp [h]

theorem readBool?_eq_some_false_iff {text : String} :
    readBool? text = some false ↔ plainWord text ∈ noWords := by
  unfold readBool?
  by_cases h : plainWord text ∈ yesWords
  · simp [h, yesWords_disjoint _ h]
  · simp [h]

end LazyExpr.Text
