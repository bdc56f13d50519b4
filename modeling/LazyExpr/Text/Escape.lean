/-!
# Escapes of string literals

A string is written between double quotes.  Four characters are written as a backslash and a letter
or sign: the backslash, the double quote, the line feed and the carriage return.

* `escapeChar_of_unescape?`: what the reader accepts after a backslash is what the writer puts
  there.
* `escapeChar_cases`: a character is written as an escape that reads back, or as itself.
-/

namespace LazyExpr.Text

/-- What a character becomes inside a string literal. -/
def escapeChar (c : Char) : List Char :=
  if c = '\\' then ['\\', '\\']
  else if c = '"' then ['\\', '"']
  else if c = '\n' then ['\\', 'n']
  else if c = '\r' then ['\\', 'r']
  else [c]

/-- The text between the quotes of the literal that stands for `text`. -/
def escape (text : String) : String := String.ofList (text.toList.flatMap escapeChar)

/-- The character that a backslash followed by `c` stands for, if the language has that escape. -/
def unescape? (c : Char) : Option Char :=
  if c = '\\' then some '\\'
  else if c = '"' then some '"'
  else if c = 'n' then some '\n'
  else if c = 'r' then some '\r'
  else none

theorem escapeChar_of_unescape? {c d : Char} (h : unescape? c = some d) :
    escapeChar d = ['\\', c] := by
  unfold unescape? at h
  split at h
  · next hc => cases h; subst hc; decide
  split at h
  · next hc => cases h; subst hc; decide
  split at h
  · next hc => cases h; subst hc; decide
  split at h
  · next hc => cases h; subst hc; decide
  · cases h

theorem escapeChar_cases (c : Char) :
    (∃ d, unescape? d = some c ∧ escapeChar c = ['\\', d] ∧ d ≠ '\n') ∨
      (escapeChar c = [c] ∧ c ≠ '\\' ∧ c ≠ '"' ∧ c ≠ '\n') := by
  by_cases h₁ : c = '\\'
  · exact .inl ⟨'\\', by subst h₁; decide⟩
  by_cases h₂ : c = '"'
  · exact .inl ⟨'"', by subst h₂; decide⟩
  by_cases h₃ : c = '\n'
  · exact .inl ⟨'n', by subst h₃; decide⟩
  by_cases h₄ : c = '\r'
  · exact .inl ⟨'r', by subst h₄; decide⟩
  · exact .inr ⟨by simp only [escapeChar, h₁, h₂, h₃, h₄, if_false], h₁, h₂, h₃⟩

theorem toList_escape (text : String) : (escape text).toList = text.toList.flatMap escapeChar := by
  simp [escape]

end LazyExpr.Text
