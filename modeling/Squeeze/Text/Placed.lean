import Squeeze.Text.Position

/-!
# Placed characters

Everything between the text and the output handles characters together with where they came from,
because a source map has to say of each character of the output which character of the input it is.
A character that was read carries its place; one that was made up on the way, such as the space that
stands for a comment, carries none and so never appears in a source map.
-/

namespace Squeeze

/-- A character and where it was read. -/
structure Placed where
  /-- The character, as it stands in the canonical text. -/
  char : Char
  /-- The place it was read from; `none` for a character that was not read but made up. -/
  origin : Option Position
  deriving DecidableEq, Repr

namespace Placed

/-- A character that was made up and so has no place. -/
def synthetic (c : Char) : Placed := ⟨c, none⟩

/-- Whether a character ends a line. In a canonical text only the line feed does: all other
characters up to it have become spaces. -/
def isTerminator (c : Placed) : Bool := c.char ≤ '\n'

/-- Whether a character is one of the two that can stand between tokens. -/
def isBlank (c : Placed) : Bool := c.char = ' ' || c.char = '\n'

theorem isBlank_iff {c : Placed} : c.isBlank = true ↔ c.char = ' ' ∨ c.char = '\n' := by
  simp [isBlank]

theorem isBlank_eq_false_iff {c : Placed} :
    c.isBlank = false ↔ c.char ≠ ' ' ∧ c.char ≠ '\n' := by
  simp [isBlank]

theorem isBlank_of_quote {c : Placed} (h : c.char = '\'' ∨ c.char = '"') : c.isBlank = false := by
  rw [isBlank_eq_false_iff]
  rcases h with h | h <;> simp [h]

/-- A line feed ends a line, in whatever text. -/
theorem isTerminator_of_char {c : Placed} (h : c.char = '\n') : c.isTerminator = true := by
  simp [isTerminator, h]

theorem isTerminator_space {c : Placed} (h : c.char = ' ') : c.isTerminator = false := by
  simp [isTerminator, h]

theorem char_eq_newline {c : Placed} (hc : c.isBlank) (ht : c.isTerminator = true) :
    c.char = '\n' := by
  rcases isBlank_iff.mp hc with h | h
  · rw [isTerminator_space h] at ht
    cases ht
  · exact h

theorem char_eq_space {c : Placed} (hc : c.isBlank) (ht : c.isTerminator = false) :
    c.char = ' ' := by
  rcases isBlank_iff.mp hc with h | h
  · exact h
  · rw [isTerminator_of_char h] at ht
    cases ht

end Placed

end Squeeze
