import Squeeze.Script.CharClass

/-!
# Which blanks stay

Two characters are looked at: the current one, which is about to be written, and the next one. A
blank is dropped unless taking it away could change the script.

* A space stays only between two word characters.
* A line feed stays only where the line end could end a statement: after a character that can end
  one (a word character or one of `} ] ) " + -`) and before one that can begin one (a word
  character or one of `{ [ ( + -`). Since a line feed says more than a space, spaces after it are
  dropped while it waits for the next character.

The decision is made in two halves, because a blank is first the next character and then the current
one: a blank that is next is skipped unless the character before it lets it through, and a blank that
is current is written only if the character after it asks for it.
-/

namespace Squeeze

/-- What to do with the current and the next character. -/
inductive Action where
  /-- Write the current character; the next one becomes current. -/
  | output
  /-- Drop the current character; the next one becomes current. -/
  | copy
  /-- Keep the current character and drop the next one. -/
  | skip
  deriving DecidableEq, Repr

/-- Whether a line feed may stay after this character: it can be the last one of a statement. -/
def endsStatement (c : Char) : Bool :=
  c = '}' || c = ']' || c = ')' || c = '"' || c = '+' || c = '-' || isWord c

/-- Whether a line feed may stay before this character: it can be the first one of a statement. -/
def beginsStatement (c : Char) : Bool :=
  c = '{' || c = '[' || c = '(' || c = '+' || c = '-' || isWord c

/-- What to do when `a` is the current character and `b` the next one, if there is one. -/
def action (a : Char) (b : Option Char) : Action :=
  if a = ' ' then
    if b.any isWord then .output else .copy
  else if a = '\n' then
    if b = some ' ' then .skip else if b.any beginsStatement then .output else .copy
  else if b = some ' ' then
    if isWord a then .output else .skip
  else if b = some '\n' then
    if endsStatement a then .output else .skip
  else .output

theorem endsStatement_of_isWord {c : Char} (h : isWord c = true) : endsStatement c = true := by
  simp [endsStatement, h]

/-! ## The decision, by what the two characters are -/

section Action

variable {a b : Char}

theorem action_space_blank (hb : b = ' ' ∨ b = '\n') : action ' ' (some b) = .copy := by
  rcases hb with rfl | rfl <;> decide

theorem action_line_space : action '\n' (some ' ') = .skip := by decide

theorem action_line_line : action '\n' (some '\n') = .copy := by decide

theorem action_char_space (ha : a ≠ ' ' ∧ a ≠ '\n') :
    action a (some ' ') = if isWord a then .output else .skip := by
  simp [action, ha]

theorem action_char_line (ha : a ≠ ' ' ∧ a ≠ '\n') :
    action a (some '\n') = if endsStatement a then .output else .skip := by
  simp [action, ha]

theorem action_space_char (b : Char) :
    action ' ' (some b) = if isWord b then .output else .copy := by
  simp [action]

theorem action_line_char (hb : b ≠ ' ' ∧ b ≠ '\n') :
    action '\n' (some b) = if beginsStatement b then .output else .copy := by
  simp [action, hb]

theorem action_char_char (ha : a ≠ ' ' ∧ a ≠ '\n') (hb : b ≠ ' ' ∧ b ≠ '\n') :
    action a (some b) = .output := by
  simp [action, ha, hb]

theorem action_char_none (ha : a ≠ ' ' ∧ a ≠ '\n') : action a none = .output := by
  simp [action, ha]

end Action

/-- At the end of the text nothing is skipped. -/
theorem action_none_ne_skip (a : Char) : action a none ≠ .skip := by
  unfold action; split <;> try split
  all_goals simp

end Squeeze
