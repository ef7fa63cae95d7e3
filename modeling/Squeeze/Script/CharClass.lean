/-!
# Classes of characters

Which characters can be part of a word, which ones open a string, and after which ones a slash opens
a regular expression. These three classes are all that is known about the language of the scripts.
-/

namespace Squeeze

/-- Whether a character can be part of an identifier or a number: ASCII letters and digits, the
underscore, the dollar sign, the backslash of an escaped letter, and all that lies beyond the ASCII
graphic characters. -/
def isWord (c : Char) : Bool :=
  c.isAlphanum || c = '_' || c = '$' || c = '\\' || '~' < c

/-- Whether a character opens a string literal. -/
def isQuote (c : Char) : Bool :=
  c = '\'' || c = '"'

/-- Whether a slash after this character opens a regular expression literal instead of being a
division. After these characters no operand has just ended, so there is nothing to divide. -/
def opensRegexAfter (c : Char) : Bool :=
  c = '\n' || c = '(' || c = ',' || c = '=' || c = ':' || c = '[' || c = '!' || c = '&' ||
    c = '|' || c = '?' || c = '{' || c = '}' || c = ';'

/-- Whether the character `b`, which comes after `a`, opens a regular expression literal. Without a
character before it nothing does. -/
def startsRegex (a b : Option Char) : Bool :=
  b = some '/' && a.any opensRegexAfter

theorem isQuote_iff {c : Char} : isQuote c = true ↔ c = '\'' ∨ c = '"' := by
  simp [isQuote]

/-- At the end of a script no regular expression begins. -/
@[simp] theorem startsRegex_none (a : Option Char) : startsRegex a none = false := rfl

/-- No regular expression begins right after another one. -/
theorem startsRegex_slash {a : Option Char} (ha : a = some '/') (b : Option Char) :
    startsRegex a b = false := by
  subst ha
  simp [startsRegex, opensRegexAfter]

/-- No regular expression begins without a character before it. -/
@[simp] theorem none_startsRegex (b : Option Char) : startsRegex none b = false := by
  simp [startsRegex]

end Squeeze
