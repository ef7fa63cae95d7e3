import Squeeze.Script.Grammar

/-!
# Points of a script

A point stands between two parts of a script, outside literals and comments. From one point to the
next a blank, a comment or a token is passed, by the rules of the grammar and in one way only, so to
read a script is to go from point to point. A script that is divided into tokens is read to its end;
one that is not gets to a point where something opens and is never closed (`Unclosed`).

Points are needed wherever a statement is about a place in a script and not about the script as a
whole. Like the grammar, they know nothing of how a script is scanned.
-/

namespace Squeeze

/-- A point of a script. Of what comes before it only that is kept which decides whether a slash opens
a regular expression. -/
structure Point where
  /-- The character that ends the token before, if there is one. -/
  previous : Option Char
  /-- The blanks since then. -/
  gap : List Piece
  /-- The rest of the script. -/
  ahead : List Placed

namespace Point

/-- The point at the beginning of a script. -/
def start (cs : List Placed) : Point := ⟨none, [], cs⟩

/-- One part of the script is passed, and the next point is reached. A token is given with the step,
since it is what the script is divided into. -/
inductive Passes : Point → Option Token → Point → Prop
  /-- A space or a line end. -/
  | blank {previous : Option Char} {gap : List Piece} {cs : List Placed}
      (c : Placed) (hc : c.char = ' ' ∨ c.char = '\n') :
      Passes ⟨previous, gap, c :: cs⟩ none ⟨previous, gap ++ [.read c], cs⟩
  /-- A line comment, up to its line end. -/
  | lineComment {previous : Option Char} {gap : List Piece} {cs : List Placed}
      (comment : List Placed) (hc : IsLineComment (spelling comment))
      (hend : ∀ c ∈ cs.head?, c.char = '\n') :
      Passes ⟨previous, gap, comment ++ cs⟩ none ⟨previous, gap, cs⟩
  /-- A block comment. -/
  | blockComment {previous : Option Char} {gap : List Piece} {cs : List Placed}
      (comment : List Placed) (hc : IsBlockComment (spelling comment)) :
      Passes ⟨previous, gap, comment ++ cs⟩ none ⟨previous, gap ++ [.comment comment], cs⟩
  /-- A string literal. -/
  | string {previous : Option Char} {gap : List Piece} {cs : List Placed}
      (quote : Placed) (body : List Placed) (close : Placed)
      (hq : quote.char = '\'' ∨ quote.char = '"') (hb : Enclosed quote.char (spelling body))
      (hc : close.char = quote.char) :
      Passes ⟨previous, gap, quote :: (body ++ close :: cs)⟩
        (some ⟨gap, .string, quote, body ++ [close]⟩) ⟨some close.char, [], cs⟩
  /-- A regular expression literal. -/
  | regex {previous : Option Char} {gap : List Piece} {cs : List Placed}
      (slash : Placed) (body : List Placed) (close : Placed)
      (hs : slash.char = '/') (hr : regexOpens previous gap)
      (hn : opensComment (spelling (slash :: (body ++ [close]))) = false)
      (hb : RegexBody (spelling body)) (hc : close.char = '/') :
      Passes ⟨previous, gap, slash :: (body ++ close :: cs)⟩
        (some ⟨gap, .regex, slash, body ++ [close]⟩) ⟨some close.char, [], cs⟩
  /-- Any other character. -/
  | single {previous : Option Char} {gap : List Piece} {cs : List Placed}
      (c : Placed) (hblank : c.char ≠ ' ' ∧ c.char ≠ '\n')
      (hquote : c.char ≠ '\'' ∧ c.char ≠ '"') (hr : c.char = '/' → regexOpens previous gap = false)
      (hn : opensComment (spelling (c :: cs)) = false) :
      Passes ⟨previous, gap, c :: cs⟩ (some ⟨gap, .single, c, []⟩) ⟨some c.char, [], cs⟩

/-- From the first point the tokens `ts` are read, and the second point is reached. -/
inductive Reads : Point → List Token → Point → Prop
  /-- Nothing is read. -/
  | here (s : Point) : Reads s [] s
  /-- One part is passed, and what comes after it is read. -/
  | onward {s s' s'' : Point} {t : Option Token} {ts : List Token} (h : Passes s t s')
      (hs : Reads s' ts s'') : Reads s (t.toList ++ ts) s''

end Point

/-! ## What is never closed -/

/-- The inside of a literal that breaks off, when `inside` says which texts may stand in one that does
not: it breaks off between two characters, or after a backslash that has no character to escape. -/
def BreaksOff (inside : List Char → Prop) (cs : List Char) : Prop :=
  inside cs ∨ ∃ ds, cs = ds ++ ['\\'] ∧ inside ds

/-- At a point of a script something is opened by the character `opener`, and never closed. A literal
has to be closed before the line ends, even where the line end has a backslash before it. -/
inductive Point.Unclosed : Point → Unterminated → Placed → Prop
  /-- A block comment. -/
  | comment {previous : Option Char} {gap : List Piece} (slash star : Placed) (body : List Placed)
      (hs : slash.char = '/') (ht : star.char = '*') (hb : ¬ ['*', '/'] <:+: spelling body) :
      Unclosed ⟨previous, gap, slash :: star :: body⟩ .comment slash
  /-- A string literal. -/
  | string {previous : Option Char} {gap : List Piece} (quote : Placed) (inside rest : List Placed)
      (hq : quote.char = '\'' ∨ quote.char = '"')
      (hb : BreaksOff (Enclosed quote.char) (spelling inside))
      (hend : ∀ c ∈ rest.head?, c.char = '\n') :
      Unclosed ⟨previous, gap, quote :: (inside ++ rest)⟩ .string quote
  /-- A regular expression literal, outside its character classes. -/
  | regex {previous : Option Char} {gap : List Piece} (slash : Placed) (inside rest : List Placed)
      (hs : slash.char = '/') (hr : regexOpens previous gap)
      (hn : opensComment (spelling (slash :: (inside ++ rest))) = false)
      (hb : BreaksOff RegexBody (spelling inside)) (hend : ∀ c ∈ rest.head?, c.char = '\n') :
      Unclosed ⟨previous, gap, slash :: (inside ++ rest)⟩ .regex slash
  /-- A character class of a regular expression literal. -/
  | regexClass {previous : Option Char} {gap : List Piece} (slash : Placed) (before : List Placed)
      (bracket : Placed) (inside rest : List Placed) (hs : slash.char = '/')
      (hr : regexOpens previous gap)
      (hn : opensComment (spelling (slash :: (before ++ bracket :: (inside ++ rest)))) = false)
      (hbefore : RegexBody (spelling before)) (hbracket : bracket.char = '[')
      (hb : BreaksOff (Enclosed ']') (spelling inside))
      (hend : ∀ c ∈ rest.head?, c.char = '\n') :
      Unclosed ⟨previous, gap, slash :: (before ++ bracket :: (inside ++ rest))⟩ .regexClass slash

/-- The first thing that is opened in a script and never closed: all that comes before it is passed. -/
def LeftOpen (cs : List Placed) (what : Unterminated) (opener : Placed) : Prop :=
  ∃ ts s, (Point.start cs).Reads ts s ∧ s.Unclosed what opener

end Squeeze
