import Squeeze.Script.Token

/-!
# The grammar of a script

What a script looks like as a text: which runs of characters are comments, which are the insides of
literals, and how comments, blanks and tokens follow one another. Nothing here reads a script from
left to right. The rules say which texts have a form, not how to find it, and they know neither
`front` nor `scan` nor the window.

`Divided` is the whole of it. Its only context is what decides whether a slash opens a regular
expression: the character that ends the token before, and the blanks since then.
-/

namespace Squeeze

/-- The text of a run of characters. -/
def spelling (cs : List Placed) : List Char := cs.map Placed.char

@[simp] theorem spelling_nil : spelling [] = [] := rfl

@[simp] theorem spelling_cons (c : Placed) (cs : List Placed) :
    spelling (c :: cs) = c.char :: spelling cs := rfl

@[simp] theorem spelling_append (cs ds : List Placed) :
    spelling (cs ++ ds) = spelling cs ++ spelling ds := List.map_append

/-! ## Comments -/

/-- A line comment: two slashes and what comes after them on the line. -/
def IsLineComment (cs : List Char) : Prop :=
  ∃ body, cs = '/' :: '/' :: body ∧ '\n' ∉ body

/-- A block comment: `/*`, and all that comes after it up to the first `*/`. -/
def IsBlockComment (cs : List Char) : Prop :=
  ∃ body, cs = '/' :: '*' :: (body ++ ['*', '/']) ∧ ¬ ['*', '/'] <:+: body ++ ['*']

/-- Whether a comment opens at the beginning of a text. -/
def opensComment : List Char → Bool
  | a :: b :: _ => a = '/' && (b = '/' || b = '*')
  | _ => false

/-! ## Literals -/

/-- The inside of something that the character `close` closes: `close` comes only after a backslash,
and a line end does not come at all. -/
inductive Enclosed (close : Char) : List Char → Prop
  /-- Nothing is inside. -/
  | nil : Enclosed close []
  /-- A character that stands for itself. -/
  | plain {c : Char} {cs : List Char} (hclose : c ≠ close) (hescape : c ≠ '\\') (hbreak : c ≠ '\n')
      (h : Enclosed close cs) : Enclosed close (c :: cs)
  /-- A backslash and the character after it. -/
  | escaped {c : Char} {cs : List Char} (hbreak : c ≠ '\n') (h : Enclosed close cs) :
      Enclosed close ('\\' :: c :: cs)

/-- The inside of a regular expression literal. A slash comes only after a backslash or in a character
class. -/
inductive RegexBody : List Char → Prop
  /-- Nothing is inside. -/
  | nil : RegexBody []
  /-- A character that stands for itself. -/
  | plain {c : Char} {cs : List Char} (hclose : c ≠ '/') (hclass : c ≠ '[') (hescape : c ≠ '\\')
      (hbreak : c ≠ '\n') (h : RegexBody cs) : RegexBody (c :: cs)
  /-- A backslash and the character after it. -/
  | escaped {c : Char} {cs : List Char} (hbreak : c ≠ '\n') (h : RegexBody cs) :
      RegexBody ('\\' :: c :: cs)
  /-- A character class. -/
  | characterClass {inside cs : List Char} (hin : Enclosed ']' inside) (h : RegexBody cs) :
      RegexBody ('[' :: (inside ++ ']' :: cs))

/-! ## Scripts -/

/-- The characters `cs` are the rest of a script, after a token that ends in `previous`, if there is
one, and after the blanks `gap`; and `ts` are the tokens in it. -/
inductive Divided : Option Char → List Piece → List Placed → List Token → Prop
  /-- The end of the script. The blanks before it belong to no token. -/
  | done (previous : Option Char) (gap : List Piece) : Divided previous gap [] []
  /-- A space or a line end. -/
  | blank {previous : Option Char} {gap : List Piece} {cs : List Placed} {ts : List Token}
      (c : Placed) (hc : c.char = ' ' ∨ c.char = '\n')
      (h : Divided previous (gap ++ [.read c]) cs ts) : Divided previous gap (c :: cs) ts
  /-- A line comment, which is as good as nothing. Its line end is none of it. -/
  | lineComment {previous : Option Char} {gap : List Piece} {cs : List Placed} {ts : List Token}
      (comment : List Placed) (hc : IsLineComment (spelling comment))
      (hend : ∀ c ∈ cs.head?, c.char = '\n')
      (h : Divided previous gap cs ts) : Divided previous gap (comment ++ cs) ts
  /-- A block comment, which is as good as a space. -/
  | blockComment {previous : Option Char} {gap : List Piece} {cs : List Placed} {ts : List Token}
      (comment : List Placed) (hc : IsBlockComment (spelling comment))
      (h : Divided previous (gap ++ [.comment comment]) cs ts) :
      Divided previous gap (comment ++ cs) ts
  /-- A string literal, between two quotes of one kind. -/
  | string {previous : Option Char} {gap : List Piece} {cs : List Placed} {ts : List Token}
      (quote : Placed) (body : List Placed) (close : Placed)
      (hq : quote.char = '\'' ∨ quote.char = '"') (hb : Enclosed quote.char (spelling body))
      (hc : close.char = quote.char) (h : Divided (some close.char) [] cs ts) :
      Divided previous gap (quote :: (body ++ close :: cs))
        (⟨gap, .string, quote, body ++ [close]⟩ :: ts)
  /-- A regular expression literal, between two slashes. -/
  | regex {previous : Option Char} {gap : List Piece} {cs : List Placed} {ts : List Token}
      (slash : Placed) (body : List Placed) (close : Placed)
      (hs : slash.char = '/') (hr : regexOpens previous gap)
      (hn : opensComment (spelling (slash :: (body ++ [close]))) = false)
      (hb : RegexBody (spelling body)) (hc : close.char = '/')
      (h : Divided (some close.char) [] cs ts) :
      Divided previous gap (slash :: (body ++ close :: cs))
        (⟨gap, .regex, slash, body ++ [close]⟩ :: ts)
  /-- Any other character. -/
  | single {previous : Option Char} {gap : List Piece} {cs : List Placed} {ts : List Token}
      (c : Placed) (hblank : c.char ≠ ' ' ∧ c.char ≠ '\n') (hquote : c.char ≠ '\'' ∧ c.char ≠ '"')
      (hr : c.char = '/' → regexOpens previous gap = false)
      (hn : opensComment (spelling (c :: cs)) = false)
      (h : Divided (some c.char) [] cs ts) :
      Divided previous gap (c :: cs) (⟨gap, .single, c, []⟩ :: ts)

end Squeeze
