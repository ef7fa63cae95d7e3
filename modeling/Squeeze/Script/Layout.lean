import Squeeze.Script.Token

/-!
# Layout

The short form of a script in terms of its tokens: every token as it is, and between two tokens a
line feed, a space, or nothing. The blank that stays is the last of its kind in the gap, so that a
source map points at the line end or the space right before the token.
-/

namespace Squeeze

/-- The last line end among some blanks. -/
def lastBreak (gap : List Piece) : Option Piece :=
  (gap.filter fun x => x.placed.isTerminator).getLast?

theorem lastBreak_append (gap : List Piece) (x : Piece) :
    lastBreak (gap ++ [x]) = if x.placed.isTerminator then some x else lastBreak gap := by
  unfold lastBreak
  rw [List.filter_append]
  split <;> rename_i h <;> simp [h]

theorem hasBreak_of_lastBreak {gap : List Piece} {x : Piece} (h : lastBreak gap = some x) :
    hasBreak gap = true := by
  have hx := List.mem_of_getLast? h
  rw [List.mem_filter] at hx
  exact List.any_eq_true.mpr ⟨x, hx⟩

theorem lastBreak_eq_none_iff {gap : List Piece} : lastBreak gap = none ↔ hasBreak gap = false := by
  simp [lastBreak, hasBreak, List.any_eq_false]

/-- Whether a line end before a token has to stay, given that one may stay after the token before. -/
def Token.wantsBreak (t : Token) : Bool :=
  t.kind = .regex || beginsStatement t.first.char

/-- The blank that stays between a token that ends in `p` and the token `t`, if one does. -/
def Token.separator (t : Token) (p : Char) : Option Piece :=
  if hasBreak t.gap then
    if endsStatement p && t.wantsBreak then lastBreak t.gap else none
  else if isWord p && isWord t.first.char then t.gap.getLast?
  else none

/-- What is written between the token before and the token `t`. -/
def Token.lead (t : Token) (previous : Option Char) : List Placed :=
  (previous.bind t.separator).toList.map Piece.placed

/-- What the short form consists of from some token on; before it stands a token that ends in
`previous`, if there is one. -/
def layoutFrom (previous : Option Char) : List Token → List Piece
  | [] => []
  | t :: ts =>
    (previous.bind t.separator).toList ++ t.chars.map .read ++ layoutFrom (some t.last.char) ts

/-- A layout is written token by token. -/
theorem map_placed_layoutFrom_cons (previous : Option Char) (t : Token) (ts : List Token) :
    (layoutFrom previous (t :: ts)).map Piece.placed =
      t.lead previous ++ (t.chars ++ (layoutFrom (some t.last.char) ts).map Piece.placed) := by
  rw [layoutFrom, List.map_append, List.map_append, Piece.map_placed_read, List.append_assoc]
  rfl

/-- What the short form consists of, one piece for each of its characters. -/
def layout (ts : List Token) : List Piece := layoutFrom none ts

end Squeeze
