import Squeeze.Text.Lines

/-!
# Finding a character by line and column

A text is shown in lines, and within a line the columns are counted: by some in characters, by others in
UTF-16 code units. A position carries both columns because either may be asked for, and either one finds
the character again that stands there (`lookUp_advanceAll`).

The line feed at the end of a line is a character of that line. It stands in the column after all the
others.
-/

namespace Squeeze

/-- The lines of a text, each with the line feed that ends it. -/
def lines : List Char → List (List Char)
  | [] => []
  | c :: cs => if c = '\n' then [c] :: lines cs else (c :: (lines cs).headD []) :: (lines cs).tail

/-- What columns are counted in. -/
inductive ColumnUnit where
  | characters
  | codeUnits

namespace ColumnUnit

/-- The number of columns that a character takes up. -/
def width : ColumnUnit → Char → Nat
  | characters, _ => 1
  | codeUnits, c => utf16Length c

/-- The column in which a place is. -/
def column : ColumnUnit → Position → Nat
  | characters => Position.column
  | codeUnits => Position.utf16Column

/-- Whether a place comes before another one: on a line further up, or on the same line in a column
further to the left. -/
def Before (u : ColumnUnit) (p q : Position) : Prop :=
  p.line < q.line ∨ p.line = q.line ∧ u.column p < u.column q

/-- The character of a line that begins in the given column. -/
def charIn (u : ColumnUnit) : List Char → Nat → Option Char
  | [], _ => none
  | c :: cs, n =>
    if n = 0 then some c
    else if n < u.width c then none
    else u.charIn cs (n - u.width c)

/-- The character of a text that is found on the line and in the column of `p`. -/
def lookUp (u : ColumnUnit) (text : List Char) (p : Position) : Option Char :=
  (lines text)[p.line - 1]?.bind fun line => u.charIn line (u.column p)

variable {u : ColumnUnit} {p q r : Position}

/-! ## Passing characters -/

theorem width_pos (u : ColumnUnit) (c : Char) : 0 < u.width c := by
  cases u with
  | characters => exact Nat.one_pos
  | codeUnits =>
    rw [width, utf16Length]
    split <;> decide

theorem column_advance_of_ne {c : Char} (u : ColumnUnit) (p : Position) (h : c ≠ '\n') :
    u.column (p.advance c) = u.column p + u.width c := by
  rw [Position.advance_of_ne p h]
  cases u <;> rfl

theorem column_below (u : ColumnUnit) (k : Nat) (p : Position) :
    u.column (p.below k) = u.column p := by
  cases u <;> rfl

theorem column_behind (u : ColumnUnit) (e p : Position) :
    u.column (e.behind p) = if p.line = 1 then u.column e + u.column p else u.column p := by
  rw [Position.behind]
  cases u <;> split <;> rfl

theorem Before.trans (hpq : u.Before p q) (hqr : u.Before q r) : u.Before p r := by
  unfold Before at *
  omega

/-- Passing a character leads on, in whatever the columns are counted. -/
theorem before_advance (u : ColumnUnit) (p : Position) (c : Char) : u.Before p (p.advance c) := by
  by_cases hc : c = '\n'
  · subst hc
    exact Or.inl (Nat.lt_succ_self p.line)
  · have hw := u.width_pos c
    refine Or.inr ⟨by rw [Position.advance_of_ne p hc], ?_⟩
    rw [u.column_advance_of_ne p hc]
    omega

/-! ## Finding a character -/

theorem charIn_cons_add (u : ColumnUnit) (c : Char) (line : List Char) (n : Nat) :
    u.charIn (c :: line) (u.width c + n) = u.charIn line n := by
  have hw := u.width_pos c
  rw [charIn, if_neg (by omega), if_neg (by omega), Nat.add_sub_cancel_left]

/-- On the first line of a text, the first character is the one in the first column. -/
theorem lookUp_start (u : ColumnUnit) (c : Char) (cs : List Char) :
    u.lookUp (c :: cs) .start = some c := by
  have hcol : u.column .start = 0 := by cases u <;> rfl
  have hfirst : ∃ line, (lines (c :: cs))[0]? = some (c :: line) := by
    rw [lines]
    split <;> exact ⟨_, rfl⟩
  obtain ⟨line, hline⟩ := hfirst
  rw [lookUp, hcol]
  show (lines (c :: cs))[0]?.bind _ = _
  rw [hline]
  rfl

/-- A line feed in front of a text moves every line down. -/
theorem lookUp_newline (u : ColumnUnit) (cs : List Char) (hp : 1 ≤ p.line) :
    u.lookUp ('\n' :: cs) (p.below 1) = u.lookUp cs p := by
  obtain ⟨k, hk⟩ := Nat.exists_eq_add_of_le' hp
  have hlines : lines ('\n' :: cs) = ['\n'] :: lines cs := rfl
  have hline : (p.below 1).line - 1 = k + 1 := by
    rw [Position.below, hk]
    rfl
  rw [lookUp, lookUp, column_below, hlines, hline, List.getElem?_cons_succ, hk]
  rfl

/-- Any other character in front of a text moves the first line to the right. -/
theorem lookUp_cons {c : Char} (u : ColumnUnit) (hc : c ≠ '\n') (cs : List Char)
    (hp : 1 ≤ p.line) :
    u.lookUp (c :: cs) ((Position.start.advance c).behind p) = u.lookUp cs p := by
  have hcol : u.column (Position.start.advance c) = u.width c := by
    rw [u.column_advance_of_ne _ hc]
    cases u <;> exact Nat.zero_add _
  have hlines : lines (c :: cs) = (c :: (lines cs).headD []) :: (lines cs).tail := by
    rw [lines, if_neg hc]
  have hline : ((Position.start.advance c).behind p).line = p.line := by
    rw [Position.advance_of_ne _ hc, Position.behind, Position.start]
    split
    · next h => exact h.symm
    · exact Nat.add_sub_cancel' hp
  rw [lookUp, lookUp, column_behind, hcol, hlines, hline]
  by_cases hfirst : p.line = 1
  · rw [if_pos hfirst, hfirst]
    rcases lines cs with _ | ⟨line, rest⟩
    · exact u.charIn_cons_add c [] _
    · exact u.charIn_cons_add c line _
  · obtain ⟨k, hk⟩ : ∃ k, p.line - 1 = k + 1 := ⟨p.line - 2, by omega⟩
    rw [if_neg hfirst, hk, List.getElem?_cons_succ, List.getElem?_tail]

end ColumnUnit

/-- A character is found at the place to which the text before it leads. -/
theorem lookUp_advanceAll (u : ColumnUnit) (before : List Char) (c : Char) (after : List Char) :
    u.lookUp (before ++ c :: after) (Position.start.advanceAll before) = some c := by
  induction before with
  | nil => exact u.lookUp_start c after
  | cons d before ih =>
    have hline : 1 ≤ (Position.start.advanceAll before).line := by
      rw [Position.line_advanceAll]
      exact Nat.le_add_right ..
    rw [List.cons_append, Position.advanceAll_cons]
    by_cases hd : d = '\n'
    · subst hd
      have hbelow : (Position.start.advance '\n').advanceAll before =
          (Position.start.advanceAll before).below 1 := Position.advanceAll_below 1 .start before
      rw [hbelow, u.lookUp_newline _ hline, ih]
    · have hbehind : (Position.start.advance d).advanceAll before =
          (Position.start.advance d).behind (Position.start.advanceAll before) := by
        rw [← Position.advanceAll_behind _ (Nat.le_refl 1), Position.behind_start]
      rw [hbehind, u.lookUp_cons hd _ hline, ih]

end Squeeze
