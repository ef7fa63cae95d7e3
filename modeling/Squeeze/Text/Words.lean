import Squeeze.Text.LastLine

/-!
# Positions in words of 32 bits

A program keeps the three numbers of a position in words of 32 bits, where a sum that is too large wraps
around. As long as every place on the way is in range, the words count the same as the natural numbers
(`WordPosition.toPosition_advanceAll`). How far a text may lead depends on its size in UTF-16 alone: no line
of it is longer, and it has no more line feeds than code units (`countedInWords`).
-/

namespace Squeeze

namespace Position

/-- Whether the three numbers of a position fit into words of 32 bits, of which there are `UInt32.size`. -/
structure InRange (p : Position) : Prop where
  line_lt : p.line < UInt32.size
  column_lt : p.column < UInt32.size
  utf16Column_lt : p.utf16Column < UInt32.size

/-- The places on the way over a text are those to which a first part of it leads. -/
theorem mem_trail_iff {p q : Position} {cs : List Char} :
    q ∈ p.trail cs ↔ ∃ ds, ds <+: cs ∧ q = p.advanceAll ds := by
  induction cs generalizing p with
  | nil => simp [trail]
  | cons c cs ih =>
    rw [trail, List.mem_cons, ih]
    constructor
    · rintro (rfl | ⟨ds, hds, rfl⟩)
      · exact ⟨[], List.nil_prefix, rfl⟩
      · exact ⟨c :: ds, List.prefix_cons_inj c |>.mpr hds, rfl⟩
    · rintro ⟨ds, hds, rfl⟩
      cases ds with
      | nil => exact Or.inl rfl
      | cons d ds =>
        obtain ⟨rfl, hrest⟩ := List.cons_prefix_cons.mp hds
        exact Or.inr ⟨ds, hrest, rfl⟩

/-- Columns in characters are never ahead of columns in code units. -/
theorem column_le_utf16Column (cs : List Char) :
    (start.advanceAll cs).column ≤ (start.advanceAll cs).utf16Column := by
  rw [advanceAll_start]
  exact length_le_utf16Size _

/-- A text of few code units leads to places in range. -/
theorem inRange_advanceAll {cs : List Char} (h : utf16Size cs ≤ UInt32.size - 2) :
    (start.advanceAll cs).InRange := by
  have hcount : cs.count '\n' ≤ utf16Size cs :=
    Nat.le_trans List.count_le_length (length_le_utf16Size cs)
  have hlast : utf16Size (lastLine cs) ≤ utf16Size cs :=
    utf16Size_le_of_sublist (lastLine_suffix cs).sublist
  have hlength := length_le_utf16Size (lastLine cs)
  have hwords : 2 ≤ UInt32.size := by decide
  rw [advanceAll_start]
  constructor
  · show 1 + cs.count '\n' < UInt32.size
    omega
  · show (lastLine cs).length < UInt32.size
    omega
  · show utf16Size (lastLine cs) < UInt32.size
    omega

end Position

/-- A position in three words. -/
@[ext]
structure WordPosition where
  /-- The line, counted from one. -/
  line : UInt32
  /-- The column in characters. -/
  column : UInt32
  /-- The column in UTF-16 code units. -/
  utf16Column : UInt32
  deriving DecidableEq, Repr

namespace WordPosition

/-- The place of the first character of a text. -/
def start : WordPosition := ⟨1, 0, 0⟩

/-- The place after the character `c`, in sums that may wrap around. -/
def advance (p : WordPosition) (c : Char) : WordPosition :=
  if c = '\n' then ⟨p.line + 1, 0, 0⟩
  else ⟨p.line, p.column + 1, p.utf16Column + UInt32.ofNat (utf16Length c)⟩

/-- The place after a run of characters. -/
def advanceAll (p : WordPosition) (cs : List Char) : WordPosition := cs.foldl advance p

/-- The position that the words stand for. -/
def toPosition (p : WordPosition) : Position := ⟨p.line.toNat, p.column.toNat, p.utf16Column.toNat⟩

/-- One step counts right if it leads to a place in range. -/
theorem toPosition_advance {p : WordPosition} {c : Char} (h : (p.toPosition.advance c).InRange) :
    (p.advance c).toPosition = p.toPosition.advance c := by
  by_cases hc : c = '\n'
  · subst hc
    have hline : p.line.toNat + 1 < UInt32.size := h.line_lt
    have hsum : (p.line + 1).toNat = p.line.toNat + 1 := by
      rw [UInt32.toNat_add]
      exact Nat.mod_eq_of_lt hline
    exact Position.ext hsum rfl rfl
  · have hlength : utf16Length c < UInt32.size := by
      unfold utf16Length
      split <;> decide
    rw [Position.advance_of_ne _ hc] at h ⊢
    have hcolumn : (p.column + 1).toNat = p.column.toNat + 1 := by
      rw [UInt32.toNat_add]
      exact Nat.mod_eq_of_lt h.column_lt
    have hutf16 : (p.utf16Column + UInt32.ofNat (utf16Length c)).toNat =
        p.utf16Column.toNat + utf16Length c := by
      rw [UInt32.toNat_add, UInt32.toNat_ofNat_of_lt' hlength]
      exact Nat.mod_eq_of_lt h.utf16Column_lt
    rw [advance, if_neg hc]
    exact Position.ext rfl hcolumn hutf16

/-- So does any number of steps if every place on the way is in range. -/
theorem toPosition_advanceAll {p : WordPosition} {cs : List Char}
    (h : ∀ q ∈ p.toPosition.trail cs, q.InRange) :
    (p.advanceAll cs).toPosition = p.toPosition.advanceAll cs := by
  induction cs generalizing p with
  | nil => rfl
  | cons c cs ih =>
    have hhead : p.toPosition.advance c ∈ p.toPosition.trail (c :: cs) :=
      Position.mem_trail_iff.mpr ⟨[c], by simp, rfl⟩
    have hstep := toPosition_advance (h _ hhead)
    have hrest : ∀ q ∈ (p.advance c).toPosition.trail cs, q.InRange := by
      rw [hstep]
      exact fun q hq => h q (List.mem_cons_of_mem _ hq)
    show ((p.advance c).advanceAll cs).toPosition = (p.toPosition.advance c).advanceAll cs
    rw [ih hrest, hstep]

end WordPosition

/-- The places along a text can be counted in words. -/
structure CountedInWords (cs : List Char) : Prop where
  /-- All of them are in range, so no sum wraps around. -/
  inRange : ∀ p ∈ Position.start.trail cs, p.InRange
  /-- The words say the same as natural numbers would. -/
  toPosition_eq : ∀ ds, ds <+: cs →
    (WordPosition.start.advanceAll ds).toPosition = Position.start.advanceAll ds
  /-- The column in characters is nowhere ahead of the one in code units. -/
  column_le : ∀ p ∈ Position.start.trail cs, p.column ≤ p.utf16Column

/-- A text of at most two code units less than there are words. -/
theorem countedInWords {cs : List Char} (h : utf16Size cs ≤ UInt32.size - 2) : CountedInWords cs := by
  have hinRange : ∀ ds, ds <+: cs → ∀ p ∈ Position.start.trail ds, p.InRange := by
    intro ds hds p hp
    obtain ⟨es, hes, rfl⟩ := Position.mem_trail_iff.mp hp
    have hle := utf16Size_le_of_sublist (hes.trans hds).sublist
    exact Position.inRange_advanceAll (Nat.le_trans hle h)
  refine ⟨hinRange cs (List.prefix_refl cs), ?_, ?_⟩
  · intro ds hds
    exact WordPosition.toPosition_advanceAll (p := WordPosition.start) (hinRange ds hds)
  · intro p hp
    obtain ⟨ds, -, rfl⟩ := Position.mem_trail_iff.mp hp
    exact Position.column_le_utf16Column ds

end Squeeze
