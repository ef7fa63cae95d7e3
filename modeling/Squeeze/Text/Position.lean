/-!
# Positions in a text

A position is where a character stands: its line, and its column counted twice, once in characters
and once in UTF-16 code units. Source maps count columns in code units, people count characters, and
neither number can be computed from the other without the text, so a position carries both.

Positions are only ever made by walking over a text from `Position.start`: `advance` passes one
character and `advanceAll` a run of them. Only a line feed starts a new line, so the texts that are
walked over are canonical ones (`Squeeze.Text.Canonical`).
-/

namespace Squeeze

/-- The number of UTF-16 code units that encode a character. -/
def utf16Length (c : Char) : Nat :=
  if c.toNat < 0x10000 then 1 else 2

/-- Where a character stands in a text. -/
@[ext]
structure Position where
  /-- The line, counted from one. -/
  line : Nat
  /-- The number of characters between the start of the line and this place. -/
  column : Nat
  /-- The number of UTF-16 code units between the start of the line and this place. -/
  utf16Column : Nat
  deriving DecidableEq, Repr

namespace Position

/-- The place of the first character of a text. -/
def start : Position := ⟨1, 0, 0⟩

instance : Inhabited Position := ⟨start⟩

/-- The place after the character `c`, which stands at `p`. -/
def advance (p : Position) (c : Char) : Position :=
  if c = '\n' then ⟨p.line + 1, 0, 0⟩
  else ⟨p.line, p.column + 1, p.utf16Column + utf16Length c⟩

/-- The place after a run of characters, the first of which stands at `p`. -/
def advanceAll (p : Position) (cs : List Char) : Position :=
  cs.foldl advance p

/-- Every place that is met on the way over a run of characters, both ends included. -/
def trail (p : Position) : List Char → List Position
  | [] => [p]
  | c :: cs => p :: trail (p.advance c) cs

/-- Positions are ordered by line, then by either column. Along one text both columns grow together,
so the order of the two column comparisons never matters there. -/
instance : Ord Position where
  compare p q :=
    ((compare p.line q.line).then (compare p.column q.column)).then
      (compare p.utf16Column q.utf16Column)

instance : LT Position := ltOfOrd

instance : LE Position := leOfOrd

/-! ## Passing characters -/

theorem advance_newline (p : Position) : p.advance '\n' = ⟨p.line + 1, 0, 0⟩ := rfl

theorem advance_of_ne {c : Char} (p : Position) (h : c ≠ '\n') :
    p.advance c = ⟨p.line, p.column + 1, p.utf16Column + utf16Length c⟩ := if_neg h

@[simp] theorem advanceAll_nil (p : Position) : p.advanceAll [] = p := rfl

@[simp] theorem advanceAll_cons (p : Position) (c : Char) (cs : List Char) :
    p.advanceAll (c :: cs) = (p.advance c).advanceAll cs := rfl

/-- A run may be passed in two parts. -/
theorem advanceAll_append (p : Position) (cs ds : List Char) :
    p.advanceAll (cs ++ ds) = (p.advanceAll cs).advanceAll ds := List.foldl_append

/-! ## Order -/

theorem lt_iff {p q : Position} :
    p < q ↔ p.line < q.line ∨ p.line = q.line ∧
      (p.column < q.column ∨ p.column = q.column ∧ p.utf16Column < q.utf16Column) := by
  show ((compare p.line q.line).then (compare p.column q.column)).then
    (compare p.utf16Column q.utf16Column) = .lt ↔ _
  simp only [Ordering.then_eq_lt, Ordering.then_eq_eq, Nat.compare_eq_lt, Nat.compare_eq_eq]
  omega

theorem lt_irrefl (p : Position) : ¬ p < p := by
  rw [lt_iff]
  omega

theorem lt_trans {p q r : Position} (hpq : p < q) (hqr : q < r) : p < r := by
  rw [lt_iff] at *
  omega

/-- Passing a character leads on. -/
theorem lt_advance (p : Position) (c : Char) : p < p.advance c := by
  rw [lt_iff]
  by_cases hc : c = '\n'
  · subst hc
    exact Or.inl (Nat.lt_succ_self p.line)
  · rw [advance_of_ne p hc]
    exact Or.inr ⟨rfl, Or.inl (Nat.lt_succ_self p.column)⟩

theorem lt_advanceAll (p : Position) {cs : List Char} (h : cs ≠ []) : p < p.advanceAll cs := by
  induction cs generalizing p with
  | nil => exact absurd rfl h
  | cons c cs ih =>
    rw [advanceAll_cons]
    by_cases hcs : cs = []
    · rw [hcs]
      exact p.lt_advance c
    · exact lt_trans (p.lt_advance c) (ih _ hcs)

/-- Along one text no place comes twice. -/
theorem eq_of_advanceAll_eq {p : Position} {cs ds es : List Char} (hc : cs <+: es) (hd : ds <+: es)
    (h : p.advanceAll cs = p.advanceAll ds) : cs = ds := by
  have hclose : ∀ {xs ys : List Char}, xs <+: ys → p.advanceAll xs = p.advanceAll ys → xs = ys := by
    rintro xs _ ⟨zs, rfl⟩ he
    by_cases hzs : zs = []
    · rw [hzs, List.append_nil]
    · have hlt := (p.advanceAll xs).lt_advanceAll hzs
      rw [← advanceAll_append, ← he] at hlt
      exact absurd hlt (lt_irrefl _)
  rcases List.prefix_or_prefix_of_prefix hc hd with hp | hp
  · exact hclose hp h
  · exact (hclose hp h.symm).symm

end Position

end Squeeze
