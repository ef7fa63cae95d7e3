import Squeeze.Text.Canonical

/-!
# Lines of a text

How many lines a text has can be told before it is canonical: a carriage return ends a line, a line
feed does, and the two together do so once. The canonical text has one line feed for each of these
ends.

Two texts may be put together, one behind the other. Where the first one ends with a line, the
characters of the second one keep their columns, and only their lines change (`Position.below`). Where
it ends in the middle of a line, the first line of the second text is moved to the right
(`Position.behind`).
-/

namespace Squeeze

/-- The number of line ends in a text, however they are spelled. -/
def lineEnds : List Char → Nat
  | [] => 0
  | '\r' :: '\n' :: cs => lineEnds cs + 1
  | c :: cs => if c = '\r' ∨ c = '\n' then lineEnds cs + 1 else lineEnds cs

/-- The line ends of a text are the line feeds of its canonical form. -/
theorem count_canonical (cs : List Char) : (canonical cs).count '\n' = lineEnds cs := by
  fun_induction canonical cs with
  | case1 => rfl
  | case2 cs ih => rw [List.count_cons_self, ih, lineEnds]
  | case3 c cs hcr ih =>
    have hcons : lineEnds (c :: cs) = if c = '\r' ∨ c = '\n' then lineEnds cs + 1 else lineEnds cs := by
      rw [lineEnds]
      exact hcr
    rw [hcons, List.count_cons, ih, canonicalChar]
    by_cases hc : c = '\r' ∨ c = '\n'
    · rw [if_pos hc, if_pos hc]
      rfl
    · rw [not_or] at hc
      have hne : ((if c < ' ' then ' ' else c) == '\n') = false := by
        split <;> simp [hc]
      rw [if_neg (not_or.mpr hc), if_neg (not_or.mpr hc), hne]
      rfl

namespace Position

/-- Each line feed that is passed leads to the next line. -/
theorem line_advanceAll (p : Position) (cs : List Char) :
    (p.advanceAll cs).line = p.line + cs.count '\n' := by
  induction cs generalizing p with
  | nil => rfl
  | cons c cs ih =>
    rw [advanceAll_cons, ih, List.count_cons]
    by_cases hc : c = '\n'
    · subst hc
      rw [advance_newline]
      simp only [beq_self_eq_true, if_true]
      omega
    · rw [advance_of_ne p hc, if_neg (by simpa using hc)]
      rfl

theorem line_advanceAll_of_not_mem {p : Position} {cs : List Char} (h : '\n' ∉ cs) :
    (p.advanceAll cs).line = p.line := by
  rw [line_advanceAll, List.count_eq_zero_of_not_mem h]
  rfl

theorem advanceAll_of_getLast? {cs : List Char} (p : Position) (h : cs.getLast? = some '\n') :
    p.advanceAll cs = ⟨p.line + cs.count '\n', 0, 0⟩ := by
  obtain ⟨ds, rfl⟩ := List.getLast?_eq_some_iff.mp h
  rw [advanceAll_append, advanceAll_cons, advanceAll_nil, advance_newline, line_advanceAll,
    List.count_append]
  rfl

/-! ## Places in the second of two texts -/

/-- The place `p` when `k` lines have come before. -/
def below (k : Nat) (p : Position) : Position := { p with line := p.line + k }

/-- The place `p` when something has come before that ends at `e`. -/
def behind (e p : Position) : Position :=
  if p.line = 1 then ⟨e.line, e.column + p.column, e.utf16Column + p.utf16Column⟩
  else ⟨e.line + (p.line - 1), p.column, p.utf16Column⟩

theorem advance_below (k : Nat) (p : Position) (c : Char) :
    (p.below k).advance c = (p.advance c).below k := by
  by_cases hc : c = '\n'
  · subst hc
    simp [advance_newline, below, Nat.add_right_comm]
  · rw [advance_of_ne _ hc, advance_of_ne _ hc]
    rfl

theorem behind_start (e : Position) : e.behind .start = e := by
  simp [behind, start]

theorem advance_behind (e : Position) {p : Position} (hp : 1 ≤ p.line) (c : Char) :
    (e.behind p).advance c = e.behind (p.advance c) := by
  by_cases hc : c = '\n'
  · subst hc
    have hne : p.line + 1 ≠ 1 := by omega
    rw [advance_newline, advance_newline, behind, behind, if_neg hne]
    split <;> simp <;> omega
  · rw [advance_of_ne _ hc, advance_of_ne _ hc, behind, behind]
    split <;> simp [Nat.add_assoc]

theorem one_le_line_advance {p : Position} (hp : 1 ≤ p.line) (c : Char) :
    1 ≤ (p.advance c).line := by
  rw [advance]
  split
  · exact Nat.le_add_left ..
  · exact hp

theorem advanceAll_below (k : Nat) (p : Position) (cs : List Char) :
    (p.below k).advanceAll cs = (p.advanceAll cs).below k := by
  induction cs generalizing p with
  | nil => rfl
  | cons c cs ih => rw [advanceAll_cons, advanceAll_cons, advance_below, ih]

theorem advanceAll_behind (e : Position) {p : Position} (hp : 1 ≤ p.line) (cs : List Char) :
    (e.behind p).advanceAll cs = e.behind (p.advanceAll cs) := by
  induction cs generalizing p with
  | nil => rfl
  | cons c cs ih =>
    rw [advanceAll_cons, advanceAll_cons, advance_behind e hp, ih (one_le_line_advance hp c)]

end Position

/-- The character as it stands when `k` lines have come before. -/
def Placed.below (k : Nat) (c : Placed) : Placed := { c with origin := c.origin.map (.below k) }

@[simp] theorem Placed.char_below (k : Nat) (c : Placed) : (c.below k).char = c.char := rfl

theorem place_below (k : Nat) (p : Position) (cs : List Char) :
    place (p.below k) cs = (place p cs).map (Placed.below k) := by
  induction cs generalizing p with
  | nil => rfl
  | cons c cs ih =>
    rw [place_cons, place_cons, Position.advance_below, ih]
    rfl

/-! ## Two texts -/

/-- Two texts are brought into canonical form each for itself, unless the one ends and the other begins
in the middle of a line end. -/
theorem canonical_append {cs ds : List Char}
    (h : cs.getLast? = some '\r' → ds.head? ≠ some '\n') :
    canonical (cs ++ ds) = canonical cs ++ canonical ds := by
  fun_induction canonical cs with
  | case1 => rfl
  | case2 cs ih =>
    have hcs : cs.getLast? = some '\r' → ds.head? ≠ some '\n' := by
      intro hr
      apply h
      simp [List.getLast?_cons, hr]
    simp only [List.cons_append, canonical, ih hcs]
  | case3 c cs hcr ih =>
    have hcs : cs.getLast? = some '\r' → ds.head? ≠ some '\n' := by
      intro hr
      apply h
      simp [List.getLast?_cons, hr]
    have hne : ∀ rest, c = '\r' → cs ++ ds = '\n' :: rest → False := by
      intro rest hc he
      rcases cs with _ | ⟨d, cs⟩
      · exact h (by simp [hc]) (congrArg List.head? he)
      · exact hcr cs hc (by rw [(List.cons.inj he).1])
    rw [List.cons_append, canonical, ih hcs]
    · rfl
    · exact hne

theorem lineEnds_append {cs ds : List Char}
    (h : cs.getLast? = some '\r' → ds.head? ≠ some '\n') :
    lineEnds (cs ++ ds) = lineEnds cs + lineEnds ds := by
  rw [← count_canonical, canonical_append h, List.count_append, count_canonical, count_canonical]

/-- What comes behind a text changes nothing in its canonical form. It may only complete a line end, and
that adds no character. -/
theorem canonical_prefix (cs ds : List Char) : canonical cs <+: canonical (cs ++ ds) := by
  by_cases h : cs.getLast? = some '\r' ∧ ds.head? = some '\n'
  · obtain ⟨hcr, hlf⟩ := h
    obtain ⟨cs, rfl⟩ := List.getLast?_eq_some_iff.mp hcr
    obtain ⟨ds, rfl⟩ := List.head?_eq_some_iff.mp hlf
    have hone : canonical (cs ++ ['\r']) = canonical cs ++ ['\n'] :=
      canonical_append fun _ => by decide
    have hboth : canonical (cs ++ '\r' :: '\n' :: ds) = canonical cs ++ '\n' :: canonical ds :=
      canonical_append fun _ => by simp
    rw [List.append_assoc, hone]
    refine ⟨canonical ds, ?_⟩
    rw [List.append_assoc]
    exact hboth.symm
  · have hcut : cs.getLast? = some '\r' → ds.head? ≠ some '\n' := fun hcr hlf => h ⟨hcr, hlf⟩
    rw [canonical_append hcut]
    exact List.prefix_append ..

/-- A text keeps its characters and their places, whatever comes behind it. -/
theorem placedText_prefix (x y : String) : placedText x <+: placedText (x ++ y) := by
  obtain ⟨ds, hds⟩ := canonical_prefix x.toList y.toList
  rw [placedText, placedText, String.toList_append, ← hds, place_append]
  exact List.prefix_append ..

/-- A line feed behind a text ends the last line of it, unless it only completes the line end that is
there already. -/
theorem canonical_concat_newline (cs : List Char) :
    canonical (cs ++ ['\n']) = canonical cs ++ ['\n'] ∨
      canonical (cs ++ ['\n']) = canonical cs ∧ (canonical cs).getLast? = some '\n' := by
  by_cases h : cs.getLast? = some '\r'
  · obtain ⟨ds, rfl⟩ := List.getLast?_eq_some_iff.mp h
    have hone : canonical (ds ++ ['\r']) = canonical ds ++ ['\n'] :=
      canonical_append fun _ => by decide
    have htwo : canonical (ds ++ ['\r', '\n']) = canonical ds ++ ['\n'] :=
      canonical_append fun _ => by decide
    right
    rw [List.append_assoc, hone]
    exact ⟨htwo, by simp⟩
  · exact Or.inl (canonical_append fun hr => absurd hr h)

end Squeeze
