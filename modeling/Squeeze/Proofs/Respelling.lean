import Squeeze.Minify

/-!
# Spellings of a script

One script can be spelled in many ways, with other line ends and with tabs or other control characters
for its spaces. `ReadAs` says by rules what a text is read as, one character after the other; a carriage
return needs a look at the character behind it, and a line feed behind it is read with it. The canonical
form is found in the same order, and by these rules a text has no other (`readAs_iff`).

A reader knows a text only as what it is read as: its characters, the places of these and the place where
the text ends. So nothing that happens to a script can depend on how it is spelled, neither where its
characters are said to come from nor the line on which a failure is reported.
-/

namespace Squeeze

/-- The characters `cs` are read as `ds`. -/
inductive ReadAs : List Char → List Char → Prop
  /-- Nothing is left to read. -/
  | nil : ReadAs [] []
  /-- A line feed ends a line. -/
  | lineFeed {cs ds : List Char} (h : ReadAs cs ds) : ReadAs ('\n' :: cs) ('\n' :: ds)
  /-- A carriage return ends a line, too. -/
  | carriageReturn {cs ds : List Char} (hlf : cs.head? ≠ some '\n') (h : ReadAs cs ds) :
      ReadAs ('\r' :: cs) ('\n' :: ds)
  /-- With a line feed behind it, it is one line end. -/
  | lineEnd {cs ds : List Char} (h : ReadAs cs ds) : ReadAs ('\r' :: '\n' :: cs) ('\n' :: ds)
  /-- Any other control character is a space. -/
  | control {c : Char} {cs ds : List Char} (hc : c < ' ') (hlf : c ≠ '\n') (hcr : c ≠ '\r')
      (h : ReadAs cs ds) : ReadAs (c :: cs) (' ' :: ds)
  /-- All other characters are read as they are. -/
  | graphic {c : Char} {cs ds : List Char} (hc : ' ' ≤ c) (h : ReadAs cs ds) :
      ReadAs (c :: cs) (c :: ds)

section ReadAs

variable {cs ds : List Char}

theorem readAs_canonical (cs : List Char) : ReadAs cs (canonical cs) := by
  fun_induction canonical cs with
  | case1 => exact .nil
  | case2 cs ih => exact .lineEnd ih
  | case3 c cs hcr ih =>
    unfold canonicalChar
    split
    · rename_i hline
      rcases hline with rfl | rfl
      · refine .carriageReturn ?_ ih
        intro hlf
        obtain ⟨rest, rfl⟩ := List.head?_eq_some_iff.mp hlf
        exact hcr rest rfl rfl
      · exact .lineFeed ih
    · rename_i hline
      rw [not_or] at hline
      split
      · rename_i hc
        exact .control hc hline.2 hline.1 ih
      · rename_i hc
        exact .graphic (Std.not_lt.mp hc) ih

theorem ReadAs.canonical_eq (h : ReadAs cs ds) : canonical cs = ds := by
  induction h with
  | nil => rfl
  | lineFeed _ ih => rw [canonical_cons (by simp), ih]; rfl
  | carriageReturn hlf _ ih => rw [canonical_cons fun _ => hlf, ih]; rfl
  | lineEnd _ ih => rw [canonical, ih]
  | control hc hlf hcr _ ih =>
    rw [canonical_cons fun h => absurd h hcr, ih, canonicalChar, if_neg (not_or.mpr ⟨hcr, hlf⟩),
      if_pos hc]
  | @graphic c _ _ hc _ ih =>
    have hcr : c ≠ '\r' := by
      rintro rfl
      exact absurd hc (by decide)
    rw [canonical_cons fun h => absurd h hcr, ih, canonicalChar_eq_self (Or.inr hc)]

/-- The canonical form of a text is what it is read as. -/
theorem readAs_iff : ReadAs cs ds ↔ canonical cs = ds := by
  constructor
  · exact ReadAs.canonical_eq
  · rintro rfl
    exact readAs_canonical cs

/-- What is read is read again as it is. -/
theorem ReadAs.self (h : ReadAs cs ds) : ReadAs ds ds := by
  rw [readAs_iff] at h ⊢
  subst h
  exact canonical_eq_self fun c hc => newline_or_le_of_mem_canonical hc

end ReadAs

/-- A reader is opened on what a text is read as. -/
theorem Reader.ofText_eq {text : String} {cs : List Char} (h : ReadAs text.toList cs)
    (source : String) :
    Reader.ofText source text =
      { source := source
        lookahead := none
        unread := place .start cs
        stop := Position.start.advanceAll cs } := by
  rw [ofText, placedText, h.canonical_eq]

theorem squeeze_eq_of_readAs {x y : String} {cs : List Char} (hx : ReadAs x.toList cs)
    (hy : ReadAs y.toList cs) (source : String) : squeeze source x = squeeze source y := by
  have hopen : Window.ofText source x = Window.ofText source y := by
    rw [Window.ofText, Window.ofText, Reader.ofText_eq hx, Reader.ofText_eq hy]
  rw [squeeze, squeeze, hopen]

/-- Texts that are read as the same script have the same short form, with the same mappings, or are
refused with the same report; and it is no other than that of the script as it is read. -/
theorem minify_eq_of_readAs (config : Config) {x y : String} {cs : List Char}
    (hx : ReadAs x.toList cs) (hy : ReadAs y.toList cs) :
    minify config x = minify config y ∧ minify config x = minify config (String.ofList cs) := by
  have hself : ReadAs (String.ofList cs).toList cs := by
    rw [String.toList_ofList]
    exact hx.self
  have hall : ∀ z : String, ReadAs z.toList cs → minify config x = minify config z := by
    intro z hz
    unfold minify
    rcases config.inputName with _ | source
    · rfl
    · dsimp only
      rw [squeeze_eq_of_readAs hx hz]
  exact ⟨hall y hy, hall _ hself⟩

/-- A line end of two characters counts as one line, before a string that breaks off at another. -/
theorem minify_eq_of_readAs_lines :
    ReadAs "a\r\n\tb = 'c\r".toList "a\n b = 'c\n".toList ∧
      ReadAs "a\r b = 'c\r\n".toList "a\n b = 'c\n".toList ∧
      minify ⟨some "a.js", none, none⟩ "a\r\n\tb = 'c\r" =
        minify ⟨some "a.js", none, none⟩ "a\r b = 'c\r\n" ∧
      minify ⟨some "a.js", none, none⟩ "a\r\n\tb = 'c\r" =
        minify ⟨some "a.js", none, none⟩ (String.ofList "a\n b = 'c\n".toList) := by
  have hx : ReadAs "a\r\n\tb = 'c\r".toList "a\n b = 'c\n".toList := readAs_iff.mpr (by decide)
  have hy : ReadAs "a\r b = 'c\r\n".toList "a\n b = 'c\n".toList := readAs_iff.mpr (by decide)
  exact ⟨hx, hy, minify_eq_of_readAs _ hx hy⟩

end Squeeze
