import Squeeze.Text.Placed

/-!
# Canonical text

Texts come with three spellings of a line end and with tabs, form feeds and other control characters
that mean no more than a space. A text is brought into one form before anything else looks at it:
every line end becomes one line feed, and every other control character becomes a space. A carriage
return and the line feed after it are one line end, which is the only place where two characters of
the text become one.

The places of characters are counted in the canonical text. Each character keeps its column under
this form, because a control character and its space are equally wide and a line end is the last
character of its line.
-/

namespace Squeeze

/-- The canonical form of a character that is not the line feed of a two-character line end. -/
def canonicalChar (c : Char) : Char :=
  if c = '\r' ∨ c = '\n' then '\n' else if c < ' ' then ' ' else c

/-- The canonical form of a text. -/
def canonical : List Char → List Char
  | [] => []
  | '\r' :: '\n' :: cs => '\n' :: canonical cs
  | c :: cs => canonicalChar c :: canonical cs

/-- Gives each character of a canonical text its place, the first one standing at `p`. -/
def place (p : Position) : List Char → List Placed
  | [] => []
  | c :: cs => ⟨c, some p⟩ :: place (p.advance c) cs

/-- The characters of a text in canonical form, each with its place. -/
def placedText (text : String) : List Placed :=
  place .start (canonical text.toList)

/-- Whether characters may stand in a canonical text: of those that end a line, there are only line
feeds among them. -/
def IsCanonical (cs : List Placed) : Prop := ∀ c ∈ cs, c.isTerminator → c.char = '\n'

/-- Whether every one of these characters was read somewhere. -/
def IsPlaced (cs : List Placed) : Prop := ∀ c ∈ cs, c.origin.isSome

@[simp] theorem place_nil (p : Position) : place p [] = [] := rfl

@[simp] theorem place_cons (p : Position) (c : Char) (cs : List Char) :
    place p (c :: cs) = ⟨c, some p⟩ :: place (p.advance c) cs := rfl

/-- Placing characters does not change them. -/
@[simp] theorem map_char_place (p : Position) (cs : List Char) :
    (place p cs).map Placed.char = cs := by
  induction cs generalizing p with
  | nil => rfl
  | cons c cs ih => simp [ih]

/-- Placing a run in two parts: the second part begins where the first one ends. -/
theorem place_append (p : Position) (cs ds : List Char) :
    place p (cs ++ ds) = place p cs ++ place (p.advanceAll cs) ds := by
  induction cs generalizing p with
  | nil => rfl
  | cons c cs ih => simp [ih]

theorem IsPlaced.subset {cs ds : List Placed} (h : IsPlaced cs) (hs : ds ⊆ cs) : IsPlaced ds :=
  fun c hc => h c (hs hc)

theorem isPlaced_place (p : Position) (cs : List Char) : IsPlaced (place p cs) := by
  induction cs generalizing p with
  | nil => simp [IsPlaced]
  | cons c cs ih =>
    intro d hd
    rcases List.mem_cons.mp hd with rfl | hd
    · rfl
    · exact ih _ d hd

/-- A character is read by itself, unless it is the first of a two-character line end. -/
theorem canonical_cons {c : Char} {cs : List Char} (h : c = '\r' → cs.head? ≠ some '\n') :
    canonical (c :: cs) = canonicalChar c :: canonical cs := by
  rw [canonical]
  rintro rest rfl rfl
  exact h rfl rfl

/-! ## Places -/

/-- Where some characters were read, in their order. -/
def origins (cs : List Placed) : List Position := cs.filterMap Placed.origin

@[simp] theorem origins_nil : origins [] = [] := rfl

theorem origins_cons (c : Placed) (cs : List Placed) :
    origins (c :: cs) = c.origin.toList ++ origins cs := by
  rcases hc : c.origin with _ | p <;> simp [origins, hc]

theorem origins_append (cs ds : List Placed) : origins (cs ++ ds) = origins cs ++ origins ds :=
  List.filterMap_append

theorem origins_sublist {cs ds : List Placed} (h : cs.Sublist ds) :
    (origins cs).Sublist (origins ds) := h.filterMap Placed.origin

theorem mem_origins {cs : List Placed} {c : Placed} {p : Position} (hc : c ∈ cs)
    (hp : c.origin = some p) : p ∈ origins cs :=
  List.mem_filterMap.mpr ⟨c, hc, hp⟩

@[simp] theorem origins_place_cons (p : Position) (c : Char) (cs : List Char) :
    origins (place p (c :: cs)) = p :: origins (place (p.advance c) cs) := rfl

section Along

/-! A relation that leads from each place to the next one leads from each place to all later ones. -/

variable {R : Position → Position → Prop} (htrans : ∀ p q r, R p q → R q r → R p r)
  (hnext : ∀ p c, R p (p.advance c))
include htrans hnext

theorem rel_of_mem_origins {p q : Position} {c : Char} {cs : List Char}
    (h : q ∈ origins (place (p.advance c) cs)) : R p q := by
  induction cs generalizing p c with
  | nil => cases h
  | cons d cs ih =>
    rw [origins_place_cons, List.mem_cons] at h
    rcases h with rfl | h
    · exact hnext p c
    · exact htrans _ _ _ (hnext p c) (ih h)

theorem eq_or_rel_of_mem_origins {p q : Position} {cs : List Char}
    (h : q ∈ origins (place p cs)) : p = q ∨ R p q := by
  cases cs with
  | nil => cases h
  | cons c cs =>
    rw [origins_place_cons, List.mem_cons] at h
    rcases h with rfl | h
    · exact Or.inl rfl
    · exact Or.inr (rel_of_mem_origins htrans hnext h)

theorem pairwise_rel_origins_place (p : Position) (cs : List Char) :
    (origins (place p cs)).Pairwise R := by
  induction cs generalizing p with
  | nil => exact List.Pairwise.nil
  | cons c cs ih =>
    rw [origins_place_cons]
    exact List.Pairwise.cons (fun q hq => rel_of_mem_origins htrans hnext hq) (ih _)

end Along

theorem lt_of_mem_origins {p q : Position} {c : Char} {cs : List Char}
    (h : q ∈ origins (place (p.advance c) cs)) : p < q :=
  rel_of_mem_origins (R := (· < ·)) (fun _ _ _ => Position.lt_trans) Position.lt_advance h

/-- Of two characters of a text the later one stands at the later place. -/
theorem pairwise_origins_place (p : Position) (cs : List Char) :
    (origins (place p cs)).Pairwise (· < ·) :=
  pairwise_rel_origins_place (R := (· < ·)) (fun _ _ _ => Position.lt_trans) Position.lt_advance p cs

/-- No two characters of a text stand at the same place. -/
theorem eq_of_mem_place {p q : Position} {cs : List Char} {c d : Placed} (hc : c ∈ place p cs)
    (hd : d ∈ place p cs) (hcq : c.origin = some q) (hdq : d.origin = some q) : c = d := by
  induction cs generalizing p with
  | nil => cases hc
  | cons e cs ih =>
    rw [place_cons, List.mem_cons] at hc hd
    rcases hc with rfl | hc <;> rcases hd with rfl | hd
    · rfl
    · cases hcq
      exact absurd (lt_of_mem_origins (mem_origins hd hdq)) (Position.lt_irrefl _)
    · cases hdq
      exact absurd (lt_of_mem_origins (mem_origins hc hcq)) (Position.lt_irrefl _)
    · exact ih hc hd

/-- No character of a text comes twice. -/
theorem nodup_place (p : Position) (cs : List Char) : (place p cs).Nodup := by
  induction cs generalizing p with
  | nil => exact List.nodup_nil
  | cons c cs ih =>
    rw [place_cons, List.nodup_cons]
    refine ⟨?_, ih _⟩
    intro h
    exact Position.lt_irrefl p (lt_of_mem_origins (mem_origins h rfl))

/-- The character of a text that stands at the given place. -/
def charAt (cs : List Char) (p : Position) : Option Char :=
  ((place .start cs).find? fun c => c.origin = some p).map Placed.char

theorem charAt_eq {cs : List Char} {c : Placed} {p : Position} (hc : c ∈ place .start cs)
    (hp : c.origin = some p) : charAt cs p = some c.char := by
  unfold charAt
  rcases hf : (place .start cs).find? fun d => d.origin = some p with _ | d
  · rw [List.find?_eq_none] at hf
    exact absurd hp (by simpa using hf c hc)
  · have hd : d.origin = some p := by simpa using List.find?_some hf
    have hcd : c = d := eq_of_mem_place hc (List.mem_of_find?_eq_some hf) hp hd
    rw [hf, hcd]
    rfl

/-! ## Line ends -/

theorem IsCanonical.subset {cs ds : List Placed} (h : IsCanonical cs) (hs : ds ⊆ cs) :
    IsCanonical ds := fun c hc => h c (hs hc)

theorem newline_or_le_canonicalChar (c : Char) :
    canonicalChar c = '\n' ∨ ' ' ≤ canonicalChar c := by
  unfold canonicalChar
  split
  · exact Or.inl rfl
  · right
    split
    · exact Std.le_refl _
    · rename_i h
      exact Std.not_lt.mp h

theorem canonicalChar_eq_self {c : Char} (h : c = '\n' ∨ ' ' ≤ c) : canonicalChar c = c := by
  unfold canonicalChar
  rcases h with rfl | h
  · rfl
  · have hr : ¬ (c = '\r' ∨ c = '\n') := by
      rintro (rfl | rfl) <;> exact absurd h (by decide)
    rw [if_neg hr, if_neg (Std.not_lt.mpr h)]

/-- A canonical text consists of line feeds and of characters that are not control characters. -/
theorem newline_or_le_of_mem_canonical {cs : List Char} {c : Char} (hc : c ∈ canonical cs) :
    c = '\n' ∨ ' ' ≤ c := by
  fun_induction canonical cs with
  | case1 => simp at hc
  | case2 cs ih =>
    rcases List.mem_cons.mp hc with rfl | hc
    · exact Or.inl rfl
    · exact ih hc
  | case3 d cs _ ih =>
    rcases List.mem_cons.mp hc with rfl | hc
    · exact newline_or_le_canonicalChar d
    · exact ih hc

/-- A text that is canonical already stays as it is. -/
theorem canonical_eq_self {cs : List Char} (h : ∀ c ∈ cs, c = '\n' ∨ ' ' ≤ c) :
    canonical cs = cs := by
  fun_induction canonical cs with
  | case1 => rfl
  | case2 cs ih =>
    exact absurd (h '\r' (List.mem_cons_self ..)) (by decide)
  | case3 d cs _ ih =>
    rw [canonicalChar_eq_self (h d (List.mem_cons_self ..)),
      ih fun c hc => h c (List.mem_cons_of_mem d hc)]

theorem newline_or_le_of_mem_placedText {text : String} {c : Placed} (hc : c ∈ placedText text) :
    c.char = '\n' ∨ ' ' ≤ c.char := by
  have hmem : c.char ∈ (placedText text).map Placed.char := List.mem_map_of_mem hc
  rw [placedText, map_char_place] at hmem
  exact newline_or_le_of_mem_canonical hmem

theorem isCanonical_placedText (text : String) : IsCanonical (placedText text) := by
  intro c hc ht
  have hle : c.char ≤ '\n' := by simpa [Placed.isTerminator] using ht
  rcases newline_or_le_of_mem_placedText hc with h | h
  · exact h
  · exact absurd (Std.le_trans h hle) (by decide)

end Squeeze
