import Squeeze.Text.Canonical

/-!
# The size of a text

A text takes a number of bytes in UTF-8, and each of its characters at least one of them, so a text that
loses characters gets smaller. In canonical form it is never larger: a control character and the character
that it is read as take one byte each, and a line end of two characters loses one.

`tidied` is what the canonical form would be if it kept such a line end as it is. The two forms agree
exactly where none is lost.
-/

namespace Squeeze

/-- The number of bytes that some characters take in UTF-8. -/
def byteLength : List Char → Nat
  | [] => 0
  | c :: cs => c.utf8Size + byteLength cs

@[simp] theorem byteLength_nil : byteLength [] = 0 := rfl

@[simp] theorem byteLength_cons (c : Char) (cs : List Char) :
    byteLength (c :: cs) = c.utf8Size + byteLength cs := rfl

theorem byteLength_append (cs ds : List Char) :
    byteLength (cs ++ ds) = byteLength cs + byteLength ds := by
  induction cs with
  | nil => simp
  | cons c cs ih =>
    rw [List.cons_append, byteLength_cons, byteLength_cons, ih]
    omega

theorem byteLength_toList (s : String) : byteLength s.toList = s.utf8ByteSize := by
  have hofList : ∀ cs : List Char, (String.ofList cs).utf8ByteSize = byteLength cs := by
    intro cs
    induction cs with
    | nil => rfl
    | cons c cs ih =>
      rw [String.ofList_cons, String.utf8ByteSize_append, String.utf8ByteSize_singleton, ih,
        byteLength_cons]
  rw [← hofList, String.ofList_toList]

/-! ## Texts that lose characters -/

theorem byteLength_le_of_sublist {cs ds : List Char} (h : cs.Sublist ds) :
    byteLength cs ≤ byteLength ds := by
  induction h with
  | slnil => exact Nat.le_refl 0
  | cons c _ ih =>
    rw [byteLength_cons]
    omega
  | cons_cons c _ ih =>
    rw [byteLength_cons, byteLength_cons]
    omega

/-- A text that has lost characters without getting smaller has lost none. -/
theorem eq_of_sublist_of_byteLength_le {cs ds : List Char} (h : cs.Sublist ds)
    (hle : byteLength ds ≤ byteLength cs) : cs = ds := by
  induction h with
  | slnil => rfl
  | cons c h _ =>
    have hle' := byteLength_le_of_sublist h
    have hpos := c.utf8Size_pos
    rw [byteLength_cons] at hle
    omega
  | cons_cons c _ ih =>
    rw [byteLength_cons, byteLength_cons] at hle
    rw [ih (by omega)]

/-! ## The canonical form -/

/-- In canonical form a character takes as many bytes as before. -/
theorem utf8Size_canonicalChar (c : Char) : (canonicalChar c).utf8Size = c.utf8Size := by
  unfold canonicalChar
  split
  · rename_i h
    rcases h with rfl | rfl <;> rfl
  · split
    · rename_i h
      have hspace : (' ').val ≤ 0x7F := by decide
      have hascii : c.val ≤ 0x7F := Std.le_of_lt (Std.lt_of_lt_of_le h hspace)
      simp [Char.utf8Size, hascii]
    · rfl

/-- A text with a space for every control character, and a line feed for every carriage return that ends
a line by itself. A line end of two characters stays as it is. -/
def tidied : List Char → List Char
  | [] => []
  | '\r' :: '\n' :: cs => '\r' :: '\n' :: tidied cs
  | c :: cs => canonicalChar c :: tidied cs

theorem byteLength_tidied (cs : List Char) : byteLength (tidied cs) = byteLength cs := by
  fun_induction tidied cs with
  | case1 => rfl
  | case2 cs ih => simp only [byteLength_cons, ih]
  | case3 c cs _ ih => rw [byteLength_cons, byteLength_cons, utf8Size_canonicalChar, ih]

theorem byteLength_canonical_le (cs : List Char) : byteLength (canonical cs) ≤ byteLength cs := by
  fun_induction canonical cs with
  | case1 => exact Nat.le_refl 0
  | case2 cs ih =>
    simp only [byteLength_cons]
    omega
  | case3 c cs _ ih =>
    rw [byteLength_cons, byteLength_cons, utf8Size_canonicalChar]
    omega

/-- A text that does not get smaller in canonical form has no line end of two characters. -/
theorem canonical_eq_tidied {cs : List Char} (h : byteLength cs ≤ byteLength (canonical cs)) :
    canonical cs = tidied cs := by
  fun_induction canonical cs with
  | case1 => rfl
  | case2 cs _ =>
    have hle := byteLength_canonical_le cs
    have hpos := ('\r').utf8Size_pos
    simp only [byteLength_cons] at h
    omega
  | case3 c cs hcr ih =>
    rw [byteLength_cons, byteLength_cons, utf8Size_canonicalChar] at h
    rw [ih (by omega), tidied]
    exact hcr

theorem tidied_eq_self {cs : List Char} (h : canonical cs = cs) : tidied cs = cs := by
  rw [← canonical_eq_tidied (Nat.le_of_eq (congrArg byteLength h.symm)), h]

end Squeeze
