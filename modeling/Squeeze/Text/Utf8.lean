/-!
# Bytes that are a text

Which bytes encode a text in UTF-8 can be told from the bytes. Each character begins with a byte that
says how many more there are, and these lie in a range in which no first byte lies. Of the shapes that
this leaves, some are ruled out: those of characters that a shorter shape has already, the surrogates, and
everything behind the last character. `isUtf8_iff` says that what is left are the encodings of the texts.
-/

namespace Squeeze

/-- Whether a byte goes on with a character. -/
def Continues (b : UInt8) : Prop := 0x80 ≤ b ∧ b ≤ 0xBF

/-- The bytes of one character. -/
inductive IsCharacter : List UInt8 → Prop
  | one {a : UInt8} (ha : a ≤ 0x7F) : IsCharacter [a]
  /-- Behind the first bytes `C0` and `C1` there would be characters of one byte. -/
  | two {a b : UInt8} (ha : 0xC2 ≤ a ∧ a ≤ 0xDF) (hb : Continues b) : IsCharacter [a, b]
  /-- There are no characters of two bytes among them, and no surrogates. -/
  | three {a b c : UInt8} (ha : 0xE0 ≤ a ∧ a ≤ 0xEF) (hb : Continues b) (hc : Continues c)
      (hshort : a = 0xE0 → 0xA0 ≤ b) (hsurrogate : a = 0xED → b ≤ 0x9F) : IsCharacter [a, b, c]
  /-- There are no characters of three bytes among them, and none that come after the last one. -/
  | four {a b c d : UInt8} (ha : 0xF0 ≤ a ∧ a ≤ 0xF4) (hb : Continues b) (hc : Continues c)
      (hd : Continues d) (hshort : a = 0xF0 → 0x90 ≤ b) (hlast : a = 0xF4 → b ≤ 0x8F) :
      IsCharacter [a, b, c, d]

/-- Whether some bytes are the characters of a text, one after another. -/
inductive IsUtf8 : List UInt8 → Prop
  | nil : IsUtf8 []
  | append {bs cs : List UInt8} (hb : IsCharacter bs) (hc : IsUtf8 cs) : IsUtf8 (bs ++ cs)

/-- The bytes of a text. -/
def utf8Bytes (text : String) : List UInt8 := text.toUTF8.data.toList

/-! ## One character -/

/-- Every number below the last one that is not a surrogate is the number of a character. -/
theorem exists_char {n : Nat} (h : n < 0xD800 ∨ 0xDFFF < n ∧ n < 0x110000) :
    ∃ c : Char, c.val.toNat = n := by
  refine ⟨Char.ofNat n, ?_⟩
  have hn : n.isValidChar := h
  rw [Char.ofNat, dif_pos hn]
  rfl

/-- How a character is encoded depends on how large its number is. -/
theorem isCharacter_utf8EncodeChar (c : Char) : IsCharacter (String.utf8EncodeChar c) := by
  have hvalid : c.val.toNat < 0xD800 ∨ 0xDFFF < c.val.toNat ∧ c.val.toNat < 0x110000 := c.valid
  simp only [String.utf8EncodeChar]
  generalize c.val.toNat = n at hvalid ⊢
  by_cases h1 : n ≤ 0x7F
  · rw [if_pos h1]
    apply IsCharacter.one
    simp [UInt8.le_iff_toNat_le]
    omega
  by_cases h2 : n ≤ 0x7FF
  · rw [if_neg h1, if_pos h2]
    apply IsCharacter.two <;> simp [Continues, UInt8.le_iff_toNat_le] <;> omega
  by_cases h3 : n ≤ 0xFFFF
  · rw [if_neg h1, if_neg h2, if_pos h3]
    apply IsCharacter.three <;>
      simp [Continues, UInt8.le_iff_toNat_le, ← UInt8.toNat_inj] <;> omega
  · rw [if_neg h1, if_neg h2, if_neg h3]
    apply IsCharacter.four <;>
      simp [Continues, UInt8.le_iff_toNat_le, ← UInt8.toNat_inj] <;> omega

/-- The bytes of a character are the digits of its number, so it can be put together from them. -/
theorem IsCharacter.exists_utf8EncodeChar {bs : List UInt8} (h : IsCharacter bs) :
    ∃ c, String.utf8EncodeChar c = bs := by
  cases h with
  | @one a ha =>
    simp only [UInt8.le_iff_toNat_le, UInt8.reduceToNat] at ha
    obtain ⟨c, hc⟩ := exists_char (n := a.toNat) (by omega)
    refine ⟨c, ?_⟩
    simp only [String.utf8EncodeChar, hc]
    rw [if_pos ha, UInt8.ofNat_toNat]
  | @two a b ha hb =>
    simp only [Continues, UInt8.le_iff_toNat_le, UInt8.reduceToNat] at ha hb
    obtain ⟨c, hc⟩ := exists_char (n := (a.toNat - 0xC0) * 64 + (b.toNat - 0x80)) (by omega)
    have h1 : c.val.toNat / 64 % 0x20 + 0xC0 = a.toNat := by omega
    have h2 : c.val.toNat % 0x40 + 0x80 = b.toNat := by omega
    refine ⟨c, ?_⟩
    simp only [String.utf8EncodeChar, h1, h2, UInt8.ofNat_toNat]
    rw [if_neg (by omega), if_pos (by omega)]
  | @three a b c ha hb hc hshort hsurrogate =>
    simp only [Continues, UInt8.le_iff_toNat_le, UInt8.reduceToNat, ← UInt8.toNat_inj] at *
    obtain ⟨x, hx⟩ := exists_char
      (n := (a.toNat - 0xE0) * 4096 + (b.toNat - 0x80) * 64 + (c.toNat - 0x80)) (by omega)
    have h1 : x.val.toNat / 4096 % 0x10 + 0xE0 = a.toNat := by omega
    have h2 : x.val.toNat / 64 % 0x40 + 0x80 = b.toNat := by omega
    have h3 : x.val.toNat % 0x40 + 0x80 = c.toNat := by omega
    refine ⟨x, ?_⟩
    simp only [String.utf8EncodeChar, h1, h2, h3, UInt8.ofNat_toNat]
    rw [if_neg (by omega), if_neg (by omega), if_pos (by omega)]
  | @four a b c d ha hb hc hd hshort hlast =>
    simp only [Continues, UInt8.le_iff_toNat_le, UInt8.reduceToNat, ← UInt8.toNat_inj] at *
    obtain ⟨x, hx⟩ := exists_char
      (n := (a.toNat - 0xF0) * 262144 + (b.toNat - 0x80) * 4096 + (c.toNat - 0x80) * 64 +
        (d.toNat - 0x80)) (by omega)
    have h1 : x.val.toNat / 262144 % 0x08 + 0xF0 = a.toNat := by omega
    have h2 : x.val.toNat / 4096 % 0x40 + 0x80 = b.toNat := by omega
    have h3 : x.val.toNat / 64 % 0x40 + 0x80 = c.toNat := by omega
    have h4 : x.val.toNat % 0x40 + 0x80 = d.toNat := by omega
    refine ⟨x, ?_⟩
    simp only [String.utf8EncodeChar, h1, h2, h3, h4, UInt8.ofNat_toNat]
    rw [if_neg (by omega), if_neg (by omega), if_neg (by omega)]

theorem isCharacter_iff {bs : List UInt8} :
    IsCharacter bs ↔ ∃ c, String.utf8EncodeChar c = bs := by
  constructor
  · exact IsCharacter.exists_utf8EncodeChar
  · rintro ⟨c, rfl⟩
    exact isCharacter_utf8EncodeChar c

/-! ## A text -/

theorem utf8Bytes_ofList (cs : List Char) :
    utf8Bytes (String.ofList cs) = cs.flatMap String.utf8EncodeChar := by
  rw [utf8Bytes, String.toUTF8_eq_toByteArray, String.toByteArray_ofList, List.utf8Encode,
    List.data_toByteArray]

theorem utf8Bytes_eq (text : String) :
    utf8Bytes text = text.toList.flatMap String.utf8EncodeChar := by
  rw [← utf8Bytes_ofList, String.ofList_toList]

/-- Bytes are the encoding of a text exactly if they are the bytes of characters, one after another. -/
theorem isUtf8_iff {bs : List UInt8} : IsUtf8 bs ↔ ∃ text, utf8Bytes text = bs := by
  constructor
  · intro h
    induction h with
    | nil => exact ⟨"", rfl⟩
    | @append bs cs hb _ ih =>
      obtain ⟨c, rfl⟩ := isCharacter_iff.mp hb
      obtain ⟨text, rfl⟩ := ih
      refine ⟨String.ofList (c :: text.toList), ?_⟩
      rw [utf8Bytes_ofList, utf8Bytes_eq, List.flatMap_cons]
  · rintro ⟨text, rfl⟩
    rw [utf8Bytes_eq]
    induction text.toList with
    | nil => exact .nil
    | cons c cs ih => exact .append (isCharacter_utf8EncodeChar c) ih

end Squeeze
