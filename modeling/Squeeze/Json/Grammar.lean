import Squeeze.Json.Printer

/-!
# The grammar of JSON

Which texts stand for which values, told by the form of the texts alone. Blanks may stand around every value
and every name. A character of a string may be written as itself, as a letter after a backslash, or by its code
in hexadecimal digits of either case. Of numbers there are only the natural ones, and a code is that of a
character, never half of a surrogate pair.

What is printed is such a text (`isText_render`).
-/

namespace Squeeze.Json

/-! ## Strings -/

/-- What may stand around a value. -/
def IsBlanks (cs : List Char) : Prop := ∀ c ∈ cs, c ∈ [' ', '\n', '\r', '\t']

/-- The letters that stand for a character after a backslash. -/
def escapes : List (Char × Char) :=
  [('"', '"'), ('\\', '\\'), ('/', '/'), ('b', '\x08'), ('f', '\x0c'), ('n', '\n'), ('r', '\r'), ('t', '\t')]

/-- The digit stands for the number. -/
def IsHexDigit (n : Nat) (digit : Char) : Prop :=
  "0123456789abcdef".toList[n]? = some digit ∨ "0123456789ABCDEF".toList[n]? = some digit

/-- How the characters of a string are written between its quotes. -/
inductive IsChars : List Char → List Char → Prop
  | nil : IsChars [] []
  | plain {c : Char} {s cs : List Char} (hc : ' ' ≤ c ∧ c ≠ '"' ∧ c ≠ '\\') (h : IsChars s cs) :
    IsChars (c :: s) (c :: cs)
  | escaped {letter c : Char} {s cs : List Char} (hc : (letter, c) ∈ escapes) (h : IsChars s cs) :
    IsChars (c :: s) ('\\' :: letter :: cs)
  | code {i j k l : Nat} {a b d e c : Char} {s cs : List Char} (ha : IsHexDigit i a)
    (hb : IsHexDigit j b) (hd : IsHexDigit k d) (he : IsHexDigit l e)
    (hc : c.toNat = ((i * 16 + j) * 16 + k) * 16 + l) (h : IsChars s cs) :
    IsChars (c :: s) ('\\' :: 'u' :: a :: b :: d :: e :: cs)

/-- How a string is written. -/
inductive IsQuoted : String → List Char → Prop
  | intro {s : String} {cs : List Char} (h : IsChars s.toList cs) : IsQuoted s ('"' :: cs ++ ['"'])

/-! ## Numbers -/

/-- How a natural number is written: with no zero in front of other digits. -/
inductive IsNumeral : Nat → List Char → Prop
  | digit {d : Nat} (hd : d < 10) : IsNumeral d [Nat.digitChar d]
  | append {n d : Nat} {ds : List Char} (hn : 0 < n) (hd : d < 10) (h : IsNumeral n ds) :
    IsNumeral (10 * n + d) (ds ++ [Nat.digitChar d])

/-! ## Values -/

mutual

/-- How a value is written. -/
inductive IsValue : Value → List Char → Prop
  | null : IsValue .null ['n', 'u', 'l', 'l']
  | true : IsValue (.bool true) ['t', 'r', 'u', 'e']
  | false : IsValue (.bool false) ['f', 'a', 'l', 's', 'e']
  | number {n : Nat} {ds : List Char} (h : IsNumeral n ds) : IsValue (.number n) ds
  | string {s : String} {cs : List Char} (h : IsQuoted s cs) : IsValue (.string s) cs
  | empty_array {bs : List Char} (hb : IsBlanks bs) : IsValue (.array []) ('[' :: bs ++ [']'])
  | array {vs : List Value} {cs : List Char} (h : IsItems vs cs) : IsValue (.array vs) ('[' :: cs)
  | empty_object {bs : List Char} (hb : IsBlanks bs) : IsValue (.object []) ('{' :: bs ++ ['}'])
  | object {ms : List (String × Value)} {cs : List Char} (h : IsMembers ms cs) :
    IsValue (.object ms) ('{' :: cs)

/-- How a value is written with blanks around it. -/
inductive IsText : Value → List Char → Prop
  | intro {v : Value} {bs cs bs' : List Char} (hb : IsBlanks bs) (h : IsValue v cs)
    (hb' : IsBlanks bs') : IsText v (bs ++ cs ++ bs')

/-- How the items of an array are written, up to its end. -/
inductive IsItems : List Value → List Char → Prop
  | last {v : Value} {cs : List Char} (h : IsText v cs) : IsItems [v] (cs ++ [']'])
  | cons {v : Value} {vs : List Value} {cs ds : List Char} (h : IsText v cs) (hs : IsItems vs ds) :
    IsItems (v :: vs) (cs ++ ',' :: ds)

/-- How a member of an object is written. -/
inductive IsMember : String × Value → List Char → Prop
  | intro {name : String} {v : Value} {bs cs bs' ds : List Char} (hb : IsBlanks bs)
    (hn : IsQuoted name cs) (hb' : IsBlanks bs') (h : IsText v ds) :
    IsMember (name, v) (bs ++ cs ++ bs' ++ ':' :: ds)

/-- How the members of an object are written, up to its end. -/
inductive IsMembers : List (String × Value) → List Char → Prop
  | last {m : String × Value} {cs : List Char} (h : IsMember m cs) : IsMembers [m] (cs ++ ['}'])
  | cons {m : String × Value} {ms : List (String × Value)} {cs ds : List Char} (h : IsMember m cs)
    (hs : IsMembers ms ds) : IsMembers (m :: ms) (cs ++ ',' :: ds)

end

/-! ## What is printed -/

theorem isBlanks_nil : IsBlanks [] := fun _ hc => nomatch hc

theorem isHexDigit_hexDigit {n : Nat} (h : n < 16) : IsHexDigit n (hexDigit n) := by
  have hall : ∀ n : Fin 16, "0123456789abcdef".toList[n.val]? = some (hexDigit n) := by decide
  exact Or.inl (hall ⟨n, h⟩)

/-- Most characters that have to be escaped have a letter of their own. -/
theorem exists_letter : ∀ c ∈ ['"', '\\', '\n', '\r', '\t', '\x08', '\x0c'],
    ∃ x ∈ escapes, x.2 = c ∧ escape c = ['\\', x.1] := by
  simp [escapes, escape]

theorem isChars_escape (c : Char) {s cs : List Char} (h : IsChars s cs) :
    IsChars (c :: s) (escape c ++ cs) := by
  by_cases hletter : c ∈ ['"', '\\', '\n', '\r', '\t', '\x08', '\x0c']
  · obtain ⟨⟨letter, _⟩, hmem, rfl, he⟩ := exists_letter c hletter
    rw [he]
    exact .escaped hmem h
  · have he : escape c = if c < ' ' then
        ['\\', 'u', '0', '0', hexDigit (c.toNat / 16), hexDigit (c.toNat % 16)] else [c] := by
      simp only [List.mem_cons, List.not_mem_nil, or_false, not_or] at hletter
      simp [escape, hletter]
    rw [he]
    by_cases hc : c < ' '
    · have hlt : c.toNat < 32 := hc
      have hzero : IsHexDigit 0 '0' := Or.inl rfl
      have hhigh : IsHexDigit (c.toNat / 16) (hexDigit (c.toNat / 16)) :=
        isHexDigit_hexDigit (by omega)
      have hlow : IsHexDigit (c.toNat % 16) (hexDigit (c.toNat % 16)) :=
        isHexDigit_hexDigit (by omega)
      rw [if_pos hc]
      exact .code hzero hzero hhigh hlow (by omega) h
    · rw [if_neg hc]
      simp only [List.mem_cons, not_or] at hletter
      exact .plain ⟨Char.not_lt.mp hc, hletter.1, hletter.2.1⟩ h

theorem isQuoted_quote (s : String) : IsQuoted s (quote s.toList) := by
  refine .intro ?_
  induction s.toList with
  | nil => exact .nil
  | cons c s ih => exact isChars_escape c ih

theorem isNumeral_toDigits (n : Nat) : IsNumeral n (Nat.toDigits 10 n) := by
  induction n using Nat.strongRecOn with
  | _ n ih =>
    by_cases hn : n < 10
    · rw [Nat.toDigits_of_lt_base hn]
      exact .digit hn
    · have hdiv : 10 * (n / 10) + n % 10 = n := Nat.div_add_mod n 10
      have happend : IsNumeral (10 * (n / 10) + n % 10)
          (Nat.toDigits 10 (n / 10) ++ [Nat.digitChar (n % 10)]) :=
        .append (by omega) (Nat.mod_lt n (by decide)) (ih (n / 10) (by omega))
      rw [hdiv] at happend
      rw [Nat.toDigits_of_base_le (by decide) (Nat.le_of_not_lt hn)]
      exact happend

theorem IsValue.isText {v : Value} {cs : List Char} (h : IsValue v cs) : IsText v cs := by
  have htext : IsText v ([] ++ cs ++ []) := .intro isBlanks_nil h isBlanks_nil
  rw [List.append_nil] at htext
  exact htext

theorem IsValue.isMember {name : String} {v : Value} {cs : List Char} (h : IsValue v cs) :
    IsMember (name, v) (quote name.toList ++ ':' :: cs) := by
  have hmember : IsMember (name, v) ([] ++ quote name.toList ++ [] ++ ':' :: cs) :=
    .intro isBlanks_nil (isQuoted_quote name) isBlanks_nil h.isText
  rw [List.append_nil] at hmember
  exact hmember

mutual

theorem isValue_print : ∀ v : Value, IsValue v v.print
  | .null => .null
  | .bool true => .true
  | .bool false => .false
  | .number n => .number (isNumeral_toDigits n)
  | .string s => .string (isQuoted_quote s)
  | .array [] => .empty_array isBlanks_nil
  | .array (v :: vs) => .array (isItems_printItems (isValue_print v).isText vs)
  | .object [] => .empty_object isBlanks_nil
  | .object ((_, v) :: ms) => .object (isMembers_printMembers (isValue_print v).isMember ms)

theorem isItems_printItems {v : Value} {cs : List Char} (h : IsText v cs) :
    ∀ vs, IsItems (v :: vs) (cs ++ Value.printItems vs)
  | [] => .last h
  | v :: vs => .cons h (isItems_printItems (isValue_print v).isText vs)

theorem isMembers_printMembers {m : String × Value} {cs : List Char} (h : IsMember m cs) :
    ∀ ms, IsMembers (m :: ms) (cs ++ Value.printMembers ms)
  | [] => .last h
  | (_, v) :: ms => .cons h (isMembers_printMembers (isValue_print v).isMember ms)

end

theorem isText_render (v : Value) : IsText v v.render.toList := by
  rw [Value.render, String.toList_ofList]
  exact (isValue_print v).isText

end Squeeze.Json
