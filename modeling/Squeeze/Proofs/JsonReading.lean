import Mathlib.Data.List.DropRight
import Squeeze.Json.Grammar
import Squeeze.Json.Parser

/-!
# Reading JSON by its grammar

The reader finds in a text whatever the grammar says the text stands for (`parse_of_isText`). So a text stands
for one value at most, and what is printed is read back.

The reader is told how many calls may wait for each other. Twice the length of what it is to read is enough,
and by induction on that number it reads values, items and members all at once (`ReadsWithin`).
-/

namespace Squeeze.Json

/-! ## Blanks -/

section Blanks

variable {bs cs : List Char} {c : Char}

theorem mem_blanks_iff : c ∈ [' ', '\n', '\r', '\t'] ↔
    (c = ' ' || c = '\n' || c = '\r' || c = '\t') = true := by
  simp [or_assoc]

theorem skipBlanks_append (hb : IsBlanks bs) (cs : List Char) :
    skipBlanks (bs ++ cs) = skipBlanks cs :=
  List.dropWhile_append_of_pos fun c hc => mem_blanks_iff.mp (hb c hc)

theorem skipBlanks_cons (hc : c ∉ [' ', '\n', '\r', '\t']) (cs : List Char) :
    skipBlanks (c :: cs) = c :: cs :=
  List.dropWhile_cons_of_neg fun h => hc (mem_blanks_iff.mpr h)

theorem skipBlanks_append_cons (hb : IsBlanks bs) (hc : c ∉ [' ', '\n', '\r', '\t'])
    (cs : List Char) : skipBlanks (bs ++ c :: cs) = c :: cs := by
  rw [skipBlanks_append hb, skipBlanks_cons hc]

theorem skipBlanks_eq_nil (hb : IsBlanks bs) : skipBlanks bs = [] := by
  have h := skipBlanks_append hb []
  rw [List.append_nil] at h
  exact h

theorem skipBlanks_skipBlanks (cs : List Char) : skipBlanks (skipBlanks cs) = skipBlanks cs :=
  List.dropWhile_idempotent _ _

theorem isDigit_eq_false : ∀ c ∈ [' ', '\n', '\r', '\t', ']', '}'], c.isDigit = false := by
  simp [Char.isDigit]

theorem IsBlanks.isDigit_head (hb : IsBlanks bs) : ∀ c ∈ bs.head?, c.isDigit = false := by
  intro c hc
  have hblank := hb c (List.mem_of_mem_head? hc)
  exact isDigit_eq_false c (List.mem_append_left [']', '}'] hblank)

end Blanks

/-! ## Strings -/

theorem ofHexDigit_eq {n : Nat} {digit : Char} (h : IsHexDigit n digit) : ofHexDigit digit = some n := by
  have hread : ∀ digits : List Char, digits.length = 16 →
      (∀ n : Fin 16, digits[n.val]?.bind ofHexDigit = some n.val) →
      digits[n]? = some digit → ofHexDigit digit = some n := by
    intro digits hlength hall hn
    have hlt : n < 16 := by
      rw [← hlength]
      exact (List.getElem?_eq_some_iff.mp hn).1
    have hvalue := hall ⟨n, hlt⟩
    rw [hn] at hvalue
    exact hvalue
  rcases h with h | h
  · exact hread _ rfl (by decide) h
  · exact hread _ rfl (by decide) h

theorem ofEscape_eq : ∀ x ∈ escapes, x.1 ≠ 'u' ∧ ofEscape x.1 = some x.2 := by
  decide

theorem ofCode_toNat (c : Char) : ofCode c.toNat = some c := by
  have hvalid : c.toNat.isValidChar := c.valid
  rw [ofCode, if_pos hvalid, Char.ofNat_toNat]

theorem ofHexDigits_eq {i j k l : Nat} {a b d e c : Char} (ha : IsHexDigit i a) (hb : IsHexDigit j b)
    (hd : IsHexDigit k d) (he : IsHexDigit l e) (hc : c.toNat = ((i * 16 + j) * 16 + k) * 16 + l) :
    ofHexDigits a b d e = some c := by
  have hcode : (i * 16 + j) * 256 + k * 16 + l = c.toNat := by omega
  rw [ofHexDigits, ofHexDigit_eq ha, ofHexDigit_eq hb, ofHexDigit_eq hd, ofHexDigit_eq he]
  show ofCode ((i * 16 + j) * 256 + k * 16 + l) = some c
  rw [hcode]
  exact ofCode_toNat c

/-- The characters of a string are read up to its closing quote. -/
theorem unquote_append {s cs : List Char} (h : IsChars s cs) (rest : List Char) :
    unquote (cs ++ '"' :: rest) = some (s, rest) := by
  induction h with
  | nil => simp [unquote]
  | @plain c s cs hc h ih =>
    obtain ⟨hle, hquote, hback⟩ := hc
    have hno : ¬ (c < ' ' ∨ c = '\\') := not_or.mpr ⟨Char.not_lt.mpr hle, hback⟩
    rw [List.cons_append, unquote, if_neg hquote, if_neg hno, ih]
    · rfl
    · exact fun _ _ _ _ _ hc => absurd hc hback
    · exact fun _ _ hc => absurd hc hback
  | @escaped letter c s cs hc h ih =>
    obtain ⟨hu, hescape⟩ := ofEscape_eq _ hc
    rw [List.cons_append, List.cons_append, unquote, hescape, ih]
    · rfl
    · exact fun _ _ _ _ _ hc => absurd hc hu
  | @code i j k l a b d e c s cs ha hb hd he hc h ih =>
    rw [List.cons_append, List.cons_append, List.cons_append, List.cons_append, List.cons_append,
      List.cons_append, unquote, ofHexDigits_eq ha hb hd he hc, ih]
    rfl

/-! ## Numbers -/

theorem ofDigits_append (ds : List Char) (d : Char) :
    ofDigits (ds ++ [d]) = 10 * ofDigits ds + (d.toNat - '0'.toNat) := by
  rw [ofDigits, List.foldl_append]
  rfl

theorem toNat_digitChar : ∀ d < 10, (Nat.digitChar d).toNat - '0'.toNat = d := by
  decide

theorem IsNumeral.ne_nil {n : Nat} {ds : List Char} (h : IsNumeral n ds) : ds ≠ [] := by
  cases h <;> simp

theorem IsNumeral.isDigit {n : Nat} {ds : List Char} (h : IsNumeral n ds) :
    ∀ d ∈ ds, d.isDigit = true := by
  induction h with
  | digit hd =>
    intro d hmem
    rw [List.mem_singleton.mp hmem, Nat.isDigit_digitChar]
    exact decide_eq_true hd
  | append hn hd h ih =>
    intro d hmem
    rcases List.mem_append.mp hmem with hmem | hmem
    · exact ih d hmem
    · rw [List.mem_singleton.mp hmem, Nat.isDigit_digitChar]
      exact decide_eq_true hd

theorem IsNumeral.ofDigits_eq {n : Nat} {ds : List Char} (h : IsNumeral n ds) : ofDigits ds = n := by
  induction h with
  | @digit d hd => exact (ofDigits_append [] _).trans ((Nat.zero_add _).trans (toNat_digitChar d hd))
  | @append n d ds hn hd h ih => rw [ofDigits_append, ih, toNat_digitChar d hd]

/-- Only the zero begins with one. -/
theorem IsNumeral.eq_of_head {n : Nat} {ds : List Char} (h : IsNumeral n ds)
    (hd : ds.head? = some '0') : ds = ['0'] := by
  induction h with
  | digit _ => rw [Option.some.inj hd]
  | @append n d ds hn _ h ih =>
    rw [List.head?_append_of_ne_nil _ h.ne_nil] at hd
    have hzero := h.ofDigits_eq
    rw [ih hd] at hzero
    exact absurd hzero (Nat.ne_of_lt hn)

theorem parseNumber_append {n : Nat} {ds rest : List Char} (h : IsNumeral n ds)
    (hrest : ∀ c ∈ rest.head?, c.isDigit = false) :
    parseNumber (ds ++ rest) = some (.number n, rest) := by
  have htake : (ds ++ rest).takeWhile Char.isDigit = ds := by
    rw [List.takeWhile_append_of_pos h.isDigit]
    rcases rest with _ | ⟨c, rest⟩
    · exact List.append_nil ds
    · rw [List.takeWhile_cons_of_neg (by simp [hrest c rfl]), List.append_nil]
  have hdrop : (ds ++ rest).dropWhile Char.isDigit = rest := by
    rw [List.dropWhile_append_of_pos h.isDigit]
    rcases rest with _ | ⟨c, rest⟩
    · rfl
    · exact List.dropWhile_cons_of_neg (by simp [hrest c rfl])
  have hgood : ¬ (ds = [] ∨ ds.head? = some '0' ∧ 1 < ds.length) := by
    rintro (hnil | ⟨hzero, hlength⟩)
    · exact h.ne_nil hnil
    · rw [h.eq_of_head hzero] at hlength
      exact absurd hlength (by decide)
  unfold parseNumber
  dsimp only
  rw [htake, hdrop, if_neg hgood, h.ofDigits_eq]

/-! ## One call -/

theorem not_mem_of_isDigit {c : Char} (h : c.isDigit = true) :
    c ∉ [' ', '\n', '\r', '\t', ']', '}'] := by
  intro hmem
  rw [isDigit_eq_false c hmem] at h
  cases h

/-- A value begins with no blank, and with nothing that ends an array. -/
theorem IsValue.exists_cons {v : Value} {cs : List Char} (h : IsValue v cs) :
    ∃ c ds, cs = c :: ds ∧ c ∉ [' ', '\n', '\r', '\t', ']'] := by
  cases h with
  | null | true | false | empty_array | array | empty_object | object => exact ⟨_, _, rfl, by decide⟩
  | string h =>
    cases h
    exact ⟨_, _, rfl, by decide⟩
  | number h =>
    obtain ⟨c, ds, rfl⟩ := List.exists_cons_of_ne_nil h.ne_nil
    have hc := not_mem_of_isDigit (h.isDigit c (List.mem_cons_self ..))
    exact ⟨c, ds, rfl, fun hmem => hc (by revert hmem; simp; tauto)⟩

section Calls

variable {n : Nat} {bs cs ds rest : List Char} {c : Char} {v : Value} {vs : List Value}
  {ms : List (String × Value)}

/-- Blanks in front of a value make no difference. -/
theorem parseValue_skipBlanks (n : Nat) (cs : List Char) :
    parseValue n (skipBlanks cs) = parseValue n cs := by
  cases n with
  | zero => rfl
  | succ n => rw [parseValue_succ, parseValue_succ, skipBlanks_skipBlanks]

theorem parseValue_append (n : Nat) (hb : IsBlanks bs) (cs : List Char) :
    parseValue n (bs ++ cs) = parseValue n cs := by
  rw [← parseValue_skipBlanks n (bs ++ cs), skipBlanks_append hb, parseValue_skipBlanks]

theorem parseValue_digit (hc : c.isDigit = true) (cs : List Char) :
    parseValue (n + 1) (c :: cs) = parseNumber (c :: cs) := by
  have hblank : c ∉ [' ', '\n', '\r', '\t'] := fun hmem =>
    not_mem_of_isDigit hc (List.mem_append_left [']', '}'] hmem)
  rw [parseValue_succ, skipBlanks_cons hblank]
  split
  case h_7 => rfl
  -- no other value begins with a digit
  all_goals
    rename_i he
    cases he
    cases hc

theorem parseValue_quote (h : unquote cs = some (ds, rest)) :
    parseValue (n + 1) ('"' :: cs) = some (.string (String.ofList ds), rest) := by
  show (unquote cs).map _ = _
  rw [h]
  rfl

theorem parseValue_emptyArray (hb : IsBlanks bs) (rest : List Char) :
    parseValue (n + 1) ('[' :: (bs ++ ']' :: rest)) = some (.array [], rest) := by
  rw [parseValue_bracket, skipBlanks_append_cons hb (by decide)]
  rfl

theorem parseValue_array (hc : (skipBlanks cs).head? ≠ some ']')
    (h : parseItems n (skipBlanks cs) = some (vs, rest)) :
    parseValue (n + 1) ('[' :: cs) = some (.array vs, rest) := by
  rw [parseValue_bracket]
  split
  · rename_i hs
    rw [hs] at hc
    exact absurd rfl hc
  · rw [h]
    rfl

theorem parseValue_emptyObject (hb : IsBlanks bs) (rest : List Char) :
    parseValue (n + 1) ('{' :: (bs ++ '}' :: rest)) = some (.object [], rest) := by
  rw [parseValue_brace, skipBlanks_append_cons hb (by decide)]
  rfl

theorem parseValue_object (hc : (skipBlanks cs).head? ≠ some '}')
    (h : parseMembers n (skipBlanks cs) = some (ms, rest)) :
    parseValue (n + 1) ('{' :: cs) = some (.object ms, rest) := by
  rw [parseValue_brace]
  split
  · rename_i hs
    rw [hs] at hc
    exact absurd rfl hc
  · rw [h]
    rfl

theorem parseItems_skipBlanks (n : Nat) (cs : List Char) :
    parseItems n (skipBlanks cs) = parseItems n cs := by
  cases n with
  | zero => rfl
  | succ n => rw [parseItems_succ, parseItems_succ, parseValue_skipBlanks]

theorem parseItems_last (h : parseValue n cs = some (v, ds)) (hd : skipBlanks ds = ']' :: rest) :
    parseItems (n + 1) cs = some ([v], rest) := by
  simp [parseItems_succ, h, hd]

theorem parseItems_cons (h : parseValue n cs = some (v, ds)) (hd : skipBlanks ds = ',' :: bs)
    (hs : parseItems n bs = some (vs, rest)) : parseItems (n + 1) cs = some (v :: vs, rest) := by
  simp [parseItems_succ, h, hd, hs]

theorem parseName_skipBlanks (cs : List Char) : parseName (skipBlanks cs) = parseName cs := by
  rw [parseName, parseName, skipBlanks_skipBlanks]

theorem parseName_append {name : String} {bs' : List Char} (hb : IsBlanks bs)
    (h : IsQuoted name cs) (hb' : IsBlanks bs') (rest : List Char) :
    parseName (bs ++ cs ++ bs' ++ ':' :: rest) = some (name, rest) := by
  obtain ⟨h⟩ := h
  rename_i cs
  have hcut : bs ++ ('"' :: cs ++ ['"']) ++ bs' ++ ':' :: rest =
      bs ++ '"' :: (cs ++ '"' :: (bs' ++ ':' :: rest)) := by simp
  have hquote : skipBlanks ('"' :: (cs ++ '"' :: (bs' ++ ':' :: rest))) =
      '"' :: (cs ++ '"' :: (bs' ++ ':' :: rest)) := skipBlanks_cons (by decide) _
  have hcolon : skipBlanks (bs' ++ ':' :: rest) = ':' :: rest :=
    skipBlanks_append_cons hb' (by decide) rest
  rw [hcut, parseName, skipBlanks_append hb, hquote]
  simp [unquote_append h, hcolon]

theorem parseMembers_skipBlanks (n : Nat) (cs : List Char) :
    parseMembers n (skipBlanks cs) = parseMembers n cs := by
  cases n with
  | zero => rfl
  | succ n => rw [parseMembers_succ, parseMembers_succ, parseName_skipBlanks]

theorem parseMembers_last {name : String} (hn : parseName cs = some (name, bs))
    (h : parseValue n bs = some (v, ds)) (hd : skipBlanks ds = '}' :: rest) :
    parseMembers (n + 1) cs = some ([(name, v)], rest) := by
  simp [parseMembers_succ, hn, h, hd]

theorem parseMembers_cons {name : String} {es : List Char} (hn : parseName cs = some (name, bs))
    (h : parseValue n bs = some (v, ds)) (hd : skipBlanks ds = ',' :: es)
    (hs : parseMembers n es = some (ms, rest)) :
    parseMembers (n + 1) cs = some ((name, v) :: ms, rest) := by
  simp [parseMembers_succ, hn, h, hd, hs]

end Calls

/-! ## All calls -/

section Head

variable {v : Value} {vs : List Value} {m : String × Value} {ms : List (String × Value)}
  {cs : List Char}

theorem IsText.head_ne (h : IsText v cs) (rest : List Char) :
    (skipBlanks (cs ++ rest)).head? ≠ some ']' := by
  obtain ⟨hb, h, -⟩ := h
  obtain ⟨c, ds, rfl, hc⟩ := h.exists_cons
  have hblank : c ∉ [' ', '\n', '\r', '\t'] := fun hmem => hc (List.mem_append_left [']'] hmem)
  rw [List.append_assoc, List.append_assoc, List.cons_append, skipBlanks_append_cons hb hblank]
  rintro ⟨⟩
  exact hc (by decide)

theorem IsItems.head_ne (h : IsItems vs cs) (rest : List Char) :
    (skipBlanks (cs ++ rest)).head? ≠ some ']' := by
  cases h with
  | last h =>
    rw [List.append_assoc]
    exact h.head_ne _
  | cons h =>
    rw [List.append_assoc]
    exact h.head_ne _

theorem IsMember.head_ne (h : IsMember m cs) (rest : List Char) :
    (skipBlanks (cs ++ rest)).head? ≠ some '}' := by
  obtain ⟨hb, ⟨-⟩, -, -⟩ := h
  rw [List.append_assoc, List.append_assoc, List.append_assoc, List.cons_append, List.cons_append,
    skipBlanks_append_cons hb (by decide)]
  rintro ⟨⟩

theorem IsMembers.head_ne (h : IsMembers ms cs) (rest : List Char) :
    (skipBlanks (cs ++ rest)).head? ≠ some '}' := by
  cases h with
  | last h =>
    rw [List.append_assoc]
    exact h.head_ne _
  | cons h =>
    rw [List.append_assoc]
    exact h.head_ne _

end Head

/-- Given `n` calls that may wait for each other, the reader reads whatever has at most half as many characters,
and leaves what comes after it. -/
structure ReadsWithin (n : Nat) : Prop where
  value : ∀ {v cs}, IsValue v cs → 2 * cs.length ≤ n → ∀ {rest : List Char},
    (∀ c ∈ rest.head?, c.isDigit = false) → parseValue n (cs ++ rest) = some (v, rest)
  items : ∀ {vs cs}, IsItems vs cs → 2 * cs.length ≤ n → ∀ rest,
    parseItems n (cs ++ rest) = some (vs, rest)
  members : ∀ {ms cs}, IsMembers ms cs → 2 * cs.length ≤ n → ∀ rest,
    parseMembers n (cs ++ rest) = some (ms, rest)

section ReadsWithin

variable {n : Nat} {v : Value} {cs rest : List Char}

/-- A value with blanks around it is read up to the blanks behind it. -/
theorem ReadsWithin.text (h : ReadsWithin n) (hv : IsText v cs) (hn : 2 * cs.length ≤ n) {c : Char}
    (hc : c ∉ [' ', '\n', '\r', '\t'] ∧ c.isDigit = false) (rest : List Char) :
    ∃ ds, parseValue n (cs ++ c :: rest) = some (v, ds) ∧ skipBlanks ds = c :: rest := by
  obtain ⟨hb, hv, hb'⟩ := hv
  rename_i bs cs bs'
  refine ⟨bs' ++ c :: rest, ?_, ?_⟩
  · have hlength : 2 * cs.length ≤ n := by
      simp only [List.length_append] at hn
      omega
    have hdigit : ∀ d ∈ (bs' ++ c :: rest).head?, d.isDigit = false := by
      rcases bs' with _ | ⟨b, bs'⟩
      · rintro d ⟨⟩
        exact hc.2
      · exact hb'.isDigit_head
    rw [List.append_assoc, List.append_assoc, parseValue_append n hb]
    exact h.value hv hlength hdigit
  · exact skipBlanks_append_cons hb' hc.1 rest

theorem ReadsWithin.value_succ (h : ReadsWithin n) (hv : IsValue v cs)
    (hn : 2 * cs.length ≤ n + 1) (hrest : ∀ c ∈ rest.head?, c.isDigit = false) :
    parseValue (n + 1) (cs ++ rest) = some (v, rest) := by
  cases hv with
  | null | true | false => rfl
  | number hd =>
    obtain ⟨c, ds, rfl⟩ := List.exists_cons_of_ne_nil hd.ne_nil
    have hc : c.isDigit = true := hd.isDigit c (List.mem_cons_self ..)
    rw [List.cons_append, parseValue_digit hc]
    exact parseNumber_append hd hrest
  | string hs =>
    obtain ⟨hs⟩ := hs
    rename_i s cs
    have hquote := parseValue_quote (n := n) (unquote_append hs rest)
    rw [String.ofList_toList] at hquote
    rw [List.append_assoc, List.cons_append]
    exact hquote
  | @empty_array bs hb =>
    rw [List.append_assoc, List.cons_append]
    exact parseValue_emptyArray hb rest
  | @array vs cs hs =>
    have hlength : 2 * cs.length ≤ n := by
      rw [List.length_cons] at hn
      omega
    refine parseValue_array (hs.head_ne rest) ?_
    rw [parseItems_skipBlanks]
    exact h.items hs hlength rest
  | @empty_object bs hb =>
    rw [List.append_assoc, List.cons_append]
    exact parseValue_emptyObject hb rest
  | @object ms cs hs =>
    have hlength : 2 * cs.length ≤ n := by
      rw [List.length_cons] at hn
      omega
    refine parseValue_object (hs.head_ne rest) ?_
    rw [parseMembers_skipBlanks]
    exact h.members hs hlength rest

theorem ReadsWithin.items_succ {vs : List Value} (h : ReadsWithin n) (hs : IsItems vs cs)
    (hn : 2 * cs.length ≤ n + 1) (rest : List Char) :
    parseItems (n + 1) (cs ++ rest) = some (vs, rest) := by
  cases hs with
  | @last v cs hv =>
    rw [List.length_append, List.length_singleton] at hn
    obtain ⟨ds, hvalue, hend⟩ := h.text hv (c := ']') (by omega) (by decide) rest
    rw [List.append_assoc]
    exact parseItems_last hvalue hend
  | @cons v vs cs es hv hs =>
    rw [List.length_append, List.length_cons] at hn
    obtain ⟨ds, hvalue, hcomma⟩ := h.text hv (c := ',') (by omega) (by decide) (es ++ rest)
    rw [List.append_assoc]
    exact parseItems_cons hvalue hcomma (h.items hs (by omega) rest)

theorem ReadsWithin.members_succ {ms : List (String × Value)} (h : ReadsWithin n)
    (hs : IsMembers ms cs) (hn : 2 * cs.length ≤ n + 1) (rest : List Char) :
    parseMembers (n + 1) (cs ++ rest) = some (ms, rest) := by
  cases hs with
  | last hm =>
    obtain ⟨hb, hname, hb', hv⟩ := hm
    rename_i name v bs ns bs' cs
    simp only [List.length_append, List.length_cons, List.length_nil] at hn
    obtain ⟨ds, hvalue, hend⟩ := h.text hv (c := '}') (by omega) (by decide) rest
    rw [List.append_assoc, List.append_assoc, List.cons_append]
    exact parseMembers_last (parseName_append hb hname hb' _) hvalue hend
  | @cons _ ms _ es hm hs =>
    obtain ⟨hb, hname, hb', hv⟩ := hm
    rename_i name v bs ns bs' cs
    simp only [List.length_append, List.length_cons] at hn
    obtain ⟨ds, hvalue, hcomma⟩ := h.text hv (c := ',') (by omega) (by decide) (es ++ rest)
    rw [List.append_assoc, List.append_assoc, List.cons_append]
    exact parseMembers_cons (parseName_append hb hname hb' _) hvalue hcomma
      (h.members hs (by omega) rest)

theorem readsWithin (n : Nat) : ReadsWithin n := by
  induction n with
  | zero =>
    refine ⟨?_, ?_, ?_⟩
    · intro v cs h hn
      obtain ⟨c, ds, rfl, -⟩ := h.exists_cons
      simp at hn
    · intro vs cs h hn
      cases h <;> simp at hn
    · intro ms cs h hn
      cases h <;> simp at hn
  | succ n ih => exact ⟨fun h hn _ => ih.value_succ h hn, ih.items_succ, ih.members_succ⟩

end ReadsWithin

/-! ## Whole texts -/

/-- The reader finds the value that a text stands for. -/
theorem parse_of_isText {text : String} {v : Value} (h : IsText v text.toList) :
    parse text = some v := by
  have hread : ∀ cs, IsText v cs → ∀ n, 2 * cs.length ≤ n →
      ∃ bs, parseValue n cs = some (v, bs) ∧ skipBlanks bs = [] := by
    rintro _ ⟨hb, hv, hb'⟩ n hn
    rename_i bs cs bs'
    simp only [List.length_append] at hn
    refine ⟨bs', ?_, skipBlanks_eq_nil hb'⟩
    rw [List.append_assoc, parseValue_append n hb]
    exact (readsWithin n).value hv (by omega) hb'.isDigit_head
  have hlength : 2 * text.toList.length ≤ 2 * text.length + 1 := by
    rw [String.length_toList]
    exact Nat.le_succ _
  obtain ⟨bs, hparse, hend⟩ := hread _ h _ hlength
  rw [parse, hparse]
  exact if_pos hend

theorem IsText.unique {v v' : Value} {cs : List Char} (h : IsText v cs) (h' : IsText v' cs) :
    v = v' := by
  have htext := String.toList_ofList (l := cs)
  rw [← htext] at h h'
  exact Option.some.inj ((parse_of_isText h).symm.trans (parse_of_isText h'))

/-- What is printed is read back. -/
theorem parse_render (v : Value) : parse v.render = some v := parse_of_isText (isText_render v)

end Squeeze.Json
