import Squeeze.Proofs.Literals
import Squeeze.Script.Point

/-!
# Literals that break off

A scan that does not find the end of a literal stops at the line end, or at the end of the text. What
it then reports is what the grammar says is open there: `Body.Hangs` follows the scan from one kind of
body to the next, and `Body.Breaks` says in the terms of the grammar where that leads.
-/

namespace Squeeze

namespace Body

/-- In a body of this kind the text is passed over and does not close the literal; `what` is open at
its end. -/
inductive Hangs : Body → Unterminated → List Char → Prop
  /-- Nothing is passed over. -/
  | ended (b : Body) : Hangs b b.unterminated []
  /-- A backslash comes last. -/
  | backslash {b : Body} {c : Char} (hr : b.role c = .escape) : Hangs b b.unterminated [c]
  /-- A character that stands for itself. -/
  | plain {b next : Body} {what : Unterminated} {c : Char} {cs : List Char}
      (hr : b.role c = .plain next) (hc : c ≠ '\n') (h : Hangs next what cs) :
      Hangs b what (c :: cs)
  /-- A backslash and the character after it. -/
  | escaped {b : Body} {what : Unterminated} {c d : Char} {cs : List Char}
      (hr : b.role c = .escape) (hd : d ≠ '\n') (h : Hangs b what cs) :
      Hangs b what (c :: d :: cs)

theorem Hangs.newline_not_mem {b : Body} {what : Unterminated} {cs : List Char}
    (h : b.Hangs what cs) : '\n' ∉ cs := by
  induction h with
  | ended b => exact List.not_mem_nil
  | backslash hr =>
    obtain rfl := char_of_escape hr
    decide
  | plain _ hc _ ih => simp [Ne.symm hc, ih]
  | escaped hr hd _ ih =>
    obtain rfl := char_of_escape hr
    simp [Ne.symm hd, ih]

end Body

section Scan

variable {b : Body} {what : Unterminated}

/-- A scan that does not find the end of a literal stops where the line ends, or the text. -/
theorem hangs_of_scan {cs copied rest : List Placed} {d : Option Placed} (hcan : IsCanonical cs)
    (h : scan b cs = ⟨copied, .broken what d, rest⟩) :
    b.Hangs what (spelling copied) ∧ ∃ stop, cs = copied ++ stop ∧ d = stop.head? ∧
      ∀ c ∈ stop.head?, c.char = '\n' := by
  fun_induction scan b cs generalizing copied with
  | case1 b =>
    cases h
    exact ⟨.ended b, [], rfl, rfl, by simp⟩
  | case2 b c cs hc =>
    cases h
    have hline : c.char = '\n' := hcan c (List.mem_cons_self ..) hc
    exact ⟨.ended b, c :: rest, rfl, rfl, by simpa using hline⟩
  | case3 => cases h
  | case4 b c cs hc next hr ih =>
    obtain ⟨copied', rfl, hs⟩ := Scan.copying_eq_iff.mp h
    have hline : c.char ≠ '\n' := fun hline => hc (Placed.isTerminator_of_char hline)
    obtain ⟨hh, stop, rfl, hstop⟩ := ih (hcan.subset (List.subset_cons_self ..)) hs
    exact ⟨.plain hr hline hh, stop, rfl, hstop⟩
  | case5 b c hc hr =>
    cases h
    exact ⟨.backslash hr, [], rfl, rfl, by simp⟩
  | case6 b c hc hr e cs he =>
    cases h
    have hline : e.char = '\n' := hcan e (by simp) he
    exact ⟨.backslash hr, e :: rest, rfl, rfl, by simpa using hline⟩
  | case7 b c hc hr e cs he ih =>
    obtain ⟨copied', rfl, hs⟩ := Scan.copying_eq_iff.mp h
    have hline : e.char ≠ '\n' := fun hline => he (Placed.isTerminator_of_char hline)
    obtain ⟨hh, stop, rfl, hstop⟩ := ih (hcan.subset fun x hx => by simp [hx]) hs
    exact ⟨.escaped hr hline hh, stop, rfl, hstop⟩

theorem scan_stop {stop : List Placed} (hstop : ∀ c ∈ stop.head?, c.char = '\n') (b : Body) :
    scan b stop = ⟨[], .broken b.unterminated stop.head?, stop.tail⟩ := by
  rcases stop with _ | ⟨c, stop⟩
  · rfl
  · have hc := Placed.isTerminator_of_char (hstop c rfl)
    simp [scan.eq_def, hc]

theorem scan_plain {next : Body} {c : Placed} (hc : c.isTerminator = false)
    (hr : b.role c.char = .plain next) (cs : List Placed) :
    scan b (c :: cs) = (scan next cs).copying [c] := by
  simp [scan.eq_def b, hc, hr]

theorem isTerminator_of_escape {c : Placed} (hr : b.role c.char = .escape) :
    c.isTerminator = false := by
  rw [Placed.isTerminator, Body.char_of_escape hr]
  rfl

theorem isTerminator_of_ne {c : Placed} {cs : List Placed} (hcan : IsCanonical cs) (hc : c ∈ cs)
    (hline : c.char ≠ '\n') : c.isTerminator = false := by
  rw [Bool.eq_false_iff]
  exact fun ht => hline (hcan c hc ht)

/-- Where nothing closes a literal before the line ends, a scan stops there. -/
theorem scan_of_hangs {cs : List Char} {copied stop : List Placed} (h : b.Hangs what cs)
    (hcs : spelling copied = cs) (hcan : IsCanonical copied)
    (hstop : ∀ c ∈ stop.head?, c.char = '\n') :
    scan b (copied ++ stop) = ⟨copied, .broken what stop.head?, stop.tail⟩ := by
  induction h generalizing copied with
  | ended b =>
    obtain rfl : copied = [] := List.map_eq_nil_iff.mp hcs
    exact scan_stop hstop b
  | @backslash b c hr =>
    obtain ⟨c, rfl, rfl⟩ := List.map_eq_singleton_iff.mp hcs
    have hc := isTerminator_of_escape hr
    rcases stop with _ | ⟨d, stop⟩
    · simp [scan, hc, hr]
    · have hd := Placed.isTerminator_of_char (hstop d rfl)
      simp [scan, hc, hr, hd]
  | @plain b next what c cs hr hline h ih =>
    obtain ⟨c, copied, rfl, rfl, hrest⟩ := List.map_eq_cons_iff.mp hcs
    have hc := isTerminator_of_ne hcan (List.mem_cons_self ..) hline
    rw [List.cons_append, scan_plain hc hr, ih hrest (hcan.subset (List.subset_cons_self ..))]
    rfl
  | @escaped b what c d cs hr hline h ih =>
    obtain ⟨c, rest, rfl, rfl, hrest⟩ := List.map_eq_cons_iff.mp hcs
    obtain ⟨d, copied, rfl, rfl, hrest'⟩ := List.map_eq_cons_iff.mp hrest
    have hc := isTerminator_of_escape hr
    have hd := isTerminator_of_ne hcan (by simp) hline
    have hscan : scan b (c :: d :: (copied ++ stop)) =
        (scan b (copied ++ stop)).copying [c, d] := by
      simp [scan, hc, hr, hd]
    rw [List.cons_append, List.cons_append, hscan,
      ih hrest' (hcan.subset fun x hx => by simp [hx])]
    rfl

end Scan

/-! ## In the terms of the grammar -/

/-- What may have been passed over in a regular expression, outside its character classes at first, when
the literal breaks off. -/
def BreaksRegex (what : Unterminated) (cs : List Char) : Prop :=
  (what = .regex ∧ BreaksOff RegexBody cs) ∨
    (what = .regexClass ∧ ∃ before inside, cs = before ++ '[' :: inside ∧ RegexBody before ∧
      BreaksOff (Enclosed ']') inside)

/-- What may have been passed over in a body of this kind when the literal breaks off. -/
def Body.Breaks : Body → Unterminated → List Char → Prop
  | .string quote, what, cs => what = .string ∧ BreaksOff (Enclosed quote) cs
  | .regex, what, cs => BreaksRegex what cs
  | .regexClass, what, cs =>
    (what = .regexClass ∧ BreaksOff (Enclosed ']') cs) ∨
      ∃ inside rest, cs = inside ++ ']' :: rest ∧ Enclosed ']' inside ∧ BreaksRegex what rest

section Breaks

variable {what : Unterminated} {cs : List Char}

theorem BreaksOff.append {inside : List Char → Prop} (before : List Char)
    (hin : ∀ cs, inside cs → inside (before ++ cs)) (h : BreaksOff inside cs) :
    BreaksOff inside (before ++ cs) := by
  rcases h with h | ⟨ds, rfl, h⟩
  · exact Or.inl (hin cs h)
  · exact Or.inr ⟨before ++ ds, (List.append_assoc ..).symm, hin ds h⟩

theorem BreaksRegex.append (before : List Char)
    (hin : ∀ cs, RegexBody cs → RegexBody (before ++ cs)) (h : BreaksRegex what cs) :
    BreaksRegex what (before ++ cs) := by
  rcases h with ⟨rfl, h⟩ | ⟨rfl, body, inside, rfl, hb, h⟩
  · exact Or.inl ⟨rfl, h.append before hin⟩
  · exact Or.inr ⟨rfl, before ++ body, inside, (List.append_assoc ..).symm, hin body hb, h⟩

theorem Body.breaks_of_nil (b : Body) {inside : List Char} (h : BreaksOff (fun cs => cs = []) inside) :
    b.Breaks b.unterminated inside := by
  have hoff : ∀ p : List Char → Prop, p [] → BreaksOff p inside := by
    intro p hp
    rcases h with rfl | ⟨ds, rfl, rfl⟩
    · exact Or.inl hp
    · exact Or.inr ⟨[], rfl, hp⟩
  cases b with
  | string quote => exact ⟨rfl, hoff _ .nil⟩
  | regex => exact Or.inl ⟨rfl, hoff _ .nil⟩
  | regexClass => exact Or.inl ⟨rfl, hoff _ .nil⟩

/-- A character that stands for itself comes before whatever breaks off after it. -/
theorem Body.Breaks.plain {b next : Body} {c : Char} (hr : b.role c = .plain next) (hc : c ≠ '\n')
    (h : next.Breaks what cs) : b.Breaks what (c :: cs) := by
  cases b with
  | string quote =>
    obtain ⟨h1, h2, rfl⟩ : c ≠ quote ∧ c ≠ '\\' ∧ next = .string quote := by grind [role]
    obtain ⟨hw, h⟩ := h
    exact ⟨hw, h.append [c] fun _ => .plain h1 h2 hc⟩
  | regex =>
    by_cases hclass : c = '['
    · subst hclass
      obtain rfl : next = .regexClass := by grind [role]
      rcases h with ⟨hw, h⟩ | ⟨inside, rest, rfl, hin, h⟩
      · exact Or.inr ⟨hw, [], cs, rfl, .nil, h⟩
      · have := h.append ('[' :: (inside ++ [']'])) fun cs hcs => by
          simpa using RegexBody.characterClass hin hcs
        simpa [Breaks] using this
    · obtain ⟨h1, h2, rfl⟩ : c ≠ '/' ∧ c ≠ '\\' ∧ next = .regex := by grind [role]
      exact BreaksRegex.append [c] (fun _ => .plain h1 hclass h2 hc) h
  | regexClass =>
    by_cases hclose : c = ']'
    · subst hclose
      obtain rfl : next = .regex := by grind [role]
      exact Or.inr ⟨[], cs, rfl, .nil, h⟩
    · obtain ⟨h2, rfl⟩ : c ≠ '\\' ∧ next = .regexClass := by grind [role]
      rcases h with ⟨hw, h⟩ | ⟨inside, rest, rfl, hin, h⟩
      · exact Or.inl ⟨hw, h.append [c] fun _ => .plain hclose h2 hc⟩
      · exact Or.inr ⟨c :: inside, rest, rfl, .plain hclose h2 hc hin, h⟩

/-- So does a backslash with the character after it. -/
theorem Body.Breaks.escaped {b : Body} {d : Char} (hd : d ≠ '\n') (h : b.Breaks what cs) :
    b.Breaks what ('\\' :: d :: cs) := by
  cases b with
  | string quote =>
    obtain ⟨hw, h⟩ := h
    exact ⟨hw, h.append ['\\', d] fun _ => .escaped hd⟩
  | regex => exact BreaksRegex.append ['\\', d] (fun _ => .escaped hd) h
  | regexClass =>
    rcases h with ⟨hw, h⟩ | ⟨inside, rest, rfl, hin, h⟩
    · exact Or.inl ⟨hw, h.append ['\\', d] fun _ => .escaped hd⟩
    · exact Or.inr ⟨'\\' :: d :: inside, rest, rfl, .escaped hd hin, h⟩

theorem Body.Hangs.breaks {b : Body} (h : b.Hangs what cs) : b.Breaks what cs := by
  induction h with
  | ended b => exact b.breaks_of_nil (Or.inl rfl)
  | @backslash b c hr =>
    obtain rfl := char_of_escape hr
    exact b.breaks_of_nil (Or.inr ⟨[], rfl, rfl⟩)
  | plain hr hc _ ih => exact ih.plain hr hc
  | escaped hr hd _ ih =>
    obtain rfl := char_of_escape hr
    exact ih.escaped hd

end Breaks

/-! ## And back -/

section Hangs

variable {b : Body} {what : Unterminated} {cs ds : List Char}

theorem Enclosed.hangs {close : Char} (h : Enclosed close cs)
    (hrole : ∀ c, c ≠ close → b.role c = if c = '\\' then .escape else .plain b)
    (hclose : close ≠ '\\') (hb : b.Hangs what ds) : b.Hangs what (cs ++ ds) := by
  induction h with
  | nil => exact hb
  | @plain c cs h1 h2 hc h ih =>
    have hr := hrole c h1
    rw [if_neg h2] at hr
    exact .plain hr hc ih
  | @escaped c cs hc h ih =>
    have hr := hrole '\\' (Ne.symm hclose)
    rw [if_pos rfl] at hr
    exact .escaped hr hc ih

theorem role_regexClass {c : Char} (hc : c ≠ ']') :
    Body.regexClass.role c = if c = '\\' then .escape else .plain .regexClass := by
  simp [Body.role, hc]

theorem role_string {quote c : Char} (hc : c ≠ quote) :
    (Body.string quote).role c = if c = '\\' then .escape else .plain (.string quote) := by
  simp [Body.role, hc]

theorem RegexBody.hangs (h : RegexBody cs) (hb : Body.regex.Hangs what ds) :
    Body.regex.Hangs what (cs ++ ds) := by
  induction h with
  | nil => exact hb
  | @plain c cs h1 h2 h3 hc h ih =>
    have hr : Body.regex.role c = .plain .regex := by simp [Body.role, h1, h2, h3]
    exact .plain hr hc ih
  | escaped hc h ih => exact .escaped (by decide) hc ih
  | @characterClass inside cs hin h ih =>
    have hclose : Body.regexClass.Hangs what (']' :: (cs ++ ds)) :=
      .plain (by decide) (by decide) ih
    have := hin.hangs (fun _ => role_regexClass) (by decide) hclose
    simpa using Body.Hangs.plain (by decide : Body.regex.role '[' = .plain .regexClass)
      (by decide) this

/-- What does not close a literal may be passed over, with or without a backslash behind it. -/
theorem BreaksOff.hangs {inside : List Char → Prop} (h : BreaksOff inside cs)
    (hr : b.role '\\' = .escape)
    (hin : ∀ cs ds, inside cs → b.Hangs b.unterminated ds → b.Hangs b.unterminated (cs ++ ds)) :
    b.Hangs b.unterminated cs := by
  rcases h with h | ⟨ds, rfl, h⟩
  · simpa using hin cs [] h (.ended b)
  · exact hin ds ['\\'] h (.backslash hr)

theorem hangs_string {quote : Char} (hq : quote ≠ '\\') (h : BreaksOff (Enclosed quote) cs) :
    (Body.string quote).Hangs .string cs :=
  BreaksOff.hangs h (by simp [Body.role, Ne.symm hq]) fun _ _ hcs hds =>
    hcs.hangs (fun _ => role_string) hq hds

theorem hangs_regex (h : BreaksOff RegexBody cs) : Body.regex.Hangs .regex cs :=
  BreaksOff.hangs h (by decide) fun _ _ hcs hds => hcs.hangs hds

theorem hangs_regexClass (h : BreaksOff (Enclosed ']') cs) : Body.regexClass.Hangs .regexClass cs :=
  BreaksOff.hangs h (by decide) fun _ _ hcs hds => hcs.hangs (fun _ => role_regexClass) (by decide) hds

theorem hangs_regex_of_class (h : RegexBody cs) (hd : BreaksOff (Enclosed ']') ds) :
    Body.regex.Hangs .regexClass (cs ++ '[' :: ds) :=
  h.hangs (.plain (by decide) (by decide) (hangs_regexClass hd))

end Hangs

end Squeeze
