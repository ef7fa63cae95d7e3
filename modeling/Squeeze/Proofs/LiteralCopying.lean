import Squeeze.Proofs.SessionStates
import Squeeze.Proofs.Written

/-!
# Copying literals

What a session does with a literal, in terms of the grammar. If what is still to come begins with the
inside of a literal and its closing character, the inside is written, the closing character is handed out
and the reader goes on behind it. There is one way at most in which it can begin like that. If it does
not, the literal breaks off where the line ends, or the text: all that comes before is written, and the
reader goes on behind the line end (`Session.CopiesLiteral`).

This holds in whatever state the session is, with or without a parked character and with whatever output.
A string writes its opening quote first. A regular expression has been opened before it is copied, so
something has been written, and blanks at its beginning are not taken for those at the beginning of the
output.
-/

namespace Squeeze

/-! ## Where a literal ends -/

/-- The characters `cs` begin with the inside of a literal, of which `inside` says what it may be, and the
character that closes it. -/
structure Closes (inside : List Char → Prop) (closer : Char) (cs body : List Placed) (close : Placed)
    (rest : List Placed) : Prop where
  eq_append : cs = body ++ close :: rest
  fits : inside (spelling body)
  char_eq : close.char = closer

section Closes

variable {b : Body} {cs : List Placed}

/-- A scan ends with the closing character exactly there. -/
theorem closes_iff {body rest : List Placed} {close : Placed} (hb : b.Closable)
    (hcan : IsCanonical cs) :
    Closes b.Fits b.closer cs body close rest ↔ scan b cs = ⟨body, .closed close, rest⟩ := by
  rw [scan_eq_closed_iff hb hcan]
  constructor
  · intro h
    exact ⟨h.eq_append, h.fits, h.char_eq⟩
  · rintro ⟨heq, hfits, hchar⟩
    exact ⟨heq, hfits, hchar⟩

/-- Where there is no such end, a scan stops at the end of the line. -/
theorem exists_hangs_of_not_closes (hb : b.Closable) (hcan : IsCanonical cs)
    (hnone : ¬ ∃ body close rest, Closes b.Fits b.closer cs body close rest) :
    ∃ line rest what, cs = line ++ rest ∧ (∀ c ∈ rest.head?, c.char = '\n') ∧
      b.Hangs what (spelling line) ∧ scan b cs = ⟨line, .broken what rest.head?, rest.tail⟩ := by
  rcases hs : scan b cs with ⟨copied, d | ⟨what, d⟩, after⟩
  · exact absurd ⟨copied, d, after, (closes_iff hb hcan).mpr hs⟩ hnone
  · obtain ⟨hh, rest, rfl, -, hend⟩ := hangs_of_scan hcan hs
    have hscan := scan_of_hangs hh rfl (hcan.subset (List.subset_append_left ..)) hend
    exact ⟨copied, rest, what, rfl, hend, hh, hs.symm.trans hscan⟩

end Closes

/-- A text is passed over in a body of a given kind in one way only. -/
theorem Body.Hangs.unique {b : Body} {what what' : Unterminated} {cs : List Char}
    (h : b.Hangs what cs) (h' : b.Hangs what' cs) : what = what' := by
  induction h with
  | ended b =>
    cases h'
    rfl
  | backslash hr =>
    cases h' with
    | backslash => rfl
    | plain hr' => simp [hr] at hr'
  | plain hr _ _ ih =>
    cases h' with
    | backslash hr' => simp [hr] at hr'
    | plain hr' _ h' =>
      rw [hr] at hr'
      cases hr'
      exact ih h'
    | escaped hr' => simp [hr] at hr'
  | escaped hr _ _ ih =>
    cases h' with
    | plain hr' => simp [hr] at hr'
    | escaped _ _ h' => exact ih h'

/-- At the end of what has been passed over of a regular expression, a character class is open. -/
def InClass (cs : List Char) : Prop :=
  ∃ before inside, cs = before ++ '[' :: inside ∧ RegexBody before ∧
    BreaksOff (Enclosed ']') inside

/-- What is left open where a regular expression breaks off after `cs`. -/
def RegexLeaves (what : Unterminated) (cs : List Char) : Prop :=
  (what = .regexClass ∧ InClass cs) ∨ (what = .regex ∧ ¬ InClass cs)

theorem Body.Hangs.regexLeaves {what : Unterminated} {cs : List Char}
    (h : Body.regex.Hangs what cs) : RegexLeaves what cs := by
  rcases h.breaks with ⟨rfl, -⟩ | ⟨rfl, before, inside, rfl, hbefore, hinside⟩
  · refine Or.inr ⟨rfl, ?_⟩
    rintro ⟨before, inside, rfl, hbefore, hinside⟩
    have hclass := hangs_regex_of_class hbefore hinside
    cases h.unique hclass
  · exact Or.inl ⟨rfl, before, inside, rfl, hbefore, hinside⟩

theorem Body.Hangs.string_eq {quote : Char} {what : Unterminated} {cs : List Char}
    (h : (Body.string quote).Hangs what cs) : what = .string := h.breaks.1

namespace Session

/-! ## Copying in a session -/

/-- The step that gave `result` has copied a literal: the session `s` wrote `opening` and went on to the
end of the literal, of which `inside` says what may be in it. Where it breaks off after some characters,
`leaves` says what is left open. -/
structure CopiesLiteral (s : Session) (opening : List Placed) (inside : List Char → Prop)
    (closer : Char) (leaves : Unterminated → List Char → Prop) (result : Answer × Session) :
    Prop where
  /-- The literal is closed exactly if the stream begins with such a literal. -/
  succeeds_iff :
    (∃ close code s', result = (.scanned (.ok (some close)) code, s')) ↔
      ∃ body close rest, Closes inside closer s.reader.stream body close rest
  /-- It does so in one way at most. -/
  unique : ∀ {body body' close close' rest rest'},
    Closes inside closer s.reader.stream body close rest →
      Closes inside closer s.reader.stream body' close' rest' →
        body = body' ∧ close = close' ∧ rest = rest'
  /-- The inside is written then, and the closing character is not. -/
  closed : ∀ {body close rest}, Closes inside closer s.reader.stream body close rest →
    result = (.scanned (.ok (some close)) (s.output.append (opening ++ body)).code,
      ⟨s.reader.resume rest, s.output.append (opening ++ body), some close⟩)
  /-- Otherwise the rest of the line is written, and what ends the line is taken. -/
  broken : (¬ ∃ body close rest, Closes inside closer s.reader.stream body close rest) →
    ∃ line rest what, s.reader.stream = line ++ rest ∧ '\n' ∉ spelling line ∧
      (∀ c ∈ rest.head?, c.char = '\n') ∧ leaves what (spelling line) ∧
      result =
        (.scanned (.error ((s.reader.resume rest.tail).fault what rest.head?))
            (s.output.append (opening ++ line)).code,
          ⟨s.reader.resume rest.tail, s.output.append (opening ++ line), s.last⟩)

section Copy

variable {s : Session} {opening copied rest : List Placed} {b : Body}

theorem copyLiteral_closed {close : Placed}
    (hw : s.output.code.isEmpty = false ∨ ∀ c ∈ (opening ++ copied).head?, c.isBlank = false)
    (h : scan b s.reader.stream = ⟨copied, .closed close, rest⟩) :
    s.copyLiteral opening b =
      (.scanned (.ok (some close)) (s.output.append (opening ++ copied)).code,
        ⟨s.reader.resume rest, s.output.append (opening ++ copied), some close⟩) := by
  simp only [copyLiteral, Reader.copyBody, h, Output.emitAll_eq_append hw]

theorem copyLiteral_broken {what : Unterminated} {d : Option Placed}
    (hw : s.output.code.isEmpty = false ∨ ∀ c ∈ (opening ++ copied).head?, c.isBlank = false)
    (h : scan b s.reader.stream = ⟨copied, .broken what d, rest⟩) :
    s.copyLiteral opening b =
      (.scanned (.error ((s.reader.resume rest).fault what d))
          (s.output.append (opening ++ copied)).code,
        ⟨s.reader.resume rest, s.output.append (opening ++ copied), s.last⟩) := by
  simp only [copyLiteral, Reader.copyBody, h, Output.emitAll_eq_append hw]

/-- Whatever literal it is, a session copies it by the rules of the grammar. -/
theorem copiesLiteral (opening : List Placed) (hb : b.Closable)
    (hcan : IsCanonical s.reader.stream)
    (hw : s.output.code.isEmpty = false ∨ ∃ c ∈ opening.head?, c.isBlank = false) :
    s.CopiesLiteral opening b.Fits b.closer b.Hangs (s.copyLiteral opening b) := by
  have hw : ∀ copied, s.output.code.isEmpty = false ∨
      ∀ c ∈ (opening ++ copied).head?, c.isBlank = false := by
    intro copied
    refine hw.imp_right ?_
    rintro ⟨c, hc, hblank⟩ d hd
    rw [Option.mem_def] at hc hd
    rw [List.head?_append, hc] at hd
    cases hd
    exact hblank
  exact
    { succeeds_iff := by
        constructor
        · rintro ⟨close, code, s', hr⟩
          rcases hs : scan b s.reader.stream with ⟨copied, d | ⟨what, d⟩, rest⟩
          · exact ⟨copied, d, rest, (closes_iff hb hcan).mpr hs⟩
          · rw [copyLiteral_broken (hw copied) hs] at hr
            cases hr
        · rintro ⟨body, close, rest, h⟩
          exact ⟨_, _, _, copyLiteral_closed (hw body) ((closes_iff hb hcan).mp h)⟩
      unique := by
        intro body body' close close' rest rest' h h'
        rw [closes_iff hb hcan] at h h'
        cases h.symm.trans h'
        exact ⟨rfl, rfl, rfl⟩
      closed := by
        intro body close rest h
        exact copyLiteral_closed (hw body) ((closes_iff hb hcan).mp h)
      broken := by
        intro hnone
        obtain ⟨line, rest, what, heq, hend, hh, hs⟩ := exists_hangs_of_not_closes hb hcan hnone
        exact ⟨line, rest, what, heq, hh.newline_not_mem, hend, hh,
          copyLiteral_broken (hw line) hs⟩ }

theorem CopiesLiteral.mono {inside : List Char → Prop} {closer : Char}
    {leaves leaves' : Unterminated → List Char → Prop} {result : Answer × Session}
    (h : s.CopiesLiteral opening inside closer leaves result)
    (hleaves : ∀ what cs, leaves what cs → leaves' what cs) :
    s.CopiesLiteral opening inside closer leaves' result where
  succeeds_iff := h.succeeds_iff
  unique := h.unique
  closed := h.closed
  broken hnone := by
    obtain ⟨line, rest, what, heq, hline, hend, hwhat, hr⟩ := h.broken hnone
    exact ⟨line, rest, what, heq, hline, hend, hleaves what _ hwhat, hr⟩

end Copy

/-- A regular expression is copied once something has been written. Where it breaks off, what is left open
is the character class at that point, or else the regular expression. -/
theorem copiesLiteral_scanRegex {s : Session} (hcan : IsCanonical s.reader.stream)
    (hcode : s.output.code.isEmpty = false) :
    s.CopiesLiteral [] RegexBody '/' RegexLeaves (s.step .scanRegex) := by
  have hcopies := copiesLiteral [] Body.closable_regex hcan (Or.inl hcode)
  exact hcopies.mono fun _ _ h => h.regexLeaves

/-- A slash and an escaped bracket in a class, with the first character of the body parked. -/
theorem copiesLiteral_scanRegex_of_class :
    ∃ s : Session, s = ((ofText "a.js" "/[/\\]]é\\/ x/ y").run [.get, .emit .last, .peek]).2 ∧
      s.reader.lookahead.isSome ∧ IsCanonical s.reader.stream ∧
      s.output.code.isEmpty = false ∧
      s.CopiesLiteral [] RegexBody '/' RegexLeaves (s.step .scanRegex) ∧
      (s.step .scanRegex).2.output.code = "/[/\\]]é\\/ x" := by
  have hcan := isCanonical_run "a.js" "/[/\\]]é\\/ x/ y" [.get, .emit .last, .peek]
  exact ⟨_, rfl, by decide +kernel, hcan, by decide +kernel,
    copiesLiteral_scanRegex hcan (by decide +kernel), by decide +kernel⟩

/-- A string is copied whatever has been written, with the quote that opens it. -/
theorem copiesLiteral_scanString {s : Session} {x : Operand} {quote : Placed}
    (hx : s.resolve x = some quote) (hquote : quote.char = '\'' ∨ quote.char = '"')
    (hcan : IsCanonical s.reader.stream) :
    s.CopiesLiteral [quote] (Enclosed quote.char) quote.char (fun what _ => what = .string)
      (s.step (.scanString x)) := by
  have hclosable := Body.closable_string (isQuote_iff.mpr hquote)
  have hcopies := copiesLiteral [quote] hclosable hcan
    (Or.inr ⟨quote, rfl, Placed.isBlank_of_quote hquote⟩)
  have hstep : s.step (.scanString x) = s.copyLiteral [quote] (.string quote.char) := by
    simp only [step, hx]
  rw [hstep]
  exact hcopies.mono fun _ _ h => h.string_eq

/-- An escaped quote and an escaped backslash, after a step that parked a character. -/
theorem copiesLiteral_scanString_of_escapes :
    ∃ s : Session, s = ((ofText "a.js" "'\\'\\\\' x").run [.get, .peek]).2 ∧
      s.reader.lookahead.isSome ∧ s.output.code.isEmpty ∧
      s.resolve (.given (some ⟨'\'', some .start⟩)) = some ⟨'\'', some .start⟩ ∧
      IsCanonical s.reader.stream ∧
      s.CopiesLiteral [⟨'\'', some .start⟩] (Enclosed '\'') '\'' (fun what _ => what = .string)
        (s.step (.scanString (.given (some ⟨'\'', some .start⟩)))) ∧
      (s.step (.scanString (.given (some ⟨'\'', some .start⟩)))).2.output.code = "'\\'\\\\" := by
  have hcan := isCanonical_run "a.js" "'\\'\\\\' x" [.get, .peek]
  exact ⟨_, rfl, by decide +kernel, by decide +kernel, rfl, hcan,
    copiesLiteral_scanString rfl (Or.inl rfl) hcan, by decide +kernel⟩

/-- A string breaks off at a line end, even behind a backslash, and what comes after it is left. -/
example :
    let s := ofText "a.js" "'ab\\\r\nc'"
    let s' := (s.run [.get, .scanString .last]).2
    s'.output.code = "'ab\\" ∧ spelling s'.reader.stream = ['c', '\''] := by
  decide +kernel

end Session

end Squeeze
