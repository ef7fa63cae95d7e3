import Squeeze.Proofs.Failure
import Squeeze.Proofs.Placement

/-!
# Scripts on successive lines

A script may be put on the lines below another one. If nothing in the first one asks for a line end to
be kept and a regular expression can open behind it, each of the two is made short as if it were alone,
and the short forms are put together: the second one behind the first, with its mappings moved. A report
on the second script stays the same, but for the lines that come before.
-/

namespace Squeeze

/-! ## Layouts -/

/-- The character that the last of some tokens ends in. Before them stands a token that ends in
`previous`, if there is one. -/
def lastChar (previous : Option Char) : List Token → Option Char
  | [] => previous
  | t :: ts => lastChar (some t.last.char) ts

theorem lastChar_eq (previous : Option Char) (ts : List Token) :
    lastChar previous ts = (ts.getLast?.map fun t => t.last.char).or previous := by
  induction ts generalizing previous with
  | nil => rfl
  | cons t ts ih =>
    rw [lastChar, ih, List.getLast?_cons]
    cases ts.getLast? <;> rfl

theorem Point.Reads.previous_eq {s s' : Point} {ts : List Token} (h : s.Reads ts s') :
    s'.previous = lastChar s.previous ts := by
  induction h with
  | here s => rfl
  | onward h _ ih =>
    rw [ih]
    cases h <;> simp [lastChar, Token.last]

theorem layoutFrom_append (previous : Option Char) (ts us : List Token) :
    layoutFrom previous (ts ++ us) = layoutFrom previous ts ++ layoutFrom (lastChar previous ts) us := by
  induction ts generalizing previous with
  | nil => rfl
  | cons t ts ih => simp [layoutFrom, lastChar, ih]

section Below

variable (k : Nat)

theorem lastBreak_below (gap : List Piece) :
    lastBreak (gap.map (Piece.below k)) = (lastBreak gap).map (Piece.below k) := by
  simp [lastBreak, List.filter_map, Function.comp_def]

theorem Token.separator_below (t : Token) (p : Char) :
    (t.below k).separator p = (t.separator p).map (Piece.below k) := by
  have hb : hasBreak (t.below k).gap = hasBreak t.gap := hasBreak_below k t.gap
  have hw : (t.below k).wantsBreak = t.wantsBreak := rfl
  have hf : (t.below k).first.char = t.first.char := rfl
  rw [separator, separator, hb, hw, hf]
  split
  · split
    · exact lastBreak_below k t.gap
    · rfl
  · split
    · exact List.getLast?_map ..
    · rfl

theorem Token.last_below (t : Token) : (t.below k).last = t.last.below k := by
  simp [last, below, List.getLastD_eq_getLast?, List.getLast?_map]

/-- Lines that come before change nothing in a layout but the places of its characters. -/
theorem layoutFrom_below (previous : Option Char) (ts : List Token) :
    layoutFrom previous (ts.map (Token.below k)) =
      (layoutFrom previous ts).map (Piece.below k) := by
  induction ts generalizing previous with
  | nil => rfl
  | cons t ts ih =>
    have hlead : previous.bind (t.below k).separator =
        (previous.bind t.separator).map (Piece.below k) := by
      cases previous with
      | none => rfl
      | some p => exact t.separator_below k p
    have hchars : (t.below k).chars.map .read = (t.chars.map .read).map (Piece.below k) := by
      simp [Token.chars, Token.below, Piece.below, Function.comp_def]
    rw [List.map_cons, layoutFrom, layoutFrom, hlead, hchars, Token.last_below, ih,
      Placed.char_below, List.map_append, List.map_append]
    cases previous.bind t.separator <;> rfl

end Below

/-- No blank is kept before the first token of a script, nor behind a token that asks for none. -/
theorem layoutFrom_after {previous : Option Char} (h : ∀ t : Token, previous.bind t.separator = none)
    (gap : List Piece) (ts : List Token) :
    layoutFrom previous (ts.modifyHead (Token.after gap)) = layoutFrom none ts := by
  cases ts with
  | nil => rfl
  | cons t ts =>
    rw [List.modifyHead_cons, layoutFrom, layoutFrom, h]
    rfl

/-! ## Mappings -/

theorem mappingsAlong_append (p : Position) (cs ds : List Placed) :
    mappingsAlong p (cs ++ ds) =
      mappingsAlong p cs ++ mappingsAlong (p.advanceAll (spelling cs)) ds := by
  induction cs generalizing p with
  | nil => rfl
  | cons c cs ih => simp [mappingsAlong, ih]

/-- The mapping when the script comes below `k` lines, and its code behind some that ends at `e`. -/
def Mapping.moved (e : Position) (k : Nat) (m : Mapping) : Mapping :=
  ⟨e.behind m.generated, m.origin.below k⟩

theorem mappingsAlong_below (e : Position) (k : Nat) {p : Position} (hp : 1 ≤ p.line)
    (cs : List Placed) :
    mappingsAlong (e.behind p) (cs.map (Placed.below k)) =
      (mappingsAlong p cs).map (Mapping.moved e k) := by
  induction cs generalizing p with
  | nil => rfl
  | cons c cs ih =>
    have hmap : (c.below k).origin.toList.map (Mapping.mk (e.behind p)) =
        (c.origin.toList.map (Mapping.mk p)).map (Mapping.moved e k) := by
      rcases c with ⟨c, _ | q⟩ <;> rfl
    rw [List.map_cons, mappingsAlong, mappingsAlong, List.map_append, Placed.char_below,
      Position.advance_behind e hp, ih (Position.one_le_line_advance hp c.char), hmap]

theorem map_placed_below (k : Nat) (xs : List Piece) :
    (xs.map (Piece.below k)).map Piece.placed = (xs.map Piece.placed).map (Placed.below k) := by
  simp [Function.comp_def]

/-! ## Reading both scripts -/

section Reading

variable {x y : String} {ts us : List Token}

theorem getLast?_toList_line (x : String) : (x ++ "\n").toList.getLast? = some '\n' := by
  simp

theorem canonical_line (x : String) :
    canonical (x ++ "\n").toList = canonical x.toList ++ ['\n'] ∨
      canonical (x ++ "\n").toList = canonical x.toList ∧
        (canonical x.toList).getLast? = some '\n' := by
  rw [String.toList_append]
  exact canonical_concat_newline x.toList

theorem getLast?_canonical_line (x : String) :
    (canonical (x ++ "\n").toList).getLast? = some '\n' := by
  rcases canonical_line x with h | ⟨h, hlast⟩ <;> rw [h]
  · simp
  · exact hlast

/-- A second script begins with no part of a line end. -/
theorem line_cut (x : String) (ds : List Char) :
    (x ++ "\n").toList.getLast? = some '\r' → ds.head? ≠ some '\n' := by
  intro h
  rw [getLast?_toList_line] at h
  cases h

theorem reportedLine_append_line (x y : String) (what : Unterminated) (p : Position) :
    reportedLine (x ++ "\n" ++ y) what (p.below (lineEnds (x ++ "\n").toList)) =
      reportedLine y what p + lineEnds (x ++ "\n").toList := by
  rw [reportedLine, reportedLine, String.toList_append, lineEnds_append (line_cut x y.toList)]
  split
  · omega
  · rfl

/-- The second script keeps its characters, below the lines of the first one. -/
theorem placedText_append_line (x y : String) :
    placedText (x ++ "\n" ++ y) = placedText (x ++ "\n") ++
      (placedText y).map (Placed.below (lineEnds (x ++ "\n").toList)) := by
  have hend : Position.start.advanceAll (canonical (x ++ "\n").toList) =
      Position.start.below (lineEnds (x ++ "\n").toList) := by
    rw [Position.advanceAll_of_getLast? _ (getLast?_canonical_line x), count_canonical]
    rfl
  rw [placedText, String.toList_append, canonical_append (line_cut x y.toList), place_append, hend, place_below]
  rfl

/-- The line feed behind a script adds no token to it. -/
theorem readsAll_line (h : Divided none [] (placedText x) ts) :
    (Point.start (placedText (x ++ "\n"))).ReadsAll ts := by
  rcases canonical_line x with hc | ⟨hc, -⟩
  · obtain ⟨newline, hchar, hplaced⟩ : ∃ newline : Placed, newline.char = '\n' ∧
        placedText (x ++ "\n") = placedText x ++ [newline] :=
      ⟨_, rfl, by rw [placedText, hc, place_append]; rfl⟩
    obtain ⟨⟨previous, gap, ahead⟩, hr, hend⟩ := h.readsAll
    obtain rfl : ahead = [] := hend
    have hcut : LineEndsBetween (placedText x) [newline] := Or.inl (by simpa using hchar)
    have hlast : Point.ReadsAll ⟨previous, gap, [newline]⟩ [] :=
      Point.Passes.readsAll (.blank newline (Or.inr hchar)) ⟨_, .here _, rfl⟩
    rw [hplaced, ← List.append_nil ts]
    exact (hr.followedBy hcut).readsAll hlast
  · rw [placedText, hc]
    exact h.readsAll

/-- Behind a script whose last token lets a regular expression open, another one is read as it is by
itself. -/
theorem exists_reads_append_line {s : Point} (hx : Divided none [] (placedText x) ts)
    (hopen : ∀ gap, regexOpens (lastChar none ts) gap = true)
    (hy : (Point.start (placedText y)).Reads us s) :
    ∃ gap s', (Point.start (placedText (x ++ "\n" ++ y))).Reads
        (ts ++ (us.map (Token.below (lineEnds (x ++ "\n").toList))).modifyHead (Token.after gap)) s' ∧
      s'.ahead = s.ahead.map (Placed.below (lineEnds (x ++ "\n").toList)) ∧
      ∀ what opener, s.Unclosed what opener →
        s'.Unclosed what (opener.below (lineEnds (x ++ "\n").toList)) := by
  rw [placedText_append_line]
  generalize lineEnds (x ++ "\n").toList = k
  obtain ⟨⟨previous, gap, ahead⟩, hr, hend⟩ := readsAll_line hx
  obtain rfl : ahead = [] := hend
  obtain rfl : previous = lastChar none ts := hr.previous_eq
  have hcut : LineEndsBetween (placedText (x ++ "\n")) ((placedText y).map (Placed.below k)) := by
    right
    intro c hc
    have hlast := congrArg List.getLast? (map_char_place .start (canonical (x ++ "\n").toList))
    rw [List.getLast?_map, getLast?_canonical_line, ← placedText, Option.mem_def.mp hc] at hlast
    exact Option.some.inj hlast
  obtain ⟨s', hr', hahead, hunclosed⟩ := (Point.reads_below hy k).after rfl hopen gap
  refine ⟨gap, s', (hr.followedBy hcut).append ?_, hahead, ?_⟩
  · simpa [Point.followedBy, Point.after, Point.below, Point.start] using hr'
  · exact fun what opener h => hunclosed what _ (Point.unclosed_below h k)

end Reading

/-! ## Making both short -/

/-- Whether tokens end in a character outside literals that can not be the last one of a statement or of
an operand. There may be no tokens at all. -/
def EndsOpen (ts : List Token) : Prop :=
  ∀ t ∈ ts.getLast?, t.kind = .single ∧
    t.first.char ∈ [';', '{', '(', ',', '=', ':', '[', '!', '&', '|', '?']

instance (ts : List Token) : Decidable (EndsOpen ts) :=
  inferInstanceAs (Decidable (∀ t ∈ ts.getLast?, _))

/-- The same of the tokens of a text, if it has any. -/
def EndsOpenIn (text : String) : Prop :=
  ∀ ts, tokens (placedText text) = .ok ts → EndsOpen ts

instance (text : String) : Decidable (EndsOpenIn text) :=
  match h : tokens (placedText text) with
  | .ok ts => decidable_of_iff (EndsOpen ts)
    ⟨fun hopen us hus => by rw [h] at hus; cases hus; exact hopen, fun hopen => hopen ts h⟩
  | .error _ => .isTrue fun ts hts => by rw [h] at hts; cases hts

theorem Divided.others_eq_nil {previous : Option Char} {gap : List Piece} {cs : List Placed}
    {ts : List Token} (h : Divided previous gap cs ts) :
    ∀ t ∈ ts, t.kind = .single → t.others = [] := by
  induction h with
  | done => simp
  | blank _ _ _ ih => exact ih
  | lineComment _ _ _ _ ih => exact ih
  | blockComment _ _ _ ih => exact ih
  | string | regex | single => simp_all

/-- Behind such tokens a regular expression can open, and no blank is kept. -/
theorem EndsOpen.behind {cs : List Placed} {ts : List Token} (h : EndsOpen ts)
    (hdiv : Divided none [] cs ts) :
    (∀ gap, regexOpens (lastChar none ts) gap = true) ∧
      ∀ t : Token, (lastChar none ts).bind t.separator = none := by
  rw [lastChar_eq]
  rcases hlast : ts.getLast? with _ | t
  · exact ⟨fun _ => rfl, fun _ => rfl⟩
  · obtain ⟨hkind, hchar⟩ := h t hlast
    have hfirst : t.last.char = t.first.char := by
      rw [Token.last, hdiv.others_eq_nil t (List.mem_of_getLast? hlast) hkind]
      rfl
    have hall : ([';', '{', '(', ',', '=', ':', '[', '!', '&', '|', '?'].all
        fun c => awaitsOperand c && !endsStatement c && !isWord c) = true := by decide
    have hbehind := List.all_eq_true.mp hall _ hchar
    simp only [Bool.and_eq_true, Bool.not_eq_true'] at hbehind
    obtain ⟨⟨hawaits, hends⟩, hword⟩ := hbehind
    rw [Option.map_some, Option.some_or, hfirst]
    exact ⟨fun gap => by simp [regexOpens, hawaits],
      fun u => by simp [Token.separator, hends, hword]⟩

theorem Minified.ofTokens_append (config : Config) (source : String) {ts us vs : List Token} {k : Nat}
    (h : layoutFrom (lastChar none ts) vs = (layout us).map (Piece.below k)) :
    Minified.ofTokens config source (ts ++ vs) =
      { Minified.ofTokens config source ts with
        code := (Minified.ofTokens config source ts).code ++
          (Minified.ofTokens config source us).code
        mappings := (Minified.ofTokens config source ts).mappings ++
          (Minified.ofTokens config source us).mappings.map
            (.moved (Position.start.advanceAll (Minified.ofTokens config source ts).code.toList) k) } := by
  have hlayout : (layout (ts ++ vs)).map Piece.placed =
      (layout ts).map Piece.placed ++ ((layout us).map Piece.placed).map (Placed.below k) := by
    rw [layout, layoutFrom_append, h, List.map_append, map_placed_below]
    rfl
  have hmaps := mappingsAlong_below (p := .start)
    (Position.start.advanceAll (spelling ((layout ts).map Piece.placed))) k (Nat.le_refl 1)
    ((layout us).map Piece.placed)
  rw [Position.behind_start] at hmaps
  simp only [Minified.ofTokens, hlayout, spelling_append, spelling_below, String.ofList_append,
    mappingsAlong_append, hmaps, String.toList_ofList]

/-- A script may go on below one that ends open, and each of the two is made short as if it were alone.
The short forms are put together, the second one behind the first: its mappings lead to the lines of the
second script, and begin where the first code ends. If something is left open in the second script,
that is reported, on the line where it is now. -/
theorem minify_append_line {config : Config} {x : String} {m : Minified}
    (hx : minify config x = .ok m) (hlast : EndsOpenIn x) (y : String) :
    (∀ n, minify config y = .ok n →
      minify config (x ++ "\n" ++ y) = .ok { m with
        code := m.code ++ n.code
        mappings := m.mappings ++ n.mappings.map
          (.moved (Position.start.advanceAll m.code.toList) (lineEnds (x ++ "\n").toList)) }) ∧
    ∀ e, minify config y = .error (.scan e) →
      minify config (x ++ "\n" ++ y) =
        .error (.scan { e with line := e.line + lineEnds (x ++ "\n").toList }) := by
  obtain ⟨source, ts, hname, hdiv, rfl⟩ := minify_eq_ok_iff.mp hx
  have hopen := hlast ts (hdiv.tokensFrom_eq (isCanonical_placedText x))
  obtain ⟨hregex, hsep⟩ := hopen.behind hdiv
  constructor
  · intro n hn
    obtain ⟨source', us, hname', hdiv', rfl⟩ := minify_eq_ok_iff.mp hn
    obtain rfl : source' = source := Option.some.inj (hname'.symm.trans hname)
    obtain ⟨s, hr, hend⟩ := hdiv'.readsAll
    obtain ⟨gap, s', hr', hahead, -⟩ := exists_reads_append_line hdiv hregex hr
    rw [hend] at hahead
    refine minify_eq_ok_iff.mpr ⟨source', _, hname, Point.ReadsAll.divided ⟨s', hr', hahead⟩, ?_⟩
    refine (Minified.ofTokens_append config source' ?_).symm
    rw [layoutFrom_after hsep, layoutFrom_below]
    rfl
  · intro e he
    rcases exists_minify_or_leftOpen config y hname with ⟨n, hn⟩ | ⟨what, opener, us, s, hr, hleft⟩
    · rw [hn] at he
      cases he
    obtain ⟨gap, s', hr', -, hunclosed⟩ := exists_reads_append_line hdiv hregex hr
    obtain ⟨p, hp, hy⟩ := minify_of_leftOpen config hname ⟨us, s, hr, hleft⟩
    obtain ⟨q, hq, hz⟩ := minify_of_leftOpen config hname ⟨_, s', hr', hunclosed what opener hleft⟩
    rw [hy] at he
    cases he
    obtain rfl : q = p.below (lineEnds (x ++ "\n").toList) := by
      rw [Placed.below, hp] at hq
      exact (Option.some.inj hq).symm
    rw [hz, reportedLine_append_line]

/-- The carriage return at the end of the first script and the line feed behind it are one line end. -/
theorem minify_append_line_of_comment :
    ∃ m n, minify ⟨some "a.js", none, none⟩ "f( // g\r" = .ok m ∧
      minify ⟨some "a.js", none, none⟩ "/h/ ;i\nj" = .ok n ∧
      minify ⟨some "a.js", none, none⟩ ("f( // g\r" ++ "\n" ++ "/h/ ;i\nj") = .ok { m with
        code := m.code ++ n.code
        mappings := m.mappings ++ n.mappings.map
          (.moved (Position.start.advanceAll m.code.toList) 1) } ∧
      minify ⟨some "a.js", none, none⟩ ("f( // g\r" ++ "\n" ++ "/[") =
        .error (.scan ⟨.regexClass, 2, "a.js"⟩) := by
  have hlast : EndsOpenIn "f( // g\r" := by decide +kernel
  have hx : (minify ⟨some "a.js", none, none⟩ "f( // g\r").toOption.map Minified.code =
      some "f(" := by decide +kernel
  have hy : (minify ⟨some "a.js", none, none⟩ "/h/ ;i\nj").toOption.map Minified.code =
      some "/h/;i\nj" := by decide +kernel
  have hz : (match minify ⟨some "a.js", none, none⟩ "/[" with
      | .error (.scan e) => some e
      | _ => none) = some ⟨.regexClass, 1, "a.js"⟩ := by decide +kernel
  obtain ⟨m, hm, -⟩ := exists_of_toOption_eq_some hx
  obtain ⟨n, hn, -⟩ := exists_of_toOption_eq_some hy
  refine ⟨m, n, hm, hn, (minify_append_line hm hlast _).1 n hn, ?_⟩
  split at hz
  · rename_i e he
    cases hz
    exact (minify_append_line hm hlast _).2 _ he
  · cases hz

end Squeeze
