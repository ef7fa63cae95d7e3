import Squeeze.Proofs.Written
import Squeeze.Text.Lines

/-!
# What is reported

A script that has a name is refused only for what is left open in it. The report is on the first thing
that is opened and never closed: all that comes before it can be read by the rules of the grammar.

A literal is reported on the line of its opener, since it had to be closed before that line ended. It
makes no difference whether the line ends there or the script does, nor whether the scan has already
looked at the character after it. A block comment could have been closed on any line, and is reported
on the last one.
-/

namespace Squeeze

/-! ## Lines -/

/-- A part of a placed text is placed too: it begins where the part before it ends. -/
theorem place_eq_append {p : Position} {cs : List Char} {xs ys : List Placed}
    (h : place p cs = xs ++ ys) :
    ys = place (p.advanceAll (spelling xs)) (spelling ys) ∧
      p.advanceAll cs = (p.advanceAll (spelling xs)).advanceAll (spelling ys) := by
  have hcs : cs = spelling xs ++ spelling ys := by
    rw [← spelling_append, ← h]
    exact (map_char_place p cs).symm
  rw [hcs, place_append] at h
  have hlen : (place p (spelling xs)).length = xs.length := by
    rw [← List.length_map (f := Placed.char), map_char_place]
    exact List.length_map _
  exact ⟨(List.append_inj_right h hlen).symm, by rw [hcs, Position.advanceAll_append]⟩

/-- The line that is reported when a literal that begins at `p` breaks off where its line ends. -/
theorem line_reportOn {p : Position} (line : List Placed) {rest : List Placed} (source : String)
    (what : Unterminated) (hplace : line ++ rest = place p (spelling (line ++ rest)))
    (hline : '\n' ∉ spelling line) :
    (reportOn source (p.advanceAll (spelling (line ++ rest))) (what, rest.head?)).line = p.line := by
  obtain ⟨hrest, hstop⟩ := place_eq_append hplace.symm
  have hq : (p.advanceAll (spelling line)).line = p.line := Position.line_advanceAll_of_not_mem hline
  rw [reportOn, hstop]
  rcases rest with _ | ⟨d, rest⟩
  · exact hq
  · have hd : d.origin = some (p.advanceAll (spelling line)) := by
      rw [spelling_cons, place_cons] at hrest
      rw [(List.cons.inj hrest).1]
    simp [hd, hq]

/-! ## Reports -/

/-- The line on which it is reported that something opened at `p` is left open. -/
def reportedLine (text : String) (what : Unterminated) (p : Position) : Nat :=
  if what = .comment then 1 + lineEnds text.toList else p.line

theorem line_stop (text : String) :
    (Position.start.advanceAll (canonical text.toList)).line = 1 + lineEnds text.toList := by
  rw [Position.line_advanceAll, count_canonical]
  rfl

theorem Point.Unclosed.head?_ahead {s : Point} {what : Unterminated} {opener : Placed}
    (h : s.Unclosed what opener) : s.ahead.head? = some opener := by
  cases h <;> rfl

/-- Where something is open at a point of the text, the report is on that. -/
theorem Point.Unclosed.report_eq {s : Point} {what : Unterminated} {opener : Placed} {text : String}
    (h : s.Unclosed what opener) (hsuffix : s.ahead <:+ placedText text) (source : String) :
    ∃ p b, opener.origin = some p ∧ s.tokens = .error b ∧
      reportOn source (Position.start.advanceAll (canonical text.toList)) b =
        ⟨what, reportedLine text what p, source⟩ := by
  have hcan : IsCanonical s.ahead := (isCanonical_placedText text).subset hsuffix.subset
  obtain ⟨before, hbefore⟩ := hsuffix
  obtain ⟨hplace, hstop⟩ := place_eq_append hbefore.symm
  generalize Position.start.advanceAll (spelling before) = p at hplace hstop
  have horigin : opener.origin = some p := by
    have hhead := h.head?_ahead
    rcases hahead : s.ahead with _ | ⟨c, cs⟩ <;> rw [hahead] at hhead hplace
    · cases hhead
    · obtain rfl : c = opener := Option.some.inj hhead
      rw [spelling_cons, place_cons] at hplace
      rw [(List.cons.inj hplace).1]
  rcases h.tokens_eq hcan with ⟨rfl, htokens⟩ | ⟨hwhat, line, rest, hahead, hline, htokens⟩
  · refine ⟨p, _, horigin, htokens, ?_⟩
    rw [reportedLine, if_pos rfl, ← line_stop]
    rfl
  · refine ⟨p, _, horigin, htokens, ?_⟩
    have hreport := line_reportOn (opener :: line) source what (hahead ▸ hplace) hline
    rw [reportedLine, if_neg hwhat, hstop, hahead, ← hreport]
    rfl

/-- What is left open in a script is reported. -/
theorem minify_of_leftOpen (config : Config) {source text : String} {what : Unterminated}
    {opener : Placed} (hname : config.inputName = some source)
    (h : LeftOpen (placedText text) what opener) :
    ∃ p, opener.origin = some p ∧
      minify config text = .error (.scan ⟨what, reportedLine text what p, source⟩) := by
  obtain ⟨ts, s, hr, hopen⟩ := h
  obtain ⟨p, b, horigin, hb, hreport⟩ := hopen.report_eq hr.suffix source
  have htokens : tokens (placedText text) = .error b := by
    have he := hr.tokens_eq (isCanonical_placedText text)
    rw [hb] at he
    exact he
  refine ⟨p, horigin, ?_⟩
  rw [minify, hname]
  dsimp only
  rw [squeeze_eq, htokens, ← hreport]
  rfl

/-- A script that has a name has a short form, or something is left open in it. -/
theorem exists_minify_or_leftOpen (config : Config) {source : String} (text : String)
    (hname : config.inputName = some source) :
    (∃ m, minify config text = .ok m) ∨
      ∃ what opener, LeftOpen (placedText text) what opener := by
  obtain ⟨ts, s, hr, hend | ⟨what, opener, hopen⟩⟩ :=
    Point.exists_reads (s := .start (placedText text)) (isCanonical_placedText text)
  · have hdiv : Divided none [] (placedText text) ts := Point.ReadsAll.divided ⟨s, hr, hend⟩
    exact Or.inl ⟨_, minify_eq_ok_iff.mpr ⟨source, ts, hname, hdiv, rfl⟩⟩
  · exact Or.inr ⟨what, opener, ts, s, hr, hopen⟩

/-- Where a script with a name is refused, it is for what is left open in it. -/
theorem exists_scan_of_error {config : Config} {source text : String} {e : MinifyError}
    (hname : config.inputName = some source) (h : minify config text = .error e) :
    ∃ e', e = .scan e' := by
  rcases exists_minify_or_leftOpen config text hname with ⟨m, hm⟩ | ⟨what, opener, hopen⟩
  · rw [hm] at h
    cases h
  · obtain ⟨p, -, he⟩ := minify_of_leftOpen config hname hopen
    rw [he] at h
    cases h
    exact ⟨_, rfl⟩

/-- A script with a name is refused exactly if something is left open in it. The report is on the first
thing that is: it says what it is, on which line it was opened (for a comment, how many lines the
script has), and in which script. -/
theorem minify_eq_scan_error_iff (config : Config) (source text : String) (e : ScanError) :
    minify { config with inputName := some source } text = .error (.scan e) ↔
      ∃ what opener p, LeftOpen (placedText text) what opener ∧ opener.origin = some p ∧
        e.what = what ∧ e.source = source ∧
        e.line = if what = .comment then 1 + lineEnds text.toList else p.line := by
  constructor
  · intro he
    rcases exists_minify_or_leftOpen { config with inputName := some source } text rfl with
      ⟨m, hm⟩ | ⟨what, opener, h⟩
    · rw [hm] at he
      cases he
    · obtain ⟨p, horigin, hm⟩ := minify_of_leftOpen { config with inputName := some source } rfl h
      rw [hm] at he
      cases he
      exact ⟨what, opener, p, h, horigin, rfl, rfl, rfl⟩
  · rintro ⟨what, opener, p, h, horigin, rfl, rfl, hline⟩
    obtain ⟨q, hq, hm⟩ := minify_of_leftOpen { config with inputName := some e.source } rfl h
    rw [horigin] at hq
    cases hq
    rw [hm, reportedLine, ← hline]

/-- The class is open where the line ends, although a bracket and a slash come on the next one. -/
example :
    (match minify ⟨some "a.js", none, none⟩ "a\r\nb = /[c\n]/" with
      | .error (.scan e) => some e
      | _ => none) = some ⟨.regexClass, 2, "a.js"⟩ := by
  decide +kernel

end Squeeze
