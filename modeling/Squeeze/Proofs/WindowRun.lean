import Squeeze.Proofs.WindowStep
import Squeeze.Script.Layout

/-!
# The window lays out the tokens

The window never sees a token. It writes one character while it looks at the next one, and drops or
keeps a blank by its two neighbours in view. Still, what it writes is the layout of the tokens, for
every script (`squeeze_eq`).

The link is `Holds`. It says which current characters can be in view after a token and some blanks,
and what the output is to be at that point. A blank that comes into view keeps it (`Holds.blank`);
when a token opens, it tells what is written before that token (`Holds.separator`, `Holds.emit_eq`)
and what a slash means (`Holds.regexOpens_eq`).
-/

namespace Squeeze

/-! ## Blanks that are skipped -/

/-- Whether the blank `x` is skipped while the character `p` is current. -/
def Skipped (p : Char) (x : Piece) : Prop :=
  x.placed.char = ' ' ∧ isWord p = false ∨ x.placed.char = '\n' ∧ endsStatement p = false

section Skipped

variable {p : Char} {gap : List Piece}

theorem mem_append_skipped {x : Piece} (hg : ∀ y ∈ gap, Skipped p y) (hx : Skipped p x) :
    ∀ y ∈ gap ++ [x], Skipped p y := by
  intro y hy
  rcases List.mem_append.mp hy with hy | hy
  · exact hg y hy
  · rw [List.mem_singleton.mp hy]
    exact hx

theorem eq_nil_of_skipped (hp : isWord p = true) (hg : ∀ y ∈ gap, Skipped p y) : gap = [] := by
  rcases gap with _ | ⟨x, gap⟩
  · rfl
  · rcases hg x (List.mem_cons_self ..) with ⟨-, h⟩ | ⟨-, h⟩
    · rw [hp] at h
      cases h
    · rw [endsStatement_of_isWord hp] at h
      cases h

theorem hasBreak_eq_false_of_skipped (hp : endsStatement p = true) (hg : ∀ y ∈ gap, Skipped p y) :
    hasBreak gap = false := by
  rw [hasBreak, List.any_eq_false]
  intro x hx
  rcases hg x hx with ⟨h, -⟩ | ⟨-, h⟩
  · simp [Placed.isTerminator_space h]
  · rw [hp] at h
    cases h

/-- Where every blank was skipped, none stays. -/
theorem lead_eq_nil_of_skipped {kind : TokenKind} {d : Placed} {others : List Placed}
    (hg : ∀ y ∈ gap, Skipped p y) : Token.lead ⟨gap, kind, d, others⟩ (some p) = [] := by
  have hsep : Token.separator ⟨gap, kind, d, others⟩ p = none := by
    unfold Token.separator
    by_cases he : endsStatement p = true
    · rw [if_neg (by simp [hasBreak_eq_false_of_skipped he hg])]
      by_cases hw : isWord p = true
      · simp [eq_nil_of_skipped hw hg]
      · simp [hw]
    · have hw : isWord p = false := by
        rw [Bool.eq_false_iff]
        exact fun hw => he (endsStatement_of_isWord hw)
      simp [he, hw]
  simp [Token.lead, hsep]

end Skipped

/-! ## What is in view between two tokens -/

/-- The current character `c` after a token that ends in `previous`, if there is one, and after the
blanks `gap`. The output is `o`, and it is to be `full` when that token has been written. -/
inductive Holds (o : Output) (c : Placed) : Option Char → List Piece → Output → Prop
  /-- The last character of the token is still to be written; every blank after it was skipped. -/
  | token {gap : List Piece} (hc : c.isBlank = false) (hg : ∀ x ∈ gap, Skipped c.char x) :
      Holds o c (some c.char) gap (o.emit c)
  /-- A space after a word, the last one so far. -/
  | space {p : Char} {gap : List Piece} {x : Piece} (hx : x.placed = c) (hc : c.char = ' ')
      (hp : isWord p = true) (hb : hasBreak gap = false) (hl : gap.getLast? = some x)
      (ho : o.code.isEmpty = false) : Holds o c (some p) gap o
  /-- A line end that can end a statement, the last one so far. -/
  | line {p : Char} {gap : List Piece} {x : Piece} (hx : x.placed = c) (hc : c.char = '\n')
      (hp : endsStatement p = true) (hl : lastBreak gap = some x) (ho : o.code.isEmpty = false) :
      Holds o c (some p) gap o
  /-- A line end before the first token. -/
  | start {gap : List Piece} (hc : c.char = '\n') (ho : o.code.isEmpty) : Holds o c none gap o

theorem holds_of_not_blank (o : Output) {c : Placed} (hc : c.isBlank = false) :
    Holds o c (some c.char) [] (o.emit c) := .token hc (by simp)

section Holds

variable {r : Reader} {o full : Output} {c d : Placed} {previous : Option Char} {gap : List Piece}

/-- A blank comes into view: it is skipped, or it takes the place of a blank that says less, or it
lets the last character of a token be written. -/
theorem Holds.blank {x : Piece} (h : Holds o c previous gap full) (hx : x.placed.isBlank = true) :
    ∃ o' c', Holds o' c' previous (gap ++ [x]) full ∧ ∀ r,
      Window.turn ⟨r, o, some c, some x.placed⟩ c = .ok ⟨r, o', some c', some x.placed⟩ := by
  have hxc := Placed.isBlank_iff.mp hx
  have hq : isQuote x.placed.char = false := by
    rcases hxc with hx | hx <;> simp [hx, isQuote]
  have hcopy : action c.char (some x.placed.char) = .copy → ∀ r,
      Window.turn ⟨r, o, some c, some x.placed⟩ c =
        .ok ⟨r, o, some x.placed, some x.placed⟩ := by
    intro ha r
    rw [Window.turn_copy (by simpa using ha), Window.shift_char hq]
  have houtput : action c.char (some x.placed.char) = .output → ∀ r,
      Window.turn ⟨r, o, some c, some x.placed⟩ c =
        .ok ⟨r, o.emit c, some x.placed, some x.placed⟩ := by
    intro ha r
    rw [Window.turn_output (by simpa using ha), Window.shift_char hq]
  have hskip : action c.char (some x.placed.char) = .skip → ∀ r,
      Window.turn ⟨r, o, some c, some x.placed⟩ c = .ok ⟨r, o, some c, some x.placed⟩ := by
    intro ha r
    rw [Window.turn_skip (by simpa using ha)]
  rcases hxc with hs | hs
  · have ht := Placed.isTerminator_space hs
    cases h with
    | token hc hg =>
      have ha := action_char_space (Placed.isBlank_eq_false_iff.mp hc)
      by_cases hw : isWord c.char = true
      · obtain rfl := eq_nil_of_skipped hw hg
        have hb : hasBreak [x] = false := by simp [hasBreak, ht]
        exact ⟨o.emit c, x.placed, .space rfl hs hw hb rfl (Output.isEmpty_emit (Or.inr hc)),
          houtput (by rw [hs, ha, if_pos hw])⟩
      · have hsk : Skipped c.char x := Or.inl ⟨hs, by simpa using hw⟩
        exact ⟨o, c, .token hc (mem_append_skipped hg hsk), hskip (by rw [hs, ha, if_neg hw])⟩
    | space hxc hc hp hb hl ho =>
      refine ⟨o, x.placed, .space rfl hs hp ?_ (by simp) ho, hcopy ?_⟩
      · rw [hasBreak_append, hb, ht]
        rfl
      · rw [hc, hs, action_space_blank (Or.inl rfl)]
    | line hxc hc hp hl ho =>
      refine ⟨o, c, .line hxc hc hp ?_ ho, hskip ?_⟩
      · rw [lastBreak_append, ht, hl]
        rfl
      · rw [hc, hs, action_line_space]
    | start hc ho =>
      refine ⟨o, c, .start hc ho, hskip ?_⟩
      rw [hc, hs, action_line_space]
  · have hlast : lastBreak (gap ++ [x]) = some x := by
      rw [lastBreak_append, if_pos (Placed.isTerminator_of_char hs)]
    cases h with
    | token hc hg =>
      have ha := action_char_line (Placed.isBlank_eq_false_iff.mp hc)
      by_cases he : endsStatement c.char = true
      · exact ⟨o.emit c, x.placed, .line rfl hs he hlast (Output.isEmpty_emit (Or.inr hc)),
          houtput (by rw [hs, ha, if_pos he])⟩
      · have hsk : Skipped c.char x := Or.inr ⟨hs, by simpa using he⟩
        exact ⟨o, c, .token hc (mem_append_skipped hg hsk), hskip (by rw [hs, ha, if_neg he])⟩
    | space hxc hc hp hb hl ho =>
      refine ⟨o, x.placed, .line rfl hs (endsStatement_of_isWord hp) hlast ho, hcopy ?_⟩
      rw [hc, hs, action_space_blank (Or.inr rfl)]
    | line hxc hc hp hl ho =>
      refine ⟨o, x.placed, .line rfl hs hp hlast ho, hcopy ?_⟩
      rw [hc, hs, action_line_line]
    | start hc ho =>
      refine ⟨o, x.placed, .start hs ho, hcopy ?_⟩
      rw [hc, hs, action_line_line]

/-- A token other than a regular expression comes into view: what has to stay before it is written. -/
theorem Holds.separator (h : Holds o c previous gap full) (kind : TokenKind) (others : List Placed)
    (hk : kind ≠ .regex) (hd : d.isBlank = false) (r : Reader) :
    Window.turn ⟨r, o, some c, some d⟩ c = Window.shift
      ⟨r, full.emitAll (Token.lead ⟨gap, kind, d, others⟩ previous), some c, some d⟩ := by
  have hdc := Placed.isBlank_eq_false_iff.mp hd
  cases h with
  | token hc hg =>
    have ha := action_char_char (Placed.isBlank_eq_false_iff.mp hc) hdc
    rw [Window.turn_output (by simpa using ha), lead_eq_nil_of_skipped hg]
    rfl
  | @space p gap x hxc hc hp hb hl ho =>
    have ha := action_space_char d.char
    by_cases hw : isWord d.char = true
    · rw [Window.turn_output (by simp [hc, ha, hw])]
      have hsep : Token.separator ⟨gap, kind, d, others⟩ p = some x := by
        simp [Token.separator, hb, hp, hw, hl]
      simp [Token.lead, hsep, hxc]
    · rw [Window.turn_copy (by simp [hc, ha, hw])]
      have hsep : Token.separator ⟨gap, kind, d, others⟩ p = none := by
        simp [Token.separator, hb, hw]
      simp [Token.lead, hsep]
  | @line p gap x hxc hc hp hl ho =>
    have ha := action_line_char hdc
    have hb := hasBreak_of_lastBreak hl
    by_cases hw : beginsStatement d.char = true
    · rw [Window.turn_output (by simp [hc, ha, hw])]
      have hsep : Token.separator ⟨gap, kind, d, others⟩ p = some x := by
        simp [Token.separator, Token.wantsBreak, hb, hp, hw, hl]
      simp [Token.lead, hsep, hxc]
    · rw [Window.turn_copy (by simp [hc, ha, hw])]
      have hsep : Token.separator ⟨gap, kind, d, others⟩ p = none := by
        simp [Token.separator, Token.wantsBreak, hb, hw, hk]
      simp [Token.lead, hsep]
  | start hc ho =>
    have ha := action_line_char hdc
    by_cases hw : beginsStatement d.char = true
    · rw [Window.turn_output (by simp [hc, ha, hw]),
        Output.emit_eq_self ho (Placed.isBlank_iff.mpr (Or.inr hc))]
      rfl
    · rw [Window.turn_copy (by simp [hc, ha, hw])]
      rfl

/-- The current character knows whether a slash opens a regular expression. -/
theorem Holds.regexOpens_eq (h : Holds o c previous gap full) :
    regexOpens previous gap = startsRegex (some c.char) (some '/') := by
  cases h with
  | token hc hg =>
    have : (hasBreak gap && endsStatement c.char) = false := by
      by_cases he : endsStatement c.char = true
      · rw [hasBreak_eq_false_of_skipped he hg]
        rfl
      · simp [he]
    have hc := opensRegexAfter_eq (Placed.isBlank_eq_false_iff.mp hc).2
    simp [regexOpens, startsRegex, this, hc]
  | space hxc hc hp hb hl ho =>
    have hs : opensRegexAfter ' ' = false := by decide
    simp [regexOpens, startsRegex, awaitsOperand_of_isWord hp, hb, hc, hs]
  | line hxc hc hp hl ho =>
    simp [regexOpens, startsRegex, hasBreak_of_lastBreak hl, hp, hc, opensRegexAfter]
  | start hc ho => simp [regexOpens, startsRegex, hc, opensRegexAfter]

/-- A regular expression comes into view: the current character is written at once. It is what has to
stay before the regular expression, or else the last character of the token before. -/
theorem Holds.emit_eq {others : List Placed} (h : Holds o c previous gap full)
    (hr : regexOpens previous gap = true) :
    o.emit c = full.emitAll (Token.lead ⟨gap, .regex, d, others⟩ previous) := by
  cases h with
  | token hc hg =>
    rw [lead_eq_nil_of_skipped hg]
    rfl
  | space hxc hc hp hb hl ho => simp [regexOpens, awaitsOperand_of_isWord hp, hb] at hr
  | @line p gap x hxc hc hp hl ho =>
    have hsep : Token.separator ⟨gap, .regex, d, others⟩ p = some x := by
      simp [Token.separator, Token.wantsBreak, hasBreak_of_lastBreak hl, hp, hl]
    simp [Token.lead, hsep, hxc]
  | start hc ho => exact Output.emit_eq_self ho (Placed.isBlank_iff.mpr (Or.inr hc))

/-- At the end of the script, the last token is written, and a blank after it is not. -/
theorem Holds.ended (h : Holds o c previous gap full) (r : Reader) :
    Window.turn ⟨r, o, some c, none⟩ c = .ok ⟨r, full, none, none⟩ := by
  cases h with
  | token hc hg =>
    rw [Window.turn_output (action_char_none (Placed.isBlank_eq_false_iff.mp hc)), Window.shift_none]
  | space hxc hc hp hb hl ho => rw [Window.turn_copy (by rw [hc]; decide), Window.shift_none]
  | line hxc hc hp hl ho => rw [Window.turn_copy (by rw [hc]; decide), Window.shift_none]
  | start hc ho => rw [Window.turn_copy (by rw [hc]; decide), Window.shift_none]

theorem Holds.opensRegex_eq (h : Holds o c previous gap full) (hd : d.char = '/') (r : Reader) :
    Window.opensRegex ⟨r, o, some c, some d⟩ = regexOpens previous gap := by
  rw [h.regexOpens_eq, Window.opensRegex, Option.map_some, Option.map_some, hd]

theorem Holds.opensRegex_eq_false (h : Holds o c previous gap full)
    (hr : d.char = '/' → regexOpens previous gap = false) (r : Reader) :
    Window.opensRegex ⟨r, o, some c, some d⟩ = false := by
  by_cases hd : d.char = '/'
  · rw [h.opensRegex_eq hd, hr hd]
  · simp [Window.opensRegex, startsRegex, hd]

/-! ## From one logical character to the next -/

variable {rest : List Placed}

theorem Holds.leads_blank {x : Piece} (h : Holds o c previous gap full)
    (hf : front r.stream = .piece x rest) (hx : x.placed.isBlank = true) (next : Option Placed) :
    ∃ r' o' c', r.Ahead rest r' ∧ Holds o' c' previous (gap ++ [x]) full ∧
      Window.Leads ⟨r, o, some c, next⟩ ⟨r', o', some c', some x.placed⟩ := by
  obtain ⟨o', c', h', hturn⟩ := h.blank hx
  obtain ⟨r', ha, hlook⟩ := Window.look_piece hf
  have hslash : x.placed.char ≠ '/' := by
    rcases Placed.isBlank_iff.mp hx with hx | hx <;> simp [hx]
  have ho := h.opensRegex_eq_false (fun hd => absurd hd hslash) r'
  exact ⟨r', o', c', ha, h', .turn hlook ho rfl (hturn r')⟩

theorem Holds.leads_single (h : Holds o c previous gap full)
    (hf : front r.stream = .piece (.read d) rest) (hd : d.isBlank = false)
    (hl : opensLiteral previous gap d.char = none) (next : Option Placed) :
    ∃ r', r.Ahead rest r' ∧ Window.Leads ⟨r, o, some c, next⟩
      ⟨r', full.emitAll (Token.lead ⟨gap, .single, d, []⟩ previous), some d, some d⟩ := by
  obtain ⟨hq, hr⟩ := opensLiteral_eq_none_iff.mp hl
  have hq : isQuote d.char = false := by simpa [isQuote] using hq
  obtain ⟨r', ha, hlook⟩ := Window.look_piece hf
  refine ⟨r', ha, .turn hlook (h.opensRegex_eq_false hr r') rfl ?_⟩
  rw [Piece.placed_read, h.separator .single [] (by decide) hd r', Window.shift_char hq]

theorem Holds.leads_literal {kind : TokenKind} {body : Body} {copied after : List Placed}
    {e : Placed} (h : Holds o c previous gap full)
    (hf : front r.stream = .piece (.read d) rest) (hd : d.isBlank = false)
    (hl : opensLiteral previous gap d.char = some (kind, body))
    (hs : scan body rest = ⟨copied, .closed e, after⟩) (next : Option Placed) :
    ∃ r', r.Ahead after r' ∧ Window.Leads ⟨r, o, some c, next⟩
      ⟨r', full.emitAll (Token.lead ⟨gap, kind, d, copied ++ [e]⟩ previous ++ d :: copied),
        some e, none⟩ := by
  obtain ⟨r', ha, hlook⟩ := Window.look_piece hf
  have ha' : r.Ahead after (r'.resume after) := ⟨rfl, ha.source_eq, ha.stop_eq⟩
  rcases opensLiteral_eq_some hl with ⟨rfl, rfl, hq⟩ | ⟨rfl, rfl, hslash, hr⟩
  · have hnr : d.char = '/' → regexOpens previous gap = false := by
      intro hslash
      rcases hq with hq | hq <;> simp [hslash] at hq
    refine ⟨_, ha', .turn hlook (h.opensRegex_eq_false hnr r') rfl ?_⟩
    rw [Piece.placed_read, h.separator .string (copied ++ [e]) (by decide) hd r',
      Window.shift_string (isQuote_iff.mpr hq) (by rw [ha.stream_eq, hs]), Output.emitAll_append]
  · refine ⟨_, ha', .regex hlook ((h.opensRegex_eq hslash r').trans hr) ?_⟩
    rw [Piece.placed_read, Window.passRegex_closed (by rw [ha.stream_eq, hs]), Output.emitAll_cons,
      h.emit_eq hr, ← Output.emitAll_append]

/-! ## Where the run ends -/

theorem Holds.proceed_ended (h : Holds o c previous gap full) (hf : front r.stream = .ended)
    (next : Option Placed) : Window.proceed ⟨r, o, some c, next⟩ = .ok full := by
  have hlast : Window.proceed ⟨r.resume [], full, none, none⟩ = .ok full := by
    rw [Window.proceed_of_look (Window.look_ended rfl) rfl, Window.run_none rfl]
  rw [Window.proceed_of_look (Window.look_ended hf) rfl, Window.run_some rfl, h.ended]
  exact hlast

theorem Window.proceed_openComment {current next : Option Placed}
    (hf : front r.stream = .openComment) :
    Window.proceed ⟨r, o, current, next⟩ =
      .error (reportOn r.source r.stop (.comment, none)) := by
  rw [Window.proceed_eq, Window.look_openComment hf]
  rfl

theorem Holds.proceed_broken {kind : TokenKind} {body : Body} {copied after : List Placed}
    {what : Unterminated} {e : Option Placed} (h : Holds o c previous gap full)
    (hf : front r.stream = .piece (.read d) rest) (hp : IsPlaced rest) (hd : d.isBlank = false)
    (hl : opensLiteral previous gap d.char = some (kind, body))
    (hs : scan body rest = ⟨copied, .broken what e, after⟩) (next : Option Placed) :
    Window.proceed ⟨r, o, some c, next⟩ = .error (reportOn r.source r.stop (what, e)) := by
  obtain ⟨r', ha, hlook⟩ := Window.look_piece hf
  rw [Piece.placed_read] at hlook
  have hp' : IsPlaced r'.stream := by rwa [ha.stream_eq]
  rw [← ha.source_eq, ← ha.stop_eq]
  rcases opensLiteral_eq_some hl with ⟨rfl, rfl, hq⟩ | ⟨rfl, rfl, hslash, hr⟩
  · have hnr : d.char = '/' → regexOpens previous gap = false := by
      intro hslash
      rcases hq with hq | hq <;> simp [hslash] at hq
    rw [Window.proceed_of_look hlook (h.opensRegex_eq_false hnr r'), Window.run_some rfl,
      h.separator .string [] (by decide) hd r',
      Window.shift_openString hp' (isQuote_iff.mpr hq) (by rw [ha.stream_eq, hs])]
    rfl
  · rw [Window.proceed_of_regex hlook ((h.opensRegex_eq hslash r').trans hr),
      Window.passRegex_open hp' (by rw [ha.stream_eq, hs])]
    rfl

end Holds

/-! ## The whole run -/

/-- What becomes of the output `o` when the tokens after one that ends in `previous` are laid out, or
when the script breaks off. -/
def finish (source : String) (stop : Position) (o : Output) (previous : Option Char) :
    Except Broken (List Token) → Except ScanError Output
  | .error b => .error (reportOn source stop b)
  | .ok ts => .ok (o.emitAll ((layoutFrom previous ts).map Piece.placed))

theorem finish_map {source : String} {stop : Position} {o : Output} {previous : Option Char}
    (t : Token) (r : Except Broken (List Token)) :
    finish source stop o previous (r.map (t :: ·)) =
      finish source stop (o.emitAll (t.lead previous ++ t.chars)) (some t.last.char) r := by
  rcases r with b | ts
  · rfl
  · simp only [finish, Except.map, map_placed_layoutFrom_cons, Output.emitAll_append]

/-- From any point between two tokens on, the window writes the layout of the tokens that are left.
The induction is on the characters ahead; a literal takes many of them at once. -/
theorem proceed_eq_finish {n : Nat} {r : Reader} {o full : Output} {c : Placed}
    {next : Option Placed} {previous : Option Char} {gap : List Piece} (hn : r.stream.length = n)
    (hcan : IsCanonical r.stream) (hp : IsPlaced r.stream) (h : Holds o c previous gap full) :
    Window.proceed ⟨r, o, some c, next⟩ =
      finish r.source r.stop full previous (tokensFrom previous gap r.stream) := by
  induction n using Nat.strongRecOn generalizing r o full c next previous gap with
  | ind n ih =>
    rcases hf : front r.stream with _ | ⟨x, rest⟩ | _
    · rw [tokensFrom_ended hf, h.proceed_ended hf]
      rfl
    · have hlen : rest.length < n := hn ▸ length_front hf
      have hsub : rest ⊆ r.stream := (suffix_of_front hcan hf).subset
      by_cases hx : x.placed.isBlank = true
      · -- a blank: only what is in view changes
        obtain ⟨r', o', c', ha, h', hleads⟩ := h.leads_blank hf hx next
        obtain rfl := ha.stream_eq
        rw [hleads.proceed_eq, tokensFrom_blank hf hx, ← ha.source_eq, ← ha.stop_eq]
        exact ih _ hlen rfl (hcan.subset hsub) (hp.subset hsub) h'
      · -- a token: it and what has to stay before it go to the output
        rw [Bool.not_eq_true] at hx
        obtain ⟨d, rfl, -, -⟩ := of_front_eq_token hcan hf hx
        have hd : d.isBlank = false := hx
        rcases hl : opensLiteral previous gap d.char with _ | ⟨kind, body⟩
        · obtain ⟨r', ha, hleads⟩ := h.leads_single hf hd hl next
          obtain rfl := ha.stream_eq
          rw [hleads.proceed_eq, tokensFrom_single hf hx hl, finish_map, ← ha.source_eq,
            ← ha.stop_eq,
            ih _ hlen rfl (hcan.subset hsub) (hp.subset hsub) (holds_of_not_blank _ hd),
            ← Output.emitAll_concat]
          rfl
        · rcases hs : scan body rest with ⟨copied, e | ⟨what, e⟩, after⟩
          · obtain ⟨hrest, -, hblank⟩ := scan_closed (hcan.subset hsub) hl hs
            obtain ⟨r', ha, hleads⟩ := h.leads_literal hf hd hl hs next
            obtain rfl := ha.stream_eq
            have hsub' : r'.stream ⊆ r.stream :=
              List.Subset.trans (fun x hx => by simp [hrest, hx]) hsub
            have hlen' : r'.stream.length < n := by
              rw [hrest] at hlen
              simp at hlen
              omega
            rw [hleads.proceed_eq, tokensFrom_closed hf hx hl hs, finish_map, ← ha.source_eq,
              ← ha.stop_eq,
              ih _ hlen' rfl (hcan.subset hsub') (hp.subset hsub') (holds_of_not_blank _ hblank),
              ← Output.emitAll_concat]
            simp [Token.chars, Token.last]
          · rw [h.proceed_broken hf (hp.subset hsub) hx hl hs next, tokensFrom_broken hf hx hl hs]
            rfl
    · rw [tokensFrom_openComment hf, Window.proceed_openComment hf]
      rfl

theorem squeeze_eq_proceed (source text : String) :
    squeeze source text = Window.proceed (.ofReader (.ofText source text)) := by
  unfold squeeze Window.ofText Window.proceed
  rcases (Window.ofReader (.ofText source text)).refill with e | w <;> rfl

/-- To make a script short is to divide it into tokens and to lay them out. -/
theorem squeeze_eq (source text : String) :
    squeeze source text =
      finish source (Position.start.advanceAll (canonical text.toList)) .empty none
        (tokens (placedText text)) := by
  rw [squeeze_eq_proceed, Window.ofReader]
  exact proceed_eq_finish rfl (isCanonical_placedText text) (isPlaced_place _ _) (.start rfl rfl)

end Squeeze
