import Squeeze.Proofs.Pieces
import Squeeze.Script.Lexeme

/-!
# Reading a short form again

A short form can be divided into tokens like any other script. They are the tokens that it was made
of, each with what was kept of its gap (`Relexed`), unless two slashes or a slash and an asterisk came
together that did not open a comment before.

Nothing else can go wrong. A slash is read as it was, because a line end that decides on it is kept.
Two words stay apart, because some blank between them is kept. And what was kept of a gap is kept
again, so a second pass changes nothing.
-/

namespace Squeeze

/-! ## What is kept of a gap -/

/-- Whether all of some pieces count as blanks, as those of a gap do. -/
def AllBlank (gap : List Piece) : Prop := ∀ x ∈ gap, x.placed.isBlank

theorem allBlank_nil : AllBlank [] := by
  intro x hx
  cases hx

theorem AllBlank.concat {gap : List Piece} {x : Piece} (h : AllBlank gap) (hx : x.placed.isBlank) :
    AllBlank (gap ++ [x]) := by
  intro y hy
  rcases List.mem_append.mp hy with hy | hy
  · exact h y hy
  · obtain rfl := List.mem_singleton.mp hy
    exact hx

theorem isBlank_of_spelling_eq {cs ds : List Placed} (h : spelling cs = spelling ds)
    (hd : ∀ d ∈ ds, d.isBlank) : ∀ c ∈ cs, c.isBlank := by
  intro c hc
  have hmem : c.char ∈ spelling ds := h ▸ List.mem_map_of_mem hc
  obtain ⟨d, hdmem, hchar⟩ := List.mem_map.mp hmem
  have hblank := hd d hdmem
  rw [Placed.isBlank_iff] at hblank ⊢
  rwa [← hchar]

/-- What is written before a token depends on its gap only in so far as there is a line end in it, and
anything at all. -/
theorem spelling_lead {t : Token} (hgap : AllBlank t.gap) (p : Char) :
    spelling (t.lead (some p)) =
      if hasBreak t.gap then if endsStatement p && t.wantsBreak then ['\n'] else []
      else if isWord p && isWord t.first.char && !t.gap.isEmpty then [' '] else [] := by
  have hlead : spelling (t.lead (some p)) = (t.separator p).toList.map fun x => x.placed.char := by
    simp [Token.lead, spelling, Function.comp_def]
  rw [hlead, Token.separator]
  by_cases hb : hasBreak t.gap = true
  · rw [if_pos hb, if_pos hb]
    by_cases hw : (endsStatement p && t.wantsBreak) = true
    · rw [if_pos hw, if_pos hw]
      rcases hl : lastBreak t.gap with _ | x
      · rw [lastBreak_eq_none_iff, hb] at hl
        cases hl
      · obtain ⟨hx, ht⟩ := List.mem_filter.mp (List.mem_of_getLast? hl)
        simp [Placed.char_eq_newline (hgap x hx) ht]
    · rw [if_neg hw, if_neg hw]
      rfl
  · rw [if_neg hb, if_neg hb]
    rw [Bool.not_eq_true] at hb
    by_cases hw : (isWord p && isWord t.first.char) = true
    · rw [if_pos hw, hw, Bool.true_and]
      rcases hl : t.gap.getLast? with _ | x
      · rw [List.getLast?_eq_none_iff.mp hl]
        rfl
      · have hx := List.mem_of_getLast? hl
        have ht : x.placed.isTerminator = false := by
          rw [Bool.eq_false_iff]
          intro ht
          rw [hasBreak, List.any_eq_true.mpr ⟨x, hx, ht⟩] at hb
          cases hb
        have hne : t.gap.isEmpty = false := by
          rw [List.isEmpty_eq_false_iff]
          exact List.ne_nil_of_mem hx
        simp [hne, Placed.char_eq_space (hgap x hx) ht]
    · rw [Bool.not_eq_true] at hw
      rw [hw]
      rfl

/-- A token `u` is the token `t`, read again behind what was kept of its gap. -/
structure Token.Kept (t : Token) (previous : Option Char) (u : Token) : Prop where
  kind_eq : u.kind = t.kind
  spelling_eq : spelling u.chars = spelling t.chars
  gap_eq : spelling (u.gap.map Piece.placed) = spelling (t.lead previous)

section Kept

variable {previous : Option Char} {p : Char} {t u : Token}

theorem Token.Kept.first_eq (h : t.Kept previous u) : u.first.char = t.first.char :=
  (List.cons.inj h.spelling_eq).1

theorem Token.getLast?_spelling (t : Token) : (spelling t.chars).getLast? = some t.last.char := by
  rw [spelling, List.getLast?_map, Token.chars, List.getLast?_cons, Token.last,
    List.getLastD_eq_getLast?]
  rfl

theorem Token.Kept.last_eq (h : t.Kept previous u) : u.last.char = t.last.char := by
  have hl := congrArg List.getLast? h.spelling_eq
  rw [Token.getLast?_spelling, Token.getLast?_spelling] at hl
  exact Option.some.inj hl

theorem Token.Kept.wantsBreak_eq (h : t.Kept previous u) : u.wantsBreak = t.wantsBreak := by
  rw [Token.wantsBreak, h.kind_eq, h.first_eq]
  rfl

theorem AllBlank.lead (h : AllBlank t.gap) : ∀ c ∈ t.lead previous, c.isBlank := by
  intro c hc
  obtain ⟨x, hx, rfl⟩ := List.mem_map.mp hc
  exact h x (mem_gap_of_separator (Option.mem_toList.mp hx))

theorem Token.Kept.allBlank (h : t.Kept previous u) (hgap : AllBlank t.gap) : AllBlank u.gap := by
  intro x hx
  exact isBlank_of_spelling_eq h.gap_eq hgap.lead x.placed (List.mem_map_of_mem hx)

theorem hasBreak_eq_any_spelling (gap : List Piece) :
    hasBreak gap = (spelling (gap.map Piece.placed)).any fun c => c ≤ '\n' := by
  simp [hasBreak, spelling, Placed.isTerminator, Function.comp_def]

theorem isEmpty_spelling (gap : List Piece) :
    (spelling (gap.map Piece.placed)).isEmpty = gap.isEmpty := by
  simp [spelling]

theorem Token.Kept.hasBreak_eq (h : t.Kept (some p) u) (hgap : AllBlank t.gap) :
    hasBreak u.gap = (hasBreak t.gap && endsStatement p && t.wantsBreak) := by
  rw [hasBreak_eq_any_spelling u.gap, h.gap_eq, spelling_lead hgap]
  by_cases hb : hasBreak t.gap = true
  · by_cases hw : (endsStatement p && t.wantsBreak) = true
    · rw [if_pos hb, if_pos hw, hb, Bool.true_and, hw]
      rfl
    · rw [if_pos hb, if_neg hw, hb, Bool.true_and, Bool.eq_false_iff.mpr hw]
      rfl
  · rw [if_neg hb, Bool.eq_false_iff.mpr hb]
    split <;> rfl

/-- Between two words a blank is kept exactly if there was one. -/
theorem Token.Kept.isEmpty_gap_eq (h : t.Kept (some p) u) (hgap : AllBlank t.gap)
    (hp : isWord p = true) (ht : isWord t.first.char = true) : u.gap.isEmpty = t.gap.isEmpty := by
  have hw : t.wantsBreak = true := by simp [Token.wantsBreak, beginsStatement, ht]
  rw [← isEmpty_spelling u.gap, h.gap_eq, spelling_lead hgap, endsStatement_of_isWord hp, hw, hp, ht]
  by_cases hb : hasBreak t.gap = true
  · rw [if_pos hb]
    cases hg : t.gap with
    | nil =>
      rw [hg] at hb
      cases hb
    | cons => rfl
  · rw [if_neg hb]
    cases t.gap <;> rfl

/-- Where no regular expression could open, none can open after the blanks are gone. -/
theorem Token.Kept.regexOpens_eq_false (h : t.Kept previous u) (hgap : AllBlank t.gap)
    (hr : regexOpens previous t.gap = false) : regexOpens previous u.gap = false := by
  rcases previous with _ | p
  · cases hr
  simp only [regexOpens, Bool.or_eq_false_iff] at hr ⊢
  refine ⟨hr.1, ?_⟩
  rw [h.hasBreak_eq hgap, hr.2]
  rfl

/-- The line end that lets a regular expression open is one of those that stay. -/
theorem Token.Kept.regexOpens_eq_true (h : t.Kept previous u) (hgap : AllBlank t.gap)
    (ht : t.kind = .regex) (hr : regexOpens previous t.gap = true) :
    regexOpens previous u.gap = true := by
  rcases previous with _ | p
  · rfl
  have hw : t.wantsBreak = true := by simp [Token.wantsBreak, ht]
  simp only [regexOpens, Bool.or_eq_true, Bool.and_eq_true] at hr ⊢
  refine hr.imp_right ?_
  rintro ⟨hb, he⟩
  refine ⟨?_, he⟩
  rw [h.hasBreak_eq hgap, hb, he, hw]
  rfl

/-- What was kept of a gap is kept again. -/
theorem Token.Kept.lead_eq (h : t.Kept previous u) (hgap : AllBlank t.gap) :
    spelling (u.lead previous) = spelling (t.lead previous) := by
  rcases previous with _ | p
  · rfl
  have hempty : u.gap.isEmpty = (spelling (t.lead (some p))).isEmpty := by
    rw [← h.gap_eq, isEmpty_spelling]
  rw [spelling_lead (h.allBlank hgap), h.hasBreak_eq hgap, h.first_eq, h.wantsBreak_eq, hempty, spelling_lead hgap]
  generalize hasBreak t.gap = b, endsStatement p = e, t.wantsBreak = w, isWord p = v,
    isWord t.first.char = v', t.gap.isEmpty = n
  cases b <;> cases e <;> cases w <;> cases v <;> cases v' <;> cases n <;> rfl

end Kept

/-! ## Reading the layout -/

/-- The tokens `us` are the tokens `ts`, read again behind a token that ends in `previous`. What the
grammar says of gaps and of single characters goes along, since both lists are looked at without it
later on. -/
inductive Relexed : Option Char → List Token → List Token → Prop
  | nil (previous : Option Char) : Relexed previous [] []
  | cons {previous : Option Char} {t u : Token} {ts us : List Token} (hu : t.Kept previous u)
      (hgap : AllBlank t.gap) (hsingle : t.kind = .single → t.others = [])
      (h : Relexed (some t.last.char) ts us) : Relexed previous (t :: ts) (u :: us)

/-- Where the layout of some tokens is read, the first of them stands at the front, and the layout of
the others comes after it. -/
theorem exists_kept {previous : Option Char} {t : Token} {ts : List Token} {ds : List Placed}
    (hgap : AllBlank t.gap)
    (hd : spelling ds = spelling ((layoutFrom previous (t :: ts)).map Piece.placed)) :
    ∃ u ds', t.Kept previous u ∧
      spelling ds' = spelling ((layoutFrom (some t.last.char) ts).map Piece.placed) ∧
      Point.ReadsPlainly ⟨previous, [], ds⟩ [] ⟨previous, u.gap, u.chars ++ ds'⟩ := by
  rw [map_placed_layoutFrom_cons, spelling_append, spelling_append] at hd
  obtain ⟨lead, rest, rfl, hlead, hrest⟩ := List.map_eq_append_iff.mp hd
  obtain ⟨chars, ds', rfl, hchars, hds⟩ := List.map_eq_append_iff.mp hrest
  obtain ⟨first, others, rfl, -⟩ := List.map_eq_cons_iff.mp hchars
  refine ⟨⟨lead.map .read, t.kind, first, others⟩, ds', ⟨rfl, hchars, ?_⟩, hds, ?_⟩
  · rw [Piece.map_placed_read]
    exact hlead
  · exact Point.readsPlainly_blanks (isBlank_of_spelling_eq hlead hgap.lead) previous [] _

theorem exists_body {others body : List Placed} {close : Placed}
    (h : spelling others = spelling (body ++ [close])) :
    ∃ body' close', others = body' ++ [close'] ∧ spelling body' = spelling body ∧
      close'.char = close.char := by
  rw [spelling_append] at h
  obtain ⟨body', rest, rfl, hbody, hrest⟩ := List.map_eq_append_iff.mp h
  obtain ⟨close', rfl, hclose⟩ := List.map_eq_singleton_iff.mp hrest
  exact ⟨body', close', rfl, hbody, hclose⟩

/-- No blank is kept behind an operator slash. -/
theorem Token.lead_slash (t : Token) : t.lead (some '/') = [] := by
  have he : endsStatement '/' = false := by decide
  have hw : isWord '/' = false := by decide
  have hsep : t.separator '/' = none := by simp [separator, he, hw]
  rw [lead, Option.bind_some, hsep]
  rfl

/-- What is written behind an operator slash opens no comment together with it. -/
theorem Divided.head_layoutFrom_slash {ts : List Token} {cs : List Placed}
    (h : Divided (some '/') [] cs ts)
    (hs : ∀ u ∈ ts.head?, ¬ u.isOperator '/' ∧ ¬ u.isOperator '*') :
    ∀ c ∈ (spelling ((layoutFrom (some '/') ts).map Piece.placed)).head?, c ≠ '/' ∧ c ≠ '*' := by
  rcases ts with _ | ⟨u, ts⟩
  · intro c hc
    cases hc
  intro c hc
  rw [map_placed_layoutFrom_cons, u.lead_slash] at hc
  obtain rfl : u.first.char = c := by simpa [Token.chars] using hc
  obtain ⟨-, hstring, hregex⟩ := h.head
  have hu := hs u rfl
  rcases hk : u.kind with _ | _ | _
  · simpa [Token.isOperator, hk] using hu
  · exact hstring hk
  · have hr := hregex hk
    have he : endsStatement '/' = false := by decide
    have ho : awaitsOperand '/' = false := by decide
    simp [regexOpens, he, ho] at hr

/-- A token that was kept is passed again. The only thing that could prevent it is a comment that an
operator slash opens together with what is written behind it. -/
theorem Point.Passes.kept {s s' : Point} {t u : Token} {ds : List Placed}
    (h : s.Passes (some t) s') (hgap : AllBlank s.gap) (hu : t.Kept s.previous u)
    (hafter : t.isOperator '/' → opensComment ('/' :: spelling ds) = false) :
    Passes ⟨s.previous, u.gap, u.chars ++ ds⟩ (some u) ⟨some t.last.char, [], ds⟩ := by
  obtain ⟨gap', kind', first', others'⟩ := u
  cases h with
  | @string previous gap cs quote body close hq hb hc =>
    obtain rfl : kind' = .string := hu.kind_eq
    have hquote : first'.char = quote.char := hu.first_eq
    obtain ⟨body', close', rfl, hbody, hclose⟩ := exists_body (List.cons.inj hu.spelling_eq).2
    have h' : Passes ⟨previous, gap', first' :: (body' ++ close' :: ds)⟩ _ _ :=
      .string first' body' close' (hquote ▸ hq) (by rwa [hquote, hbody])
        (by rw [hclose, hc, hquote])
    simpa [Token.chars, Token.last, hclose] using h'
  | @regex previous gap cs slash body close hslash hr hn hb hc =>
    obtain rfl : kind' = .regex := hu.kind_eq
    have hslash' : first'.char = slash.char := hu.first_eq
    have hr' : regexOpens previous gap' = true := hu.regexOpens_eq_true hgap rfl hr
    have hn' : opensComment (spelling (first' :: others')) = false := by
      rw [← hn]
      exact congrArg opensComment hu.spelling_eq
    obtain ⟨body', close', rfl, hbody, hclose⟩ := exists_body (List.cons.inj hu.spelling_eq).2
    have h' : Passes ⟨previous, gap', first' :: (body' ++ close' :: ds)⟩ _ _ :=
      .regex first' body' close' (hslash'.trans hslash) hr' hn' (by rwa [hbody]) (hclose.trans hc)
    simpa [Token.chars, Token.last, hclose] using h'
  | single c hblank hquote hr _ =>
    obtain rfl : kind' = .single := hu.kind_eq
    have hc : first'.char = c.char := hu.first_eq
    obtain rfl : others' = [] := List.map_eq_nil_iff.mp (List.cons.inj hu.spelling_eq).2
    have hn' : opensComment (spelling (first' :: ds)) = false := by
      rw [spelling_cons, hc]
      by_cases hslash : c.char = '/'
      · rw [hslash]
        exact hafter (by simp [Token.isOperator, hslash])
      · exact opensComment_of_ne hslash _
    have hr' : first'.char = '/' → regexOpens _ gap' = false := fun hslash =>
      hu.regexOpens_eq_false hgap (hr (hc ▸ hslash))
    have h' := Passes.single first' (hc ▸ hblank) (hc ▸ hquote) hr' hn'
    rw [hc] at h'
    exact h'

/-- Blanks and comments leave the token before them what it is, and they belong to a gap. -/
theorem Point.Passes.blanks {s s' : Point} (h : s.Passes none s') (hgap : AllBlank s.gap) :
    s'.previous = s.previous ∧ AllBlank s'.gap := by
  cases h with
  | blank c hc => exact ⟨rfl, hgap.concat (Placed.isBlank_iff.mpr hc)⟩
  | lineComment => exact ⟨rfl, hgap⟩
  | blockComment => exact ⟨rfl, hgap.concat rfl⟩

theorem Point.Reads.blanks {s s' : Point} {ts : List Token} (h : s.Reads ts s')
    (hgap : AllBlank s.gap) :
    AllBlank s'.gap ∧ ∀ t ∈ ts, AllBlank t.gap ∧ t.last.isBlank = false := by
  induction h with
  | here s => exact ⟨hgap, by simp⟩
  | @onward s s' s'' t ts h _ ih =>
    rcases t with _ | t
    · exact ih (h.blanks hgap).2
    · obtain ⟨htgap, hs', -⟩ := h.token_eq
      obtain ⟨hgap', hts⟩ := ih (by rw [hs']; exact allBlank_nil)
      exact ⟨hgap', List.forall_mem_cons.mpr ⟨⟨htgap ▸ hgap, h.isBlank_last⟩, hts⟩⟩

/-- Of the layout of some tokens the first one is read, if it opens no comment there. -/
theorem Point.Passes.relex {s s' : Point} {t : Token} {ts : List Token} {ds : List Placed}
    (h : s.Passes (some t) s') (hrest : s'.ReadsAll ts) (hgap : AllBlank s.gap)
    (hs : t.isOperator '/' → ∀ u ∈ ts.head?, ¬ u.isOperator '/' ∧ ¬ u.isOperator '*')
    (hd : spelling ds = spelling ((layoutFrom s.previous (t :: ts)).map Piece.placed)) :
    ∃ u ds', t.Kept s.previous u ∧
      spelling ds' = spelling ((layoutFrom (some t.last.char) ts).map Piece.placed) ∧
      ReadsPlainly ⟨s.previous, [], ds⟩ [u] ⟨some t.last.char, [], ds'⟩ := by
  obtain ⟨hgap', hs', hsingle⟩ := h.token_eq
  obtain ⟨u, ds', hu, hds, hlead⟩ := exists_kept (hgap' ▸ hgap) hd
  have hn : t.isOperator '/' → opensComment ('/' :: spelling ds') = false := by
    intro hslash
    have hlast : t.last.char = '/' := by
      obtain ⟨hkind, hchar⟩ := Token.isOperator_iff.mp hslash
      rw [Token.last, hsingle hkind]
      exact hchar
    have hdiv := hrest.divided
    rw [hs', hlast] at hdiv
    rw [hlast] at hds
    have hbehind := hdiv.head_layoutFrom_slash (hs hslash)
    rw [← hds] at hbehind
    rcases ds' with _ | ⟨d, ds'⟩
    · rfl
    · have hd' := hbehind d.char rfl
      simp [opensComment, hd']
  have hpass := h.kept hgap hu hn
  exact ⟨u, ds', hu, hds, hlead.append (.onward hpass hpass.opensComment_eq_false (.here _))⟩

/-- A script that is laid out can be read again, as the same tokens and without a comment. The induction
is on the reading of the script: what stands in its gaps matters only when the token behind them comes. -/
theorem Point.Reads.relex {s s' : Point} {ts : List Token} {ds : List Placed} (h : s.Reads ts s')
    (hend : s'.ahead = []) (hgap : AllBlank s.gap) (hs : SlashesApart ts)
    (hd : spelling ds = spelling ((layoutFrom s.previous ts).map Piece.placed)) :
    ∃ us q, ReadsPlainly ⟨s.previous, [], ds⟩ us q ∧ q.ahead = [] ∧ Relexed s.previous ts us := by
  induction h generalizing ds with
  | here s =>
    obtain rfl : ds = [] := List.map_eq_nil_iff.mp hd
    exact ⟨[], _, .here _, rfl, .nil _⟩
  | @onward s s' s'' t ts h hr ih =>
    cases t with
    | none =>
      obtain ⟨hprevious, hgap'⟩ := h.blanks hgap
      rw [← hprevious] at hd ⊢
      exact ih hend hgap' hs hd
    | some t =>
      obtain ⟨hgap', hs', hsingle⟩ := h.token_eq
      obtain ⟨hnext, hs⟩ := List.isChain_cons.mp hs
      obtain ⟨u, ds', hu, hds, hread⟩ :=
        h.relex ⟨s'', hr, hend⟩ hgap (fun hslash u hu => hnext u hu hslash) hd
      rw [hs'] at ih
      obtain ⟨us, q, hus, hq, hrel⟩ := ih hend allBlank_nil hs hds
      exact ⟨u :: us, q, hread.append hus, hq, .cons hu (hgap' ▸ hgap) hsingle hrel⟩

/-! ## The second pass -/

theorem Relexed.layout_eq {previous : Option Char} {ts us : List Token}
    (h : Relexed previous ts us) :
    spelling ((layoutFrom previous us).map Piece.placed) =
      spelling ((layoutFrom previous ts).map Piece.placed) := by
  induction h with
  | nil => rfl
  | @cons previous t u ts us hu hgap _ _ ih =>
    rw [map_placed_layoutFrom_cons, map_placed_layoutFrom_cons, hu.last_eq]
    simp only [spelling_append]
    rw [hu.lead_eq hgap, hu.spelling_eq, ih]

theorem Relexed.lexemes_eq {previous : Option Char} {ts us : List Token}
    (h : Relexed previous ts us) : lexemes us = lexemes ts := by
  induction h with
  | nil => rfl
  | @cons previous t u ts us hu hgap hsingle h ih =>
    rw [lexemes, lexemes, hu.kind_eq, hu.spelling_eq, hu.first_eq, ih]
    cases hk : t.kind with
    | string | regex => rfl
    | single =>
      simp only
      by_cases hw : isWord t.first.char = true
      · rw [if_pos hw, if_pos hw]
        apply consWord_congr
        intro cs ls hls
        -- the next token begins with a word character, and so did the one that it was
        obtain ⟨t', ts', rfl, -, hw'⟩ := exists_of_lexemes_eq_word hls
        have hlast : t.last.char = t.first.char := by
          rw [Token.last, hsingle hk]
          rfl
        rw [hlast] at h
        cases h with
        | @cons _ _ u' _ us' hu' hgap' _ _ =>
          show u'.gap.isEmpty = t'.gap.isEmpty
          exact hu'.isEmpty_gap_eq hgap' hw hw'
      · rw [if_neg hw, if_neg hw]

theorem Divided.canonical_layout {text : String} {ts : List Token}
    (h : Divided none [] (placedText text) ts) :
    canonical (spelling ((layout ts).map Piece.placed)) =
      spelling ((layout ts).map Piece.placed) := by
  apply canonical_eq_self
  intro c hc
  rw [spelling, List.map_map] at hc
  obtain ⟨x, hx, rfl⟩ := List.mem_map.mp hc
  rcases x with d | k
  · exact newline_or_le_of_mem_placedText (h.isPieceOf_layout hx)
  · exact Or.inr (Std.le_refl _)

/-- The code of a short form is canonical. -/
theorem canonical_code {config : Config} {text : String} {m : Minified}
    (h : minify config text = .ok m) : canonical m.code.toList = m.code.toList := by
  obtain ⟨source, ts, -, hd, rfl⟩ := minify_eq_ok_iff.mp h
  rw [Minified.toList_code_ofTokens, hd.canonical_layout]

theorem placedText_code {config : Config} {text : String} {m : Minified}
    (h : minify config text = .ok m) : placedText m.code = place .start m.code.toList := by
  rw [placedText, canonical_code h]

/-- What stands in the code of a short form is the layout of the tokens of the script. -/
theorem exists_reads_code {config : Config} {text : String} {m : Minified}
    (h : minify config text = .ok m) :
    ∃ ts s, tokens (placedText text) = .ok ts ∧ (Point.start (placedText text)).Reads ts s ∧
      s.ahead = [] ∧ m.code.toList = spelling ((layout ts).map Piece.placed) ∧
      spelling (placedText m.code) = spelling ((layout ts).map Piece.placed) := by
  have hplaced := placedText_code h
  obtain ⟨source, ts, -, hdiv, rfl⟩ := minify_eq_ok_iff.mp h
  obtain ⟨s, hr, hend⟩ := hdiv.readsAll
  refine ⟨ts, s, hdiv.tokensFrom_eq (isCanonical_placedText text), hr, hend,
    Minified.toList_code_ofTokens .., ?_⟩
  rw [hplaced, Minified.toList_code_ofTokens]
  exact map_char_place ..

theorem exists_relexed {config : Config} {text : String} {m : Minified}
    (h : minify config text = .ok m) (hs : SlashesApartIn text) :
    ∃ ts us, tokens (placedText text) = .ok ts ∧ Divided none [] (placedText m.code) us ∧
      Relexed none ts us ∧ m.code.toList = spelling ((layout ts).map Piece.placed) := by
  obtain ⟨ts, s, ht, hr, hend, hcode, hd⟩ := exists_reads_code h
  obtain ⟨us, q, hus, hq, hrel⟩ := hr.relex hend allBlank_nil (hs ts ht) hd
  exact ⟨ts, us, ht, Point.ReadsAll.divided ⟨q, hus.reads, hq⟩, hrel, hcode⟩

/-- The code makes up the same lexemes as the script, if no slash outside literals has a slash or an
asterisk as its next token. -/
theorem lexemesOf_code_eq {config : Config} {text : String} {m : Minified}
    (h : minify config text = .ok m) (hs : SlashesApartIn text) :
    ∃ ls, lexemesOf (canonical text.toList) = .ok ls ∧ lexemesOf m.code.toList = .ok ls := by
  obtain ⟨ts, us, ht, hu, hrel, -⟩ := exists_relexed h hs
  have hu' : tokens (placedText m.code) = .ok us := hu.tokensFrom_eq (isCanonical_placedText m.code)
  rw [placedText_code h] at hu'
  refine ⟨lexemes ts, ?_, ?_⟩
  · rw [placedText] at ht
    rw [lexemesOf, ht]
    rfl
  · rw [lexemesOf, hu', ← hrel.lexemes_eq]
    rfl

/-- The slash of a division has blanks around it that go; the one of a regular expression has a line
end before it that stays. -/
theorem lexemesOf_code_of_slashes :
    ∃ m, minify ⟨some "a.js", none, none⟩ "a / b //c\n/d/ + \"e\"" = .ok m ∧
      m.code = "a/b\n/d/+\"e\"" ∧
      ∃ ls, lexemesOf (canonical "a / b //c\n/d/ + \"e\"".toList) = .ok ls ∧
        lexemesOf m.code.toList = .ok ls := by
  have h : (minify ⟨some "a.js", none, none⟩ "a / b //c\n/d/ + \"e\"").toOption.map Minified.code =
      some "a/b\n/d/+\"e\"" := by decide +kernel
  have hs : SlashesApartIn "a / b //c\n/d/ + \"e\"" := by decide +kernel
  obtain ⟨m, hm, hcode⟩ := exists_of_toOption_eq_some h
  exact ⟨m, hm, hcode, lexemesOf_code_eq hm hs⟩

/-- A second pass gives the same code again, whatever the script is called then. -/
theorem exists_minify_code {config other : Config} {text : String} {m : Minified}
    (h : minify config text = .ok m) (hs : SlashesApartIn text)
    (hname : other.inputName.isSome) : ∃ m', minify other m.code = .ok m' ∧ m'.code = m.code := by
  obtain ⟨ts, us, -, hu, hrel, hcode⟩ := exists_relexed h hs
  obtain ⟨source, hsource⟩ := Option.isSome_iff_exists.mp hname
  refine ⟨_, minify_eq_ok_iff.mpr ⟨source, us, hsource, hu, rfl⟩, ?_⟩
  rw [← String.toList_inj, Minified.toList_code_ofTokens, hcode]
  exact hrel.layout_eq

theorem passes_eq_replicate {config : Config} {m : Minified} {text : String}
    (h : minify config text = .ok m) (hm : m.code = text) (n : Nat) :
    passes config n text = List.replicate n (.ok text) := by
  induction n with
  | zero => rfl
  | succ n ih =>
    rw [passes, h]
    show .ok m.code :: passes config n m.code = _
    rw [hm, ih]
    rfl

/-- To make a script short twice is to make it short once, if no slash outside literals has a slash or
an asterisk as its next token; and so it is with any number of passes. -/
theorem minify_code_eq {config : Config} {text : String} {m : Minified}
    (h : minify config text = .ok m) (hs : SlashesApartIn text) :
    (∀ other : Config, other.inputName.isSome →
      ∃ m', minify other m.code = .ok m' ∧ m'.code = m.code) ∧
    ∀ n, passes config n text = List.replicate n (.ok m.code) := by
  refine ⟨fun other hname => exists_minify_code h hs hname, ?_⟩
  obtain ⟨source, _, hsource, -, -⟩ := minify_eq_ok_iff.mp h
  have hname : config.inputName.isSome := by
    rw [hsource]
    rfl
  obtain ⟨m', hm', hcode⟩ := exists_minify_code h hs hname
  intro n
  cases n with
  | zero => rfl
  | succ n =>
    rw [passes, h]
    show .ok m.code :: passes config n m.code = _
    rw [passes_eq_replicate hm' hcode]
    rfl

/-- The space that stands for a comment is a space like any other when it is read again. -/
theorem minify_code_of_comment :
    ∃ m, minify ⟨some "a.js", none, none⟩ "a /* */b / c\n" = .ok m ∧
      m.code = "a b/c" ∧
      (∀ other : Config, other.inputName.isSome →
        ∃ m', minify other m.code = .ok m' ∧ m'.code = m.code) ∧
      ∀ n, passes ⟨some "a.js", none, none⟩ n "a /* */b / c\n" =
        List.replicate n (.ok m.code) := by
  have h : (minify ⟨some "a.js", none, none⟩ "a /* */b / c\n").toOption.map Minified.code =
      some "a b/c" := by decide +kernel
  have hs : SlashesApartIn "a /* */b / c\n" := by decide +kernel
  obtain ⟨m, hm, hcode⟩ := exists_of_toOption_eq_some h
  exact ⟨m, hm, hcode, minify_code_eq hm hs⟩

end Squeeze
