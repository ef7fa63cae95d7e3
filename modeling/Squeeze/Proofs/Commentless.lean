import Squeeze.Proofs.Relexing

/-!
# Comments in a short form

Comments go, but a new one can come about: where two slashes were apart only by blanks, or a slash and
an asterisk, they come together, and what follows is read as a comment. Nothing else can make one. So
the short form of a script is free of comments exactly if no operator slash has a slash or an asterisk
as its next token.
-/

namespace Squeeze

namespace Point

variable {s s' s'' : Point} {t u : Option Token} {ts us : List Token}

/-! ## Points without comments -/

/-- No comment begins here, nor at any point that is reached from here. -/
def Commentless (s : Point) : Prop :=
  ∀ ts s', s.Reads ts s' → opensComment (spelling s'.ahead) = false

theorem opensComment_of_isLineComment {comment : List Placed} (h : IsLineComment (spelling comment))
    (cs : List Placed) : opensComment (spelling (comment ++ cs)) = true := by
  obtain ⟨body, he, -⟩ := h
  rw [spelling_append, he]
  rfl

theorem opensComment_of_isBlockComment {comment : List Placed}
    (h : IsBlockComment (spelling comment)) (cs : List Placed) :
    opensComment (spelling (comment ++ cs)) = true := by
  obtain ⟨body, he, -⟩ := h
  rw [spelling_append, he]
  rfl

/-- Where no comment begins, what is passed is a token or a blank. -/
theorem Passes.none_cases (h : s.Passes none s') (hn : opensComment (spelling s.ahead) = false) :
    ∃ c cs, s.ahead = c :: cs ∧ c.isBlank = true ∧
      s' = ⟨s.previous, s.gap ++ [.read c], cs⟩ := by
  cases h with
  | blank c hc => exact ⟨c, _, rfl, Placed.isBlank_iff.mpr hc, rfl⟩
  | lineComment comment hc =>
    rw [opensComment_of_isLineComment hc] at hn
    cases hn
  | blockComment comment hc =>
    rw [opensComment_of_isBlockComment hc] at hn
    cases hn

theorem Passes.not_passes_some {v : Token} (h : s.Passes none s') (hcan : IsCanonical s.ahead)
    (hn : opensComment (spelling s.ahead) = false) : ¬ s.Passes (some v) s'' := by
  intro h'
  obtain ⟨c, cs, hc, hblank, -⟩ := h.none_cases hn
  obtain ⟨d, ds, hd, hd', -⟩ := h'.token_cases hcan
  obtain ⟨rfl, -⟩ := List.cons.inj (hc.symm.trans hd)
  rw [hblank] at hd'
  cases hd'

/-- It can be passed in one way only. -/
theorem Passes.unique (h : s.Passes t s') (h' : s.Passes u s'') (hcan : IsCanonical s.ahead)
    (hn : opensComment (spelling s.ahead) = false) : t = u ∧ s' = s'' := by
  rcases t with _ | t <;> rcases u with _ | u
  · obtain ⟨c, cs, hc, -, rfl⟩ := h.none_cases hn
    obtain ⟨d, ds, hd, -, rfl⟩ := h'.none_cases hn
    obtain ⟨rfl, rfl⟩ := List.cons.inj (hc.symm.trans hd)
    exact ⟨rfl, rfl⟩
  · exact absurd h' (h.not_passes_some hcan hn)
  · exact absurd h (h'.not_passes_some hcan hn)
  · obtain ⟨c, cs, hc, -, ht⟩ := h.token_cases hcan
    obtain ⟨d, ds, hd, -, hu⟩ := h'.token_cases hcan
    obtain ⟨rfl, rfl⟩ := List.cons.inj (hc.symm.trans hd)
    rcases ht with ⟨hl, rfl, rfl⟩ | ⟨kind, body, copied, e, after, hl, hs, rfl, rfl⟩ <;>
      rcases hu with ⟨hl', rfl, rfl⟩ | ⟨kind', body', copied', e', after', hl', hs', rfl, rfl⟩ <;>
      rw [hl] at hl' <;> cases hl'
    · exact ⟨rfl, rfl⟩
    · rw [hs] at hs'
      cases hs'
      exact ⟨rfl, rfl⟩

theorem commentless_ended (h : s.ahead = []) : s.Commentless := by
  intro ts s' hr
  cases hr with
  | here => rw [h]; rfl
  | onward hp _ => exact absurd h hp.ahead_ne_nil

theorem Passes.commentless (h : s.Passes t s') (hcan : IsCanonical s.ahead)
    (hn : opensComment (spelling s.ahead) = false) (h' : s'.Commentless) : s.Commentless := by
  intro ts q hr
  cases hr with
  | here => exact hn
  | onward hp hq =>
    obtain ⟨rfl, rfl⟩ := h.unique hp hcan hn
    exact h' _ q hq

theorem ReadsPlainly.commentless (h : s.ReadsPlainly ts s') (hcan : IsCanonical s.ahead)
    (h' : s'.Commentless) : s.Commentless := by
  induction h with
  | here s => exact h'
  | onward h hn _ ih => exact h.commentless hcan hn (ih (hcan.subset h.suffix.subset) h')

/-! ## Slashes that come together -/

theorem opensComment_layoutFrom {v w : Token} {ts : List Token}
    (hsingle : v.kind = .single → v.others = []) (hv : v.isOperator '/')
    (hw : w.isOperator '/' ∨ w.isOperator '*') :
    opensComment (spelling v.chars ++
      spelling ((layoutFrom (some v.last.char) (w :: ts)).map Piece.placed)) = true := by
  obtain ⟨hkind, hchar⟩ := Token.isOperator_iff.mp hv
  have hw : w.first.char = '/' ∨ w.first.char = '*' := by
    simp only [Token.isOperator, Bool.and_eq_true, decide_eq_true_eq] at hw
    exact hw.imp And.right And.right
  rw [Token.chars, Token.last, hsingle hkind, List.getLastD_nil, hchar, map_placed_layoutFrom_cons,
    w.lead_slash]
  rcases hw with hw | hw <;> simp [Token.chars, opensComment, hchar, hw]

/-- Where an operator slash has a slash or an asterisk as its next token, a comment begins at it when
the layout is read. -/
theorem Reads.exists_opensComment {ds : List Placed} (h : s.Reads ts s') (hend : s'.ahead = [])
    (hgap : AllBlank s.gap) (hs : ¬ SlashesApart ts)
    (hd : spelling ds = spelling ((layoutFrom s.previous ts).map Piece.placed)) :
    ∃ us q, Reads ⟨s.previous, [], ds⟩ us q ∧ opensComment (spelling q.ahead) = true := by
  induction h generalizing ds with
  | here s => exact absurd List.IsChain.nil hs
  | @onward s s' s'' t ts h hr ih =>
    cases t with
    | none =>
      obtain ⟨hprevious, hgap'⟩ := h.blanks hgap
      rw [← hprevious] at hd ⊢
      exact ih hend hgap' hs hd
    | some v =>
      obtain ⟨hgap', hs', hsingle⟩ := h.token_eq
      by_cases hpair : v.isOperator '/' → ∀ w ∈ ts.head?, ¬ w.isOperator '/' ∧ ¬ w.isOperator '*'
      · -- the slashes that come together are further on
        obtain ⟨v', ds', hv, hds, hread⟩ := h.relex ⟨s'', hr, hend⟩ hgap hpair hd
        have hrest : ¬ SlashesApart ts := fun hrest =>
          hs (List.isChain_cons.mpr ⟨fun w hw hslash => hpair hslash w hw, hrest⟩)
        rw [hs'] at ih
        obtain ⟨us, q, hus, hq⟩ := ih hend allBlank_nil hrest hds
        exact ⟨_, q, hread.reads.append hus, hq⟩
      · -- they come together here, right behind what is kept of the gap
        obtain ⟨v', ds', hv, hds, hread⟩ := exists_kept (hgap' ▸ hgap) hd
        refine ⟨[], _, hread.reads, ?_⟩
        rw [spelling_append, hv.spelling_eq, hds]
        obtain ⟨hslash, hpair⟩ := Classical.not_imp.mp hpair
        rcases ts with _ | ⟨w, ts⟩
        · exact absurd (by simp) hpair
        · refine opensComment_layoutFrom hsingle hslash ?_
          by_contra hw
          rw [not_or] at hw
          exact hpair fun w' hw' => Option.some.inj hw' ▸ hw

end Point

/-! ## The code -/

/-- Whether a text has no comments: none begins at any point of it. -/
def Commentless (text : String) : Prop := (Point.start (placedText text)).Commentless

variable {config : Config} {text : String} {m : Minified}

theorem commentless_code (h : minify config text = .ok m) (hs : SlashesApartIn text) :
    Commentless m.code := by
  obtain ⟨ts, s, ht, hr, hend, -, hd⟩ := exists_reads_code h
  obtain ⟨us, q, hus, hq, -⟩ := hr.relex hend allBlank_nil (hs ts ht) hd
  exact hus.commentless (isCanonical_placedText m.code) (Point.commentless_ended hq)

theorem not_commentless_code (h : minify config text = .ok m) (hs : ¬ SlashesApartIn text) :
    ¬ Commentless m.code := by
  obtain ⟨ts, s, ht, hr, hend, -, hd⟩ := exists_reads_code h
  rw [slashesApartIn_iff ht] at hs
  obtain ⟨us, q, hus, hq⟩ := hr.exists_opensComment hend allBlank_nil hs hd
  intro hc
  rw [hc us q hus] at hq
  cases hq

/-- The code is free of comments exactly if no slash outside literals has a slash or an asterisk as its
next token; and then it can be made short again. -/
theorem commentless_code_iff (h : minify config text = .ok m) :
    (Commentless m.code ↔ SlashesApartIn text) ∧
      (SlashesApartIn text → ∀ other : Config, other.inputName.isSome →
        ∃ m', minify other m.code = .ok m' ∧ m'.code = m.code) := by
  refine ⟨⟨fun hc => ?_, commentless_code h⟩, fun hs other => exists_minify_code h hs⟩
  by_contra hs
  exact not_commentless_code h hs hc

/-- The comment that stood between the slash and the string is gone, and none has come instead. -/
theorem commentless_code_of_comment :
    ∃ m, minify ⟨some "a.js", none, none⟩ "a / /* b */ '//'" = .ok m ∧ m.code = "a/'//'" ∧
      Commentless m.code ∧ ∃ m', minify ⟨some "b.js", none, none⟩ m.code = .ok m' := by
  have h : (minify ⟨some "a.js", none, none⟩ "a / /* b */ '//'").toOption.map Minified.code =
      some "a/'//'" := by decide +kernel
  have hs : SlashesApartIn "a / /* b */ '//'" := by decide +kernel
  obtain ⟨m, hm, hcode⟩ := exists_of_toOption_eq_some h
  obtain ⟨hiff, hagain⟩ := commentless_code_iff hm
  obtain ⟨m', hm', -⟩ := hagain hs ⟨some "b.js", none, none⟩ rfl
  exact ⟨m, hm, hcode, hiff.mpr hs, m', hm'⟩

/-- Behind a slash that divides, another one is read as an operator too, even if it was meant to open a
regular expression. Without the space between them the two open a comment, and the rest of the line is
lost when the code is made short again. -/
theorem exists_comment_of_slashes :
    ∃ m, minify ⟨some "a.js", none, none⟩ "x = 1 / /a/.y;" = .ok m ∧ m.code = "x=1//a/.y;" ∧
      ¬ Commentless m.code ∧
      ∃ m', minify ⟨some "a.js", none, none⟩ m.code = .ok m' ∧ m'.code = "x=1" := by
  have h : (minify ⟨some "a.js", none, none⟩ "x = 1 / /a/.y;").toOption.map Minified.code =
      some "x=1//a/.y;" := by decide +kernel
  have hagain : (minify ⟨some "a.js", none, none⟩ "x=1//a/.y;").toOption.map Minified.code =
      some "x=1" := by decide +kernel
  have hs : ¬ SlashesApartIn "x = 1 / /a/.y;" := by decide +kernel
  obtain ⟨m, hm, hcode⟩ := exists_of_toOption_eq_some h
  obtain ⟨m', hm', hcode'⟩ := exists_of_toOption_eq_some hagain
  exact ⟨m, hm, hcode, not_commentless_code hm hs, m', by rwa [hcode], hcode'⟩

end Squeeze
