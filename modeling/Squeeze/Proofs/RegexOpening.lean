import Mathlib.Logic.Relation
import Squeeze.Proofs.Joining
import Squeeze.Proofs.Relexing

/-!
# Where a regular expression opens

A slash opens a regular expression or divides, and the rule looks at the nearest logical character
before it that is no space: there must be none, or a line end, or one that awaits an operand
(`opensRegexBehind`). The scanner looks at the current character instead, and that may be an earlier
one. A line end that could not end a statement is skipped, and with it is lost that it came
(`losesBreak`). In every other place the two agree.

A slash comes into view in one window of a run (`Shown.unique`), and it comes into view there whenever
the grammar reads the script up to it (`Point.Reads.exists_shown`). Whether the script can be divided
to its end does not matter.
-/

namespace Squeeze

open Relation

/-! ## The windows of a run -/

namespace Window

variable {source text : String} {v v' w w' : Window} {c d : Placed}

theorem shift_suffix (h : w.shift = .ok v) : v.reader.stream <:+ w.reader.stream := by
  unfold shift at h
  split at h
  · cases h
    exact List.suffix_rfl
  split at h
  · unfold copyString Reader.copyBody at h
    dsimp only at h
    split at h <;> cases h
    exact scan_suffix ..
  · cases h
    exact List.suffix_rfl

theorem turn_suffix (h : w.turn c = .ok v) : v.reader.stream <:+ w.reader.stream := by
  unfold turn at h
  split at h
  · have hs := shift_suffix h
    exact hs
  · exact shift_suffix h
  · cases h
    exact List.suffix_rfl

theorem passRegex_suffix (h : w.passRegex = .ok v) : v.reader.stream <:+ w.reader.stream := by
  unfold passRegex Reader.copyBody at h
  dsimp only at h
  split at h <;> cases h
  exact scan_suffix ..

/-- What comes into view is taken from the front of the stream. -/
theorem look_cases (h : v.look = .ok w) :
    w.next = none ∧ w.reader.stream = [] ∨
      ∃ x, w.next = some x.placed ∧ front v.reader.stream = .piece x w.reader.stream := by
  obtain ⟨r, o, current, next⟩ := v
  rcases hf : front r.stream with _ | ⟨x, rest⟩ | _
  · rw [look_ended hf] at h
    cases h
    exact Or.inl ⟨rfl, rfl⟩
  · obtain ⟨r', ha, hlook⟩ := @look_piece r o current next x rest hf
    rw [hlook] at h
    cases h
    exact Or.inr ⟨x, rfl, by rw [ha.stream_eq]⟩
  · rw [look_openComment hf] at h
    cases h

theorem look_suffix (h : v.look = .ok w) (hcan : IsCanonical v.reader.stream) :
    w.reader.stream <:+ v.reader.stream := by
  rcases look_cases h with ⟨-, he⟩ | ⟨x, -, hf⟩
  · rw [he]
    exact List.nil_suffix
  · exact suffix_of_front hcan hf

theorem stream_of_look (h : v.look = .ok w) (hcan : IsCanonical v.reader.stream)
    (hw : w.next = some d) (hd : d.isBlank = false) : v.reader.stream = d :: w.reader.stream := by
  rcases look_cases h with ⟨hn, -⟩ | ⟨x, hx, hf⟩
  · rw [hw] at hn
    cases hn
  · obtain rfl : d = x.placed := Option.some.inj (hw.symm.trans hx)
    obtain ⟨c, rfl, hc, -⟩ := of_front_eq_token hcan hf hd
    exact hc

/-- A run goes one way. -/
theorem Leads.rightUnique : Relator.RightUnique Leads := by
  intro v w w' h h'
  cases h with
  | turn hw ho hc ht =>
    cases h' with
    | turn hw' _ hc' ht' =>
      cases hw.symm.trans hw'
      cases hc.symm.trans hc'
      cases ht.symm.trans ht'
      rfl
    | regex hw' ho' _ =>
      cases hw.symm.trans hw'
      cases ho.symm.trans ho'
  | regex hw ho hr =>
    cases h' with
    | turn hw' ho' _ _ =>
      cases hw.symm.trans hw'
      cases ho.symm.trans ho'
    | regex hw' _ hr' =>
      cases hw.symm.trans hw'
      cases hr.symm.trans hr'
      rfl

/-- What has come into view is behind when the next character is about to. -/
theorem Leads.suffix (h : v.Leads v') (hw : v.look = .ok w) :
    v'.reader.stream <:+ w.reader.stream := by
  cases h with
  | turn hw' _ _ ht =>
    cases hw.symm.trans hw'
    exact turn_suffix ht
  | regex hw' _ hr =>
    cases hw.symm.trans hw'
    exact passRegex_suffix hr

theorem suffix_of_leads (h : ReflTransGen Leads v v') (hcan : IsCanonical v.reader.stream) :
    v'.reader.stream <:+ v.reader.stream := by
  induction h with
  | refl => exact List.suffix_rfl
  | @tail u u' _ h ih =>
    obtain ⟨w, hw⟩ : ∃ w, u.look = .ok w := by
      cases h with
      | turn hw | regex hw => exact ⟨_, hw⟩
    exact ((h.suffix hw).trans (look_suffix hw (hcan.subset ih.subset))).trans ih

theorem proceed_of_leads (h : ReflTransGen Leads v v') : v.proceed = v'.proceed := by
  induction h with
  | refl => rfl
  | tail _ h ih => rw [ih, h.proceed_eq]

/-- In the run on a script the window `w` comes about: the next logical character has just come into view,
and nothing has been done about it yet. -/
def Shown (source text : String) (w : Window) : Prop :=
  ∃ v, ReflTransGen Leads (.ofReader (.ofText source text)) v ∧ v.look = .ok w

/-- The run goes on from there, and copies a regular expression if the next character opens one. -/
theorem Shown.squeeze_eq (h : Shown source text w) :
    squeeze source text = if w.opensRegex then w.copyRegex >>= run else w.run := by
  obtain ⟨v, hv, hw⟩ := h
  rw [squeeze_eq_proceed, proceed_of_leads hv, proceed, refill_eq, hw]
  show (ite _ _ _ >>= run) = _
  split <;> rfl

/-- A character that has come into view does not come again. -/
theorem eq_of_leads (h : ReflTransGen Leads v v') (hcan : IsCanonical v.reader.stream)
    (hnodup : v.reader.stream.Nodup) (hw : v.look = .ok w) (hw' : v'.look = .ok w')
    (hd : d.isBlank = false) (hn : w.next = some d) (hn' : w'.next = some d) : w = w' := by
  rcases h.cases_head with rfl | ⟨u, hvu, huv'⟩
  · cases hw.symm.trans hw'
    rfl
  · -- what comes into view later is behind the character, and it comes only once in the stream
    have hu : u.reader.stream <:+ w.reader.stream := hvu.suffix hw
    have hcanu := hcan.subset (hu.trans (look_suffix hw hcan)).subset
    have hv' : v'.reader.stream <:+ u.reader.stream := suffix_of_leads huv' hcanu
    have hmem : d ∈ v'.reader.stream := by
      rw [stream_of_look hw' (hcanu.subset hv'.subset) hn' hd]
      exact List.mem_cons_self ..
    rw [stream_of_look hw hcan hn hd] at hnodup
    exact absurd ((hv'.trans hu).subset hmem) (List.nodup_cons.mp hnodup).1

/-- No character comes into view in two windows of a run. -/
theorem Shown.unique (h : Shown source text w) (h' : Shown source text w') (hd : d.isBlank = false)
    (hn : w.next = some d) (hn' : w'.next = some d) : w = w' := by
  have hcan := isCanonical_placedText text
  have hnodup : (placedText text).Nodup := nodup_place _ _
  obtain ⟨v, hv, hw⟩ := h
  obtain ⟨v', hv', hw'⟩ := h'
  have hsuffix : v.reader.stream <:+ placedText text := suffix_of_leads hv hcan
  have hsuffix' : v'.reader.stream <:+ placedText text := suffix_of_leads hv' hcan
  rcases ReflTransGen.total_of_right_unique Leads.rightUnique hv hv' with hlead | hlead
  · exact eq_of_leads hlead (hcan.subset hsuffix.subset) (hsuffix.sublist.nodup hnodup) hw hw' hd hn
      hn'
  · exact (eq_of_leads hlead (hcan.subset hsuffix'.subset) (hsuffix'.sublist.nodup hnodup) hw' hw hd
      hn' hn).symm

/-! ## Following the grammar -/

/-- The window `v` is about to let in what comes next at the point `s` of a script. -/
def At (v : Window) (s : Point) : Prop :=
  ∃ c full, v.current = some c ∧ Holds v.output c s.previous s.gap full ∧
    front v.reader.stream = front s.ahead

variable {s s' : Point} {t : Option Token} {ts : List Token}

theorem at_start (source text : String) :
    At (.ofReader (.ofText source text)) (.start (placedText text)) :=
  ⟨_, _, rfl, .start rfl rfl, rfl⟩

theorem At.blank {x : Piece} {rest : List Placed} (h : v.At s) (hf : front s.ahead = .piece x rest)
    (hx : x.placed.isBlank = true) :
    ∃ v', v.Leads v' ∧ v'.At ⟨s.previous, s.gap ++ [x], rest⟩ := by
  obtain ⟨c, full, hcur, hholds, hfront⟩ := h
  obtain ⟨r, o, current, next⟩ := v
  obtain rfl : current = some c := hcur
  obtain ⟨r', o', c', ha, hholds', hleads⟩ := hholds.leads_blank (hfront.trans hf) hx next
  exact ⟨_, hleads, c', full, rfl, hholds', by rw [ha.stream_eq]⟩

theorem At.token {u : Token} (h : v.At s) (hp : s.Passes (some u) s')
    (hcan : IsCanonical s.ahead) : ∃ v', v.Leads v' ∧ v'.At s' := by
  obtain ⟨c, full, hcur, hholds, hfront⟩ := h
  obtain ⟨r, o, current, next⟩ := v
  obtain rfl : current = some c := hcur
  obtain ⟨d, rest, hahead, hd, hu⟩ := hp.token_cases hcan
  have hn := hp.opensComment_eq_false
  rw [hahead] at hfront hn hcan
  have hf := hfront.trans (front_cons hn)
  rcases hu with ⟨hl, rfl, rfl⟩ | ⟨kind, body, copied, e, after, hl, hs, rfl, rfl⟩
  · obtain ⟨r', ha, hleads⟩ := hholds.leads_single hf hd hl next
    exact ⟨_, hleads, d, _, rfl, holds_of_not_blank _ hd, by rw [ha.stream_eq]⟩
  · obtain ⟨-, -, he⟩ := scan_closed (hcan.subset (List.subset_cons_self ..)) hl hs
    obtain ⟨r', ha, hleads⟩ := hholds.leads_literal hf hd hl hs next
    exact ⟨_, hleads, e, _, rfl, holds_of_not_blank _ he, by rw [ha.stream_eq]⟩

/-- What the grammar passes the window passes too, in one step. A line comment it does not even see. -/
theorem At.passes (h : v.At s) (hp : s.Passes t s') (hcan : IsCanonical s.ahead) :
    ∃ v', ReflTransGen Leads v v' ∧ v'.At s' := by
  rcases t with _ | u
  · cases hp with
    | blank c hc =>
      have hslash : c.char ≠ '/' := by rcases hc with hc | hc <;> simp [hc]
      obtain ⟨v', hleads, h'⟩ := h.blank (front_cons_of_ne hslash) (Placed.isBlank_iff.mpr hc)
      exact ⟨v', .single hleads, h'⟩
    | lineComment comment hc hend =>
      obtain ⟨c, full, hcur, hholds, hfront⟩ := h
      have hskip := front_lineComment hc (hcan.subset (List.subset_append_left ..)) hend
      exact ⟨v, .refl, c, full, hcur, hholds, hfront.trans hskip⟩
    | blockComment comment hc =>
      obtain ⟨v', hleads, h'⟩ := h.blank (front_blockComment hc) rfl
      exact ⟨v', .single hleads, h'⟩
  · obtain ⟨v', hleads, h'⟩ := h.token hp hcan
    exact ⟨v', .single hleads, h'⟩

theorem At.reads (h : v.At s) (hr : s.Reads ts s') (hcan : IsCanonical s.ahead) :
    ∃ v', ReflTransGen Leads v v' ∧ v'.At s' := by
  induction hr generalizing v with
  | here s => exact ⟨v, .refl, h⟩
  | onward hp _ ih =>
    obtain ⟨u, hvu, hu⟩ := h.passes hp hcan
    obtain ⟨v', huv', h'⟩ := ih hu (hcan.subset hp.suffix.subset)
    exact ⟨v', hvu.trans huv', h'⟩

end Window

/-- A slash that opens no comment comes into view, and the scanner knows of it what the grammar says. -/
theorem Point.Reads.exists_shown {text : String} {ts : List Token} {s : Point} {slash : Placed}
    {rest : List Placed} (hr : (Point.start (placedText text)).Reads ts s)
    (hs : s.ahead = slash :: rest) (hslash : slash.char = '/')
    (hn : opensComment (spelling s.ahead) = false) (source : String) :
    ∃ w, Window.Shown source text w ∧ w.next = some slash ∧
      w.opensRegex = regexOpens s.previous s.gap := by
  obtain ⟨v, hv, c, full, hcur, hholds, hfront⟩ :=
    (Window.at_start source text).reads hr (isCanonical_placedText text)
  obtain ⟨r, o, current, next⟩ := v
  obtain rfl : current = some c := hcur
  rw [hs] at hfront hn
  obtain ⟨r', -, hlook⟩ := Window.look_piece (hfront.trans (front_cons hn))
  exact ⟨_, ⟨_, hv, hlook⟩, rfl, hholds.opensRegex_eq hslash r'⟩

/-! ## What comes before a point -/

/-- The logical characters of some tokens and of the blanks behind them. Of comments there is at most a
space. -/
def logicalText (ts : List Token) (gap : List Piece) : List Char :=
  ts.flatMap (fun t => spelling (t.gap.map Piece.placed) ++ spelling t.chars) ++
    spelling (gap.map Piece.placed)

/-- The last of some characters that is as `p` says. -/
def nearest (p : Char → Bool) (cs : List Char) : Option Char := cs.reverse.find? p

theorem nearest_append (p : Char → Bool) (cs ds : List Char) :
    nearest p (cs ++ ds) = (nearest p ds).or (nearest p cs) := by
  simp [nearest]

theorem nearest_of_getLast? {p : Char → Bool} {c : Char} {cs : List Char}
    (h : cs.getLast? = some c) (hc : p c = true) : nearest p cs = some c := by
  obtain ⟨ds, rfl⟩ := List.getLast?_eq_some_iff.mp h
  simp [nearest, hc]

/-- Whether a regular expression may open behind some characters: the nearest one that is no space is a line
end or awaits an operand, or there is none. -/
def opensRegexBehind (cs : List Char) : Bool := (nearest (· ≠ ' ') cs).all opensRegexAfter

/-- Whether a line end comes last, apart from spaces, behind a character that neither awaits an operand nor
can end a statement. -/
def losesBreak (cs : List Char) : Bool :=
  nearest (· ≠ ' ') cs = some '\n' &&
    (nearest (fun c => c ≠ ' ' && c ≠ '\n') cs).any fun c => !opensRegexAfter c && !endsStatement c

section Gap

variable {gap : List Piece}

theorem AllBlank.of_mem_spelling (hgap : AllBlank gap) {c : Char}
    (hc : c ∈ spelling (gap.map Piece.placed)) : c = ' ' ∨ c = '\n' := by
  rw [spelling, List.map_map] at hc
  obtain ⟨x, hx, rfl⟩ := List.mem_map.mp hc
  exact Placed.isBlank_iff.mp (hgap x hx)

theorem hasBreak_iff (hgap : AllBlank gap) :
    hasBreak gap = true ↔ '\n' ∈ spelling (gap.map Piece.placed) := by
  rw [hasBreak, List.any_eq_true, spelling, List.map_map, List.mem_map]
  constructor
  · rintro ⟨x, hx, ht⟩
    exact ⟨x, hx, Placed.char_eq_newline (hgap x hx) ht⟩
  · rintro ⟨x, hx, hc⟩
    exact ⟨x, hx, Placed.isTerminator_of_char hc⟩

theorem AllBlank.nearest_eq (hgap : AllBlank gap) :
    nearest (· ≠ ' ') (spelling (gap.map Piece.placed)) =
      if hasBreak gap then some '\n' else none := by
  rcases hn : nearest (· ≠ ' ') (spelling (gap.map Piece.placed)) with _ | c
  · have hb : ¬ hasBreak gap = true := by
      intro hb
      have hmem := List.mem_reverse.mpr ((hasBreak_iff hgap).mp hb)
      exact absurd (List.find?_eq_none.mp hn _ hmem) (by decide)
    rw [if_neg hb]
  · have hmem := List.mem_reverse.mp (List.mem_of_find?_eq_some hn)
    have hne : c ≠ ' ' := by simpa using List.find?_some hn
    obtain rfl := (hgap.of_mem_spelling hmem).resolve_left hne
    rw [if_pos ((hasBreak_iff hgap).mpr hmem)]

theorem AllBlank.nearest_eq_none (hgap : AllBlank gap) :
    nearest (fun c => c ≠ ' ' && c ≠ '\n') (spelling (gap.map Piece.placed)) = none := by
  refine List.find?_eq_none.mpr ?_
  intro c hc
  rcases hgap.of_mem_spelling (List.mem_reverse.mp hc) with rfl | rfl <;> decide

end Gap

namespace Point

variable {s s' : Point} {t : Token} {ts : List Token}

/-- Before a point nothing is nearer than the last character of the token before, except for blanks. -/
theorem Reads.nearest_logicalText {cs : List Placed} (h : (Point.start cs).Reads ts s)
    (p : Char → Bool) (hp : ∀ c, c ≠ ' ' ∧ c ≠ '\n' → p c = true) :
    nearest p (logicalText ts s.gap) =
      (nearest p (spelling (s.gap.map Piece.placed))).or s.previous := by
  rw [logicalText, nearest_append]
  congr 1
  rw [h.previous_eq, lastChar_eq]
  rcases List.eq_nil_or_concat ts with rfl | ⟨us, t, rfl⟩
  · rfl
  · have hlast := ((h.blanks allBlank_nil).2 t (by simp)).2
    rw [List.concat_eq_append, List.getLast?_concat]
    refine nearest_of_getLast? ?_ (hp _ (Placed.isBlank_eq_false_iff.mp hlast))
    simp [t.getLast?_spelling]

/-- Whether a regular expression opens at a point can be told from the characters before it. -/
theorem Reads.regexOpens_eq {cs : List Placed} (h : (Point.start cs).Reads ts s) :
    regexOpens s.previous s.gap =
      (opensRegexBehind (logicalText ts s.gap) && !losesBreak (logicalText ts s.gap)) := by
  have hgap := (h.blanks allBlank_nil).1
  have hnear := h.nearest_logicalText (· ≠ ' ') fun c hc => by simp [hc.1]
  have hvisible := h.nearest_logicalText (fun c => c ≠ ' ' && c ≠ '\n') fun c hc => by simp [hc]
  rw [hgap.nearest_eq] at hnear
  rw [hgap.nearest_eq_none, Option.none_or] at hvisible
  have hline : opensRegexAfter '\n' = true := by decide
  rw [opensRegexBehind, losesBreak, hnear, hvisible]
  rcases hprevious : s.previous with _ | p
  · cases hasBreak s.gap <;> simp [regexOpens, hline]
  · have hp : p ≠ ' ' ∧ p ≠ '\n' := by
      simpa using List.find?_some (hvisible.trans hprevious)
    rw [regexOpens, ← opensRegexAfter_eq hp.2]
    cases hasBreak s.gap <;> simp [hline, hp.2]

end Point

/-- The point before one of the tokens of a script. -/
theorem exists_reads_getElem {text : String} {k : Nat} {c : Char} {cs : List Char}
    (h : (tokens (placedText text)).toOption.bind (fun ts => ts[k]?.map fun t =>
      (t.first.char, logicalText (ts.take k) t.gap)) = some (c, cs)) :
    ∃ ts s d rest, (Point.start (placedText text)).Reads ts s ∧ s.ahead = d :: rest ∧ d.char = c ∧
      opensComment (spelling s.ahead) = false ∧ logicalText ts s.gap = cs := by
  have hcan := isCanonical_placedText text
  obtain ⟨us, hus, h⟩ := Option.bind_eq_some_iff.mp h
  obtain ⟨t, ht, h⟩ := Option.map_eq_some_iff.mp h
  obtain ⟨rfl, rfl⟩ := Prod.mk.inj h
  obtain ⟨hk, rfl⟩ := List.getElem?_eq_some_iff.mp ht
  obtain ⟨s', hr, -⟩ := (divided_of_tokens_eq hus).readsAll
  have hsplit : us = us.take k ++ us[k] :: us.drop (k + 1) := by simp
  obtain ⟨s, q, hr', hp⟩ := hr.exists_passes hsplit
  obtain ⟨d, rest, hahead, -, hd⟩ := hp.token_cases (hcan.subset hr'.suffix.subset)
  refine ⟨us.take k, s, d, rest, hr', hahead, ?_, hp.opensComment_eq_false, by rw [hp.token_eq.1]⟩
  rcases hd with ⟨-, hd, -⟩ | ⟨_, _, _, _, _, -, -, hd, -⟩ <;> rw [hd]

/-! ## The rule and the scanner -/

/-- A slash outside literals and comments comes into view once. It is then taken to open a regular
expression if the rule says so of the characters before it, unless a line end among them is lost; and the
run goes on with copying the regular expression, or as with any other character. -/
theorem opensRegex_iff {source text : String} {ts : List Token} {s : Point} {slash : Placed}
    {rest : List Placed} (hr : (Point.start (placedText text)).Reads ts s)
    (hs : s.ahead = slash :: rest) (hslash : slash.char = '/')
    (hn : opensComment (spelling s.ahead) = false) :
    (∃ w, Window.Shown source text w ∧ w.next = some slash) ∧
      ∀ w, Window.Shown source text w → w.next = some slash →
        (w.opensRegex = true ↔
          opensRegexBehind (logicalText ts s.gap) ∧ ¬ losesBreak (logicalText ts s.gap)) ∧
        squeeze source text = if w.opensRegex then w.copyRegex >>= Window.run else w.run := by
  obtain ⟨w, hw, hnext, hopens⟩ := hr.exists_shown hs hslash hn source
  refine ⟨⟨w, hw, hnext⟩, ?_⟩
  intro w' hw' hnext'
  have hblank : slash.isBlank = false := by simp [Placed.isBlank, hslash]
  obtain rfl := hw.unique hw' hblank hnext hnext'
  refine ⟨?_, hw.squeeze_eq⟩
  rw [hopens, hr.regexOpens_eq, Bool.and_eq_true, Bool.not_eq_true', Bool.not_eq_true]

/-- The line end counts although comments and blanks stand behind it. -/
theorem opensRegex_of_comment :
    ∃ ts s slash rest, (Point.start (placedText "a //b\n /*c*/ /d/")).Reads ts s ∧
      s.ahead = slash :: rest ∧ slash.char = '/' ∧ opensComment (spelling s.ahead) = false ∧
      logicalText ts s.gap = ['a', ' ', '\n', ' ', ' ', ' '] ∧
      (∃ w, Window.Shown "a.js" "a //b\n /*c*/ /d/" w ∧ w.next = some slash) ∧
      ∀ w, Window.Shown "a.js" "a //b\n /*c*/ /d/" w → w.next = some slash →
        (w.opensRegex = true ↔
          opensRegexBehind (logicalText ts s.gap) ∧ ¬ losesBreak (logicalText ts s.gap)) ∧
        squeeze "a.js" "a //b\n /*c*/ /d/" =
          if w.opensRegex then w.copyRegex >>= Window.run else w.run := by
  have h : (tokens (placedText "a //b\n /*c*/ /d/")).toOption.bind (fun ts => ts[1]?.map fun t =>
      (t.first.char, logicalText (ts.take 1) t.gap)) =
        some ('/', ['a', ' ', '\n', ' ', ' ', ' ']) := by decide +kernel
  obtain ⟨ts, s, slash, rest, hr, hs, hslash, hn, hbefore⟩ := exists_reads_getElem h
  exact ⟨ts, s, slash, rest, hr, hs, hslash, hn, hbefore, opensRegex_iff hr hs hslash hn⟩

/-- Behind a character that can not end a statement the line end does not count, and a slash is taken for a
division. -/
theorem exists_opensRegex_eq_false :
    ∃ ts s slash rest, (Point.start (placedText "a = b *\n/c")).Reads ts s ∧
      s.ahead = slash :: rest ∧ slash.char = '/' ∧ opensComment (spelling s.ahead) = false ∧
      nearest (· ≠ ' ') (logicalText ts s.gap) = some '\n' ∧
      (∃ w, Window.Shown "a.js" "a = b *\n/c" w ∧ w.next = some slash ∧ w.opensRegex = false) ∧
      ∃ m, minify ⟨some "a.js", none, none⟩ "a = b *\n/c" = .ok m ∧ m.code = "a=b*/c" := by
  have h : (tokens (placedText "a = b *\n/c")).toOption.bind (fun ts => ts[4]?.map fun t =>
      (t.first.char, logicalText (ts.take 4) t.gap)) =
        some ('/', ['a', ' ', '=', ' ', 'b', ' ', '*', '\n']) := by decide +kernel
  have hcode : (minify ⟨some "a.js", none, none⟩ "a = b *\n/c").toOption.map Minified.code =
      some "a=b*/c" := by decide +kernel
  obtain ⟨ts, s, slash, rest, hr, hs, hslash, hn, hbefore⟩ := exists_reads_getElem h
  obtain ⟨w, hw, hnext, hopens⟩ := hr.exists_shown hs hslash hn "a.js"
  have hfalse : w.opensRegex = false := by
    rw [hopens, hr.regexOpens_eq, hbefore]
    decide
  exact ⟨ts, s, slash, rest, hr, hs, hslash, hn, by rw [hbefore]; decide, ⟨w, hw, hnext, hfalse⟩,
    exists_of_toOption_eq_some hcode⟩

end Squeeze
