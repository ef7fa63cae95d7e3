import Squeeze.Proofs.OpenLiterals
import Squeeze.Proofs.Reading
import Squeeze.Proofs.Stripping

/-!
# Tokens are those of the grammar

`tokensFrom` divides a script by looking at the front of what is left of it, over and over. The grammar
(`Divided`) only says which divisions are right. On a canonical text there is at most one, and
`tokensFrom` finds it or else there is none (`tokensFrom_eq_ok_iff`).

The grammar is followed from point to point. At each point nothing is left, or a part can be passed,
or something is open that is never closed (`Point.passes_or_unclosed`), and `tokensFrom` does in each
case what the grammar says (`Point.Passes.tokens_eq`, `Point.Unclosed.tokens_eq`).
-/

namespace Squeeze

theorem exists_of_toOption_eq_some {ε α β : Type} {f : α → β} {r : Except ε α} {b : β}
    (h : r.toOption.map f = some b) : ∃ a, r = .ok a ∧ f a = b := by
  cases r with
  | error e => cases h
  | ok a => exact ⟨a, rfl, Option.some.inj h⟩

/-! ## How tokens open -/

theorem opensLiteral_quote {previous : Option Char} {gap : List Piece} {c : Char}
    (hc : c = '\'' ∨ c = '"') : opensLiteral previous gap c = some (.string, .string c) := by
  rw [opensLiteral, if_pos (isQuote_iff.mpr hc)]

theorem opensLiteral_slash {previous : Option Char} {gap : List Piece}
    (hr : regexOpens previous gap = true) :
    opensLiteral previous gap '/' = some (.regex, .regex) := by
  simp [opensLiteral, isQuote, hr]

theorem opensLiteral_eq_none_iff {previous : Option Char} {gap : List Piece} {c : Char} :
    opensLiteral previous gap c = none ↔
      (c ≠ '\'' ∧ c ≠ '"') ∧ (c = '/' → regexOpens previous gap = false) := by
  unfold opensLiteral
  split
  · rename_i h
    rw [isQuote_iff] at h
    simp only [reduceCtorEq, false_iff, not_and]
    intro hq
    rcases h with rfl | rfl <;> simp at hq
  · rename_i h
    rw [isQuote_iff, not_or] at h
    split
    · rename_i hs
      simp [hs]
    · rename_i hs
      rw [not_and, Bool.not_eq_true] at hs
      exact ⟨fun _ => ⟨h, hs⟩, fun _ => rfl⟩

theorem opensLiteral_eq_some {previous : Option Char} {gap : List Piece} {c : Char}
    {kind : TokenKind} {body : Body} (h : opensLiteral previous gap c = some (kind, body)) :
    (kind = .string ∧ body = .string c ∧ (c = '\'' ∨ c = '"')) ∨
      (kind = .regex ∧ body = .regex ∧ c = '/' ∧ regexOpens previous gap = true) := by
  unfold opensLiteral at h
  split at h
  · rename_i hq
    cases h
    exact Or.inl ⟨rfl, rfl, isQuote_iff.mp hq⟩
  · split at h
    · rename_i hs
      cases h
      exact Or.inr ⟨rfl, rfl, hs⟩
    · cases h

theorem of_front_eq_token {cs rest : List Placed} {x : Piece} (hcan : IsCanonical cs)
    (h : front cs = .piece x rest) (hx : x.placed.isBlank = false) :
    ∃ c, x = .read c ∧ cs = c :: rest ∧ opensComment (spelling cs) = false := by
  rcases of_front_eq_piece hcan h with h | ⟨comment, c, rfl, -, -, hc⟩ | ⟨comment, rfl, -⟩
  · exact h
  · simp [Placed.isBlank, hc] at hx
  · simp [Placed.isBlank, Placed.synthetic] at hx

theorem suffix_of_front {cs rest : List Placed} {x : Piece} (hcan : IsCanonical cs)
    (h : front cs = .piece x rest) : rest <:+ cs := by
  rcases of_front_eq_piece hcan h with ⟨c, -, rfl, -⟩ | ⟨comment, c, -, rfl, -⟩ |
    ⟨comment, -, rfl, -⟩
  · exact List.suffix_cons ..
  · exact (List.suffix_cons ..).trans (List.suffix_append ..)
  · exact List.suffix_append ..

theorem scan_closed {previous : Option Char} {gap : List Piece} {c d : Placed} {kind : TokenKind}
    {body : Body} {cs copied after : List Placed} (hcan : IsCanonical cs)
    (hl : opensLiteral previous gap c.char = some (kind, body))
    (hs : scan body cs = ⟨copied, .closed d, after⟩) :
    cs = copied ++ d :: after ∧ d.char = body.closer ∧ d.isBlank = false := by
  rcases opensLiteral_eq_some hl with ⟨rfl, rfl, hq⟩ | ⟨rfl, rfl, -, -⟩
  · obtain ⟨he, -, hd⟩ :=
      (scan_eq_closed_iff (Body.closable_string (isQuote_iff.mpr hq)) hcan).mp hs
    have hclose : d.char = c.char := hd
    rw [← hclose] at hq
    exact ⟨he, hd, Placed.isBlank_of_quote hq⟩
  · obtain ⟨he, -, hd⟩ := (scan_eq_closed_iff Body.closable_regex hcan).mp hs
    exact ⟨he, hd, by simp [Placed.isBlank, hd, Body.closer]⟩

/-! ## One part of the script -/

namespace Point

/-- The tokens from a point on, or why there are none. -/
def tokens (s : Point) : Except Broken (List Token) := tokensFrom s.previous s.gap s.ahead

section Passes

variable {s s' : Point} {t : Option Token} {previous : Option Char} {gap : List Piece}

theorem map_append_none (r : Except Broken (List Token)) :
    r.map ((none : Option Token).toList ++ ·) = r := by
  cases r <;> rfl

/-- A token is told by its first character, and a literal by the scan behind that. -/
theorem Passes.token_cases {u : Token} (h : s.Passes (some u) s') (hcan : IsCanonical s.ahead) :
    ∃ c cs, s.ahead = c :: cs ∧ c.isBlank = false ∧
      ((opensLiteral s.previous s.gap c.char = none ∧ u = ⟨s.gap, .single, c, []⟩ ∧
          s' = ⟨some c.char, [], cs⟩) ∨
        ∃ kind body copied d after, opensLiteral s.previous s.gap c.char = some (kind, body) ∧
          scan body cs = ⟨copied, .closed d, after⟩ ∧ u = ⟨s.gap, kind, c, copied ++ [d]⟩ ∧
          s' = ⟨some d.char, [], after⟩) := by
  cases h with
  | @string _ _ cs quote body close hq hb hc =>
    have hscan : scan (.string quote.char) (body ++ close :: cs) = ⟨body, .closed close, cs⟩ :=
      (scan_eq_closed_iff (Body.closable_string (isQuote_iff.mpr hq))
        (hcan.subset (List.subset_cons_self ..))).mpr ⟨rfl, hb, hc⟩
    exact ⟨quote, _, rfl, Placed.isBlank_of_quote hq, Or.inr ⟨_, _, _, _, _, opensLiteral_quote hq, hscan, rfl, rfl⟩⟩
  | @regex _ _ cs slash body close hs hr hn hb hc =>
    have hblank : slash.isBlank = false := by simp [Placed.isBlank, hs]
    have hscan : scan .regex (body ++ close :: cs) = ⟨body, .closed close, cs⟩ :=
      (scan_eq_closed_iff Body.closable_regex
        (hcan.subset (List.subset_cons_self ..))).mpr ⟨rfl, hb, hc⟩
    exact ⟨slash, _, rfl, hblank,
      Or.inr ⟨_, _, _, _, _, hs ▸ opensLiteral_slash hr, hscan, rfl, rfl⟩⟩
  | single c hblank hquote hr hn =>
    exact ⟨c, _, rfl, Placed.isBlank_eq_false_iff.mpr hblank,
      Or.inl ⟨opensLiteral_eq_none_iff.mpr ⟨hquote, hr⟩, rfl, rfl⟩⟩

/-- What is passed comes first among the tokens. -/
theorem Passes.tokens_eq (h : s.Passes t s') (hcan : IsCanonical s.ahead) :
    s.tokens = s'.tokens.map (t.toList ++ ·) := by
  cases t with
  | none =>
    rw [map_append_none]
    cases h with
    | blank c hc =>
      have hs : c.char ≠ '/' := by rcases hc with h | h <;> simp [h]
      exact tokensFrom_blank (front_cons_of_ne hs) (Placed.isBlank_iff.mpr hc)
    | lineComment comment hc hend =>
      exact tokensFrom_congr
        (front_lineComment hc (hcan.subset (List.subset_append_left ..)) hend)
    | blockComment comment hc => exact tokensFrom_blank (front_blockComment hc) rfl
  | some u =>
    obtain ⟨c, cs, hahead, hblank, hu⟩ := h.token_cases hcan
    have hfront : front s.ahead = .piece (.read c) cs := by
      have hn := h.opensComment_eq_false
      rw [hahead] at hn ⊢
      exact front_cons hn
    rcases hu with ⟨hl, rfl, rfl⟩ | ⟨kind, body, copied, d, after, hl, hs, rfl, rfl⟩
    · exact tokensFrom_single hfront hblank hl
    · exact tokensFrom_closed hfront hblank hl hs

theorem passes_of_scan {c d : Placed} {kind : TokenKind} {body : Body}
    {cs copied after : List Placed} (hcan : IsCanonical cs)
    (hn : opensComment (spelling (c :: cs)) = false)
    (hl : opensLiteral previous gap c.char = some (kind, body))
    (hs : scan body cs = ⟨copied, .closed d, after⟩) :
    Passes ⟨previous, gap, c :: cs⟩ (some ⟨gap, kind, c, copied ++ [d]⟩)
      ⟨some d.char, [], after⟩ := by
  rcases opensLiteral_eq_some hl with ⟨rfl, rfl, hq⟩ | ⟨rfl, rfl, hslash, hr⟩
  · obtain ⟨rfl, hb, hd⟩ :=
      (scan_eq_closed_iff (Body.closable_string (isQuote_iff.mpr hq)) hcan).mp hs
    exact .string c copied d hq hb hd
  · obtain ⟨rfl, hb, hd⟩ := (scan_eq_closed_iff Body.closable_regex hcan).mp hs
    rw [spelling_cons, spelling_append, spelling_cons, opensComment_append] at hn
    exact .regex c copied d hslash hr (by simpa using hn) hb hd

end Passes

/-! ## Something is open -/

section Unclosed

variable {s : Point} {what : Unterminated} {opener : Placed} {previous : Option Char}
  {gap : List Piece}

theorem unclosed_of_scan {c : Placed} {kind : TokenKind} {body : Body} {d : Option Placed}
    {cs copied after : List Placed} (hcan : IsCanonical cs)
    (hn : opensComment (spelling (c :: cs)) = false)
    (hl : opensLiteral previous gap c.char = some (kind, body))
    (hs : scan body cs = ⟨copied, .broken what d, after⟩) :
    Unclosed ⟨previous, gap, c :: cs⟩ what c := by
  obtain ⟨hh, stop, rfl, -, hstop⟩ := hangs_of_scan hcan hs
  rcases opensLiteral_eq_some hl with ⟨rfl, rfl, hq⟩ | ⟨rfl, rfl, hslash, hr⟩
  · obtain ⟨rfl, hb⟩ := hh.breaks
    exact .string c copied stop hq hb hstop
  · rcases hh.breaks with ⟨rfl, hb⟩ | ⟨rfl, before, inside, he, hb, hin⟩
    · exact .regex c copied stop hslash hr hn hb hstop
    · obtain ⟨before, rest, rfl, rfl, hrest⟩ := List.map_eq_append_iff.mp he
      obtain ⟨bracket, inside, rfl, hbracket, rfl⟩ := List.map_eq_cons_iff.mp hrest
      rw [List.append_assoc, List.cons_append] at hn ⊢
      exact .regexClass c before bracket inside stop hslash hr hn hb hbracket hin hstop

theorem tokens_of_hangs {c : Placed} {kind : TokenKind} {body : Body} {inside rest : List Placed}
    (hcan : IsCanonical (inside ++ rest))
    (hn : opensComment (spelling (c :: (inside ++ rest))) = false)
    (hl : opensLiteral previous gap c.char = some (kind, body))
    (hh : body.Hangs what (spelling inside)) (hend : ∀ d ∈ rest.head?, d.char = '\n') :
    tokens ⟨previous, gap, c :: (inside ++ rest)⟩ = .error (what, rest.head?) ∧
      '\n' ∉ spelling (c :: inside) := by
  have hc : c.char ≠ ' ' ∧ c.char ≠ '\n' := by
    rcases opensLiteral_eq_some hl with ⟨-, -, hq | hq⟩ | ⟨-, -, hslash, -⟩
    · simp [hq]
    · simp [hq]
    · simp [hslash]
  have hscan := scan_of_hangs hh rfl (hcan.subset (List.subset_append_left ..)) hend
  refine ⟨tokensFrom_broken (front_cons hn) (Placed.isBlank_eq_false_iff.mpr hc) hl hscan, ?_⟩
  rw [spelling_cons, List.mem_cons, not_or]
  exact ⟨Ne.symm hc.2, hh.newline_not_mem⟩

/-- Where something is open, no tokens are found. The report says what is open; for a literal it also
has the character that ends the line of the opener, if that line does not end with the script. -/
theorem Unclosed.tokens_eq (h : s.Unclosed what opener) (hcan : IsCanonical s.ahead) :
    (what = .comment ∧ s.tokens = .error (what, none)) ∨
      (what ≠ .comment ∧ ∃ line rest, s.ahead = opener :: (line ++ rest) ∧
        '\n' ∉ spelling (opener :: line) ∧ s.tokens = .error (what, rest.head?)) := by
  cases h with
  | comment _ star body hs ht hb =>
    exact Or.inl ⟨rfl, tokensFrom_openComment
      (front_openBlock hs ht (throughBlock_eq_none_iff.mpr hb))⟩
  | string _ inside rest hq hb hend =>
    have hs : opener.char ≠ '/' := by rcases hq with h | h <;> simp [h]
    have hescape : opener.char ≠ '\\' := by rcases hq with h | h <;> simp [h]
    obtain ⟨htokens, hline⟩ := tokens_of_hangs (hcan.subset (List.subset_cons_self ..))
      (opensComment_of_ne hs _) (opensLiteral_quote hq) (hangs_string hescape hb) hend
    exact Or.inr ⟨by simp, inside, rest, rfl, hline, htokens⟩
  | regex _ inside rest hs hr hn hb hend =>
    obtain ⟨htokens, hline⟩ := tokens_of_hangs (hcan.subset (List.subset_cons_self ..)) hn
      (hs ▸ opensLiteral_slash hr) (hangs_regex hb) hend
    exact Or.inr ⟨by simp, inside, rest, rfl, hline, htokens⟩
  | regexClass _ before bracket inside rest hs hr hn hbefore hbracket hb hend =>
    have hh : Body.regex.Hangs .regexClass (spelling (before ++ bracket :: inside)) := by
      rw [spelling_append, spelling_cons, hbracket]
      exact hangs_regex_of_class hbefore hb
    have he : before ++ bracket :: (inside ++ rest) = (before ++ bracket :: inside) ++ rest := by
      simp
    rw [he] at hn hcan ⊢
    obtain ⟨htokens, hline⟩ := tokens_of_hangs (hcan.subset (List.subset_cons_self ..)) hn
      (hs ▸ opensLiteral_slash hr) hh hend
    exact Or.inr ⟨by simp, before ++ bracket :: inside, rest, rfl, hline, htokens⟩

end Unclosed

/-! ## Nothing else can be -/

theorem passes_or_unclosed_block {previous : Option Char} {gap : List Piece} {slash star : Placed}
    {cs : List Placed} (hs : slash.char = '/') (ht : star.char = '*') :
    (∃ t s', Passes ⟨previous, gap, slash :: star :: cs⟩ t s') ∨
      Unclosed ⟨previous, gap, slash :: star :: cs⟩ .comment slash := by
  rcases hb : throughBlock cs with _ | ⟨inside, after⟩
  · exact Or.inr (.comment slash star cs hs ht (throughBlock_eq_none_iff.mp hb))
  · obtain ⟨rfl, hcloses⟩ := throughBlock_eq_some_iff.mp hb
    have hc : IsBlockComment (spelling (slash :: star :: inside)) :=
      isBlockComment_iff.mpr ⟨spelling inside, by simp [hs, ht], hcloses⟩
    exact Or.inl ⟨_, _, .blockComment (slash :: star :: inside) hc⟩

theorem passes_or_unclosed_cons {previous : Option Char} {gap : List Piece} {c : Placed}
    {cs : List Placed} (hcan : IsCanonical cs) (hn : opensComment (spelling (c :: cs)) = false) :
    (∃ t s', Passes ⟨previous, gap, c :: cs⟩ t s') ∨
      ∃ what, Unclosed ⟨previous, gap, c :: cs⟩ what c := by
  by_cases hb : c.isBlank = true
  · exact Or.inl ⟨_, _, .blank c (Placed.isBlank_iff.mp hb)⟩
  rw [Bool.not_eq_true, Placed.isBlank_eq_false_iff] at hb
  rcases hl : opensLiteral previous gap c.char with _ | ⟨kind, body⟩
  · obtain ⟨hquote, hr⟩ := opensLiteral_eq_none_iff.mp hl
    exact Or.inl ⟨_, _, .single c hb hquote hr hn⟩
  rcases hs : scan body cs with ⟨copied, d | ⟨what, d⟩, after⟩
  · exact Or.inl ⟨_, _, passes_of_scan hcan hn hl hs⟩
  · exact Or.inr ⟨what, unclosed_of_scan hcan hn hl hs⟩

/-- Before the end of the script a part can be passed, or something is open. -/
theorem passes_or_unclosed {s : Point} (hcan : IsCanonical s.ahead) :
    s.ahead = [] ∨ (∃ t s', s.Passes t s') ∨ ∃ what opener, s.Unclosed what opener := by
  obtain ⟨previous, gap, cs⟩ := s
  rcases opening_cases cs with rfl | ⟨c, cs, rfl, hn⟩ | ⟨a, b, cs, rfl, ha, hb⟩ |
    ⟨a, b, cs, rfl, ha, hb⟩
  · exact Or.inl rfl
  · right
    exact (passes_or_unclosed_cons (hcan.subset (List.subset_cons_self ..)) hn).imp_right
      fun ⟨what, h⟩ => ⟨what, c, h⟩
  · obtain ⟨comment, he, hcomment, hend⟩ := exists_lineComment ha hb cs
    rw [he] at hcan ⊢
    refine Or.inr (Or.inl ⟨_, _, .lineComment comment hcomment fun c hc => ?_⟩)
    exact hcan c (List.mem_append_right _ (List.mem_of_mem_head? hc)) (hend c hc)
  · right
    exact (passes_or_unclosed_block ha hb).imp_right fun h => ⟨.comment, a, h⟩

/-! ## The whole script -/

/-- The tokens that are read on the way to a point come before those that are found from there. -/
theorem Reads.tokens_eq {s s' : Point} {ts : List Token} (h : s.Reads ts s')
    (hcan : IsCanonical s.ahead) : s.tokens = s'.tokens.map (ts ++ ·) := by
  induction h with
  | here s => rcases s.tokens with b | us <;> rfl
  | @onward s s' s'' t ts h _ ih =>
    rw [h.tokens_eq hcan, ih (hcan.subset h.suffix.subset)]
    rcases s''.tokens with b | us
    · rfl
    · simp [Except.map]

theorem tokens_ended {s : Point} (h : s.ahead = []) : s.tokens = .ok [] := by
  rw [tokens, h]
  exact tokensFrom_ended rfl

/-- A script is read to its end, or up to something that is open. -/
theorem exists_reads {s : Point} (hcan : IsCanonical s.ahead) :
    ∃ ts s', s.Reads ts s' ∧ (s'.ahead = [] ∨ ∃ what opener, s'.Unclosed what opener) := by
  induction hn : s.ahead.length using Nat.strongRecOn generalizing s with
  | ind n ih =>
    rcases passes_or_unclosed hcan with h | ⟨t, s', h⟩ | h
    · exact ⟨[], s, .here s, Or.inl h⟩
    · obtain ⟨ts, s'', hr, hend⟩ := ih _ (hn ▸ h.length_lt) (hcan.subset h.suffix.subset) rfl
      exact ⟨t.toList ++ ts, s'', .onward h hr, hend⟩
    · exact ⟨[], s, .here s, Or.inr h⟩

end Point

section Tokens

variable {previous : Option Char} {gap : List Piece} {cs : List Placed} {ts us : List Token}

theorem Divided.tokensFrom_eq (h : Divided previous gap cs ts) (hcan : IsCanonical cs) :
    tokensFrom previous gap cs = .ok ts := by
  obtain ⟨s', hr, hend⟩ := h.readsAll
  have htokens := hr.tokens_eq hcan
  rw [Point.tokens_ended hend] at htokens
  rw [← List.append_nil ts]
  exact htokens

theorem divided_of_tokensFrom (hcan : IsCanonical cs) (h : tokensFrom previous gap cs = .ok ts) :
    Divided previous gap cs ts := by
  obtain ⟨us, s', hr, hend⟩ := Point.exists_reads (s := ⟨previous, gap, cs⟩) hcan
  rcases hend with hend | ⟨what, opener, hopen⟩
  · have hdiv : Divided previous gap cs us := Point.ReadsAll.divided ⟨s', hr, hend⟩
    rw [hdiv.tokensFrom_eq hcan] at h
    exact Except.ok.inj h ▸ hdiv
  · -- something is open, so no tokens are found
    have htokens : Point.tokens ⟨previous, gap, cs⟩ = .ok ts := h
    rw [hr.tokens_eq hcan] at htokens
    rcases hopen.tokens_eq (hcan.subset hr.suffix.subset) with ⟨-, he⟩ | ⟨-, _, _, -, -, he⟩ <;>
      rw [he] at htokens <;> cases htokens

/-- The grammar divides a canonical text in one way only. -/
theorem Divided.unique (ht : Divided previous gap cs ts) (hu : Divided previous gap cs us)
    (hcan : IsCanonical cs) : ts = us := by
  have h := ht.tokensFrom_eq hcan
  rw [hu.tokensFrom_eq hcan] at h
  exact (Except.ok.inj h).symm

/-- The tokens that are found in a script are those that the grammar gives it. -/
theorem tokensFrom_eq_ok_iff (hcan : IsCanonical cs) :
    tokensFrom previous gap cs = .ok ts ↔ Divided previous gap cs ts :=
  ⟨divided_of_tokensFrom hcan, fun h => h.tokensFrom_eq hcan⟩

theorem divided_of_tokens_eq {text : String}
    (h : (tokens (placedText text)).toOption = some ts) : Divided none [] (placedText text) ts := by
  refine divided_of_tokensFrom (isCanonical_placedText text) ?_
  show tokens (placedText text) = .ok ts
  rcases ht : tokens (placedText text) with b | us <;> rw [ht] at h <;> cases h
  rfl

end Tokens

end Squeeze
