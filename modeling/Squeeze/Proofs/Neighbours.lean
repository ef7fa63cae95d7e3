import Mathlib.Data.List.Nodup
import Squeeze.Proofs.Joining
import Squeeze.Proofs.Provenance
import Squeeze.Proofs.Relexing

/-!
# What is written between two tokens

The mappings tell where a token stands in the output: they lead to its characters, and no others do. So
of two consecutive tokens it can be said what stands between them (`Minified.Between`), and it is one
text and no other (`between_iff`). It depends on the last character of the first token, on the first
character of the second one, and on what the gap has in it, a line end or anything at all.

That is less than what keeps tokens apart depends on. The closing quote of a string counts only if it is
a double one, and the slash that closes a regular expression counts as a division. After such a token
a line end is lost that ends a statement, and two tokens come together that are read as another one.
-/

namespace Squeeze

/-- The token `t` is written behind the text `front`: its characters stand there, and the mappings
lead from there to where they were read. -/
structure Minified.Writes (m : Minified) (front : List Char) (t : Token) : Prop where
  spelled : front ++ spelling t.chars <+: m.code.toList
  mapped : mappingsAlong (Position.start.advanceAll front) t.chars ⊆ m.mappings

/-- Between the tokens `t` and `u` the text `cs` is written. -/
def Minified.Between (m : Minified) (t u : Token) (cs : List Char) : Prop :=
  ∃ front, m.Writes front t ∧ m.Writes (front ++ spelling t.chars ++ cs) u

/-! ## Finding a token in the output -/

section Writes

variable {text : String} {ts us vs : List Token} {t u : Token} {config : Config} {source : String}

theorem layout_append_cons (us : List Token) (t : Token) (vs : List Token) :
    (layout (us ++ t :: vs)).map Piece.placed =
      (layout us).map Piece.placed ++ t.lead (lastChar none us) ++
        (t.chars ++ (layoutFrom (some t.last.char) vs).map Piece.placed) := by
  rw [layout, layoutFrom_append, List.map_append, map_placed_layoutFrom_cons, List.append_assoc]
  rfl

/-- Every token is written. -/
theorem Minified.writes_ofTokens (config : Config) (source : String) (us : List Token) (t : Token)
    (vs : List Token) :
    (Minified.ofTokens config source (us ++ t :: vs)).Writes
      (spelling ((layout us).map Piece.placed ++ t.lead (lastChar none us))) t where
  spelled := by
    rw [toList_code_ofTokens, layout_append_cons, ← spelling_append, ← List.append_assoc]
    exact (List.prefix_append ..).map Placed.char
  mapped := by
    show _ ⊆ mappingsAlong .start ((layout (us ++ t :: vs)).map Piece.placed)
    rw [layout_append_cons, mappingsAlong_append, mappingsAlong_append _ t.chars]
    intro x hx
    exact List.mem_append_right _ (List.mem_append_left _ hx)

theorem Divided.eq_of_origin_eq (h : Divided none [] (placedText text) ts) {x y : Mapping}
    (hx : x ∈ mappingsAlong .start ((layout ts).map Piece.placed))
    (hy : y ∈ mappingsAlong .start ((layout ts).map Piece.placed)) (he : x.origin = y.origin) :
    x = y := by
  have hincreasing := h.pairwise_origins
  rw [← map_origin_mappingsAlong .start] at hincreasing
  have hnodup := hincreasing.imp fun {p q} (hlt : p < q) (hpq : p = q) =>
    Position.lt_irrefl q (hpq ▸ hlt)
  exact List.inj_on_of_nodup_map hnodup hx hy he

/-- It is written in one place. -/
theorem Divided.writes_unique (h : Divided none [] (placedText text) ts) (ht : t ∈ ts)
    {front front' : List Char} (hw : (Minified.ofTokens config source ts).Writes front t)
    (hw' : (Minified.ofTokens config source ts).Writes front' t) : front = front' := by
  obtain ⟨q, hq⟩ : ∃ q, t.first.origin = some q :=
    Option.isSome_iff_exists.mp (h.isSome_origin (read_mem_layoutFrom ht (List.mem_cons_self ..) none))
  have hfirst : ∀ p, ⟨p, q⟩ ∈ mappingsAlong p t.chars := by
    intro p
    rw [Token.chars, mappingsAlong, hq]
    exact List.mem_cons_self ..
  have heq := h.eq_of_origin_eq (hw.mapped (hfirst _)) (hw'.mapped (hfirst _)) rfl
  have hfront := (List.prefix_append ..).trans hw.spelled
  have hfront' := (List.prefix_append ..).trans hw'.spelled
  exact Position.eq_of_advanceAll_eq hfront hfront' (congrArg Mapping.generated heq)

/-- What is written between two consecutive tokens is what is kept of the gap. -/
theorem Divided.between_ofTokens_iff (h : Divided none [] (placedText text) ts)
    (hpair : [t, u] <:+: ts) {cs : List Char} :
    (Minified.ofTokens config source ts).Between t u cs ↔
      cs = spelling (u.lead (some t.last.char)) := by
  obtain ⟨us, vs, rfl⟩ := hpair
  have hshape : us ++ [t, u] ++ vs = us ++ t :: u :: vs := by simp
  have hshape' : us ++ [t, u] ++ vs = (us ++ [t]) ++ u :: vs := by simp
  have ht := Minified.writes_ofTokens config source us t (u :: vs)
  have hu := Minified.writes_ofTokens config source (us ++ [t]) u vs
  have hlast : lastChar none (us ++ [t]) = some t.last.char := by simp [lastChar_eq]
  rw [← hshape] at ht
  -- the text before `u` is the text before `t`, then `t`, then what is kept
  rw [← hshape', layout_append_cons, hlast, List.append_assoc, spelling_append, spelling_append,
    layoutFrom, List.map_nil, List.append_nil, ← List.append_assoc] at hu
  constructor
  · rintro ⟨front, hw, hw'⟩
    obtain rfl := h.writes_unique (by simp) hw ht
    exact List.append_cancel_left (h.writes_unique (by simp) hw' hu)
  · rintro rfl
    exact ⟨_, ht, hu⟩

end Writes

/-! ## Tokens and gaps of a script -/

section Shape

variable {previous : Option Char} {gap : List Piece} {cs : List Placed} {ts : List Token}

/-- The last character of a token, by what the token is. -/
theorem Divided.last_cases (h : Divided previous gap cs ts) :
    ∀ t ∈ ts, (t.kind = .single ∧ t.last = t.first) ∨
      (t.kind = .string ∧ (t.first.char = '\'' ∨ t.first.char = '"') ∧
        t.last.char = t.first.char) ∨
      (t.kind = .regex ∧ t.last.char = '/') := by
  induction h with
  | done => simp
  | blank _ _ _ ih => exact ih
  | lineComment _ _ _ _ ih => exact ih
  | blockComment _ _ _ ih => exact ih
  | string quote body close hq _ hc _ ih =>
    rw [List.forall_mem_cons]
    exact ⟨.inr (.inl ⟨rfl, hq, by simpa [Token.last] using hc⟩), ih⟩
  | regex slash body close _ _ _ _ hc _ ih =>
    rw [List.forall_mem_cons]
    exact ⟨.inr (.inr ⟨rfl, by simpa [Token.last] using hc⟩), ih⟩
  | single c _ _ _ _ _ ih =>
    rw [List.forall_mem_cons]
    exact ⟨.inl ⟨rfl, rfl⟩, ih⟩

theorem exists_divided_of_take {text : String} {us : List Token} {k n : Nat}
    (h : (tokens (placedText text)).toOption.map (fun ts => (ts.drop k).take n) = some us) :
    ∃ ts, Divided none [] (placedText text) ts ∧ us <:+: ts := by
  obtain ⟨ts, hts, rfl⟩ := Option.map_eq_some_iff.mp h
  have hpart : (ts.drop k).take n <:+: ts :=
    (List.take_prefix ..).isInfix.trans (List.drop_suffix ..).isInfix
  exact ⟨ts, divided_of_tokens_eq hts, hpart⟩

end Shape

/-! ## Between two tokens -/

section Between

variable {config : Config} {text : String} {m : Minified} {ts : List Token} {t u : Token}

/-- What is written between two consecutive tokens. -/
theorem between_iff (h : minify config text = .ok m) (hdiv : Divided none [] (placedText text) ts)
    (hpair : [t, u] <:+: ts) (cs : List Char) :
    m.Between t u cs ↔ cs =
      if hasBreak u.gap then if endsStatement t.last.char && u.wantsBreak then ['\n'] else []
      else if isWord t.last.char && isWord u.first.char && !u.gap.isEmpty then [' '] else [] := by
  obtain ⟨source, us, -, hdiv', rfl⟩ := minify_eq_ok_iff.mp h
  obtain rfl : ts = us := hdiv.unique hdiv' (isCanonical_placedText text)
  obtain ⟨s, hr, -⟩ := hdiv.readsAll
  have hgap : AllBlank u.gap := ((hr.blanks allBlank_nil).2 u (hpair.subset (by simp))).1
  rw [hdiv.between_ofTokens_iff hpair, spelling_lead hgap]

/-! ## Line ends that end statements -/

/-- Whether a token ends an operand: a word, a literal, or a closing bracket. -/
def Token.endsOperand (t : Token) : Bool :=
  t.kind ≠ .single || isWord t.first.char || [')', ']', '}'].contains t.first.char

theorem Divided.endsStatement_last_iff (hdiv : Divided none [] (placedText text) ts) (ht : t ∈ ts)
    (he : t.endsOperand) :
    endsStatement t.last.char = true ↔
      ¬ (t.kind = .regex ∨ t.kind = .string ∧ t.first.char = '\'') := by
  rcases hdiv.last_cases t ht with ⟨hk, hl⟩ | ⟨hk, hq, hl⟩ | ⟨hk, hl⟩
  · have hends : endsStatement t.first.char = true := by
      simp only [Token.endsOperand, hk, ne_eq, not_true, decide_false, Bool.false_or,
        Bool.or_eq_true] at he
      rcases he with he | he
      · exact endsStatement_of_isWord he
      · have hall : ([')', ']', '}'].all endsStatement) = true := by decide
        exact List.all_eq_true.mp hall _ (List.contains_iff_mem.mp he)
    simp [hk, hl, hends]
  · rw [hl]
    rcases hq with hq | hq
    · have hends : endsStatement '\'' = false := by decide
      simp [hk, hq, hends]
    · have hends : endsStatement '"' = true := by decide
      simp [hk, hq, hends]
  · have hends : endsStatement '/' = false := by decide
    simp [hk, hl, hends]

/-- A line end stands between the end of an operand and a word. A line feed is kept of it, unless the
operand is a regular expression or a string between single quotes: behind these the line end is lost. -/
theorem newline_mem_between_iff (h : minify config text = .ok m)
    (hdiv : Divided none [] (placedText text) ts) (hpair : [t, u] <:+: ts)
    (hbreak : hasBreak u.gap) (ht : t.endsOperand) (hu : isWord u.first.char) :
    (∃! cs, m.Between t u cs) ∧ ∀ cs, m.Between t u cs →
      ('\n' ∈ cs ↔ ¬ (t.kind = .regex ∨ t.kind = .string ∧ t.first.char = '\'')) := by
  have hbetween := between_iff h hdiv hpair
  refine ⟨⟨_, (hbetween _).mpr rfl, fun cs => (hbetween cs).mp⟩, ?_⟩
  intro cs hcs
  have hw : u.wantsBreak = true := by simp [Token.wantsBreak, beginsStatement, hu]
  rw [← hdiv.endsStatement_last_iff (hpair.subset (by simp)) ht, (hbetween cs).mp hcs, if_pos hbreak,
    hw, Bool.and_true]
  cases endsStatement t.last.char <;> simp

/-- The line end behind the line comment stays. -/
theorem newline_mem_between_of_comment :
    ∃ m t u, minify ⟨some "a.js", none, none⟩ "\"a\" //b\r\nc" = .ok m ∧ m.code = "\"a\"\nc" ∧
      (∃ ts, Divided none [] (placedText "\"a\" //b\r\nc") ts ∧ [t, u] <:+: ts) ∧
      hasBreak u.gap ∧ t.endsOperand ∧ isWord u.first.char ∧
      (∃! cs, m.Between t u cs) ∧ ∀ cs, m.Between t u cs →
        ('\n' ∈ cs ↔ ¬ (t.kind = .regex ∨ t.kind = .string ∧ t.first.char = '\'')) := by
  have h : (minify ⟨some "a.js", none, none⟩ "\"a\" //b\r\nc").toOption.map Minified.code =
      some "\"a\"\nc" := by decide +kernel
  have hpair : (tokens (placedText "\"a\" //b\r\nc")).toOption.map (fun ts => (ts.drop 0).take 2) =
      some [⟨[], .string, ⟨'"', some ⟨1, 0, 0⟩⟩, [⟨'a', some ⟨1, 1, 1⟩⟩, ⟨'"', some ⟨1, 2, 2⟩⟩]⟩,
        ⟨[.read ⟨' ', some ⟨1, 3, 3⟩⟩, .read ⟨'\n', some ⟨1, 7, 7⟩⟩], .single,
          ⟨'c', some ⟨2, 0, 0⟩⟩, []⟩] := by decide +kernel
  obtain ⟨m, hm, hcode⟩ := exists_of_toOption_eq_some h
  obtain ⟨ts, hdiv, hts⟩ := exists_divided_of_take hpair
  exact ⟨m, _, _, hm, hcode, ⟨ts, hdiv, hts⟩, rfl, rfl, rfl,
    newline_mem_between_iff hm hdiv hts rfl rfl rfl⟩

/-- Behind a single quote the line end is lost that ends the first of two statements. -/
theorem exists_newline_not_mem_between :
    ∃ m t u, minify ⟨some "a.js", none, none⟩ "a = 'b'\nc" = .ok m ∧ m.code = "a='b'c" ∧
      (∃ ts, Divided none [] (placedText "a = 'b'\nc") ts ∧ [t, u] <:+: ts) ∧
      hasBreak u.gap ∧ t.endsOperand ∧ isWord u.first.char ∧
      m.Between t u [] ∧ ∀ cs, m.Between t u cs → '\n' ∉ cs := by
  have h : (minify ⟨some "a.js", none, none⟩ "a = 'b'\nc").toOption.map Minified.code =
      some "a='b'c" := by decide +kernel
  have hpair : (tokens (placedText "a = 'b'\nc")).toOption.map (fun ts => (ts.drop 2).take 2) =
      some [⟨[.read ⟨' ', some ⟨1, 3, 3⟩⟩], .string, ⟨'\'', some ⟨1, 4, 4⟩⟩,
          [⟨'b', some ⟨1, 5, 5⟩⟩, ⟨'\'', some ⟨1, 6, 6⟩⟩]⟩,
        ⟨[.read ⟨'\n', some ⟨1, 7, 7⟩⟩], .single, ⟨'c', some ⟨2, 0, 0⟩⟩, []⟩] := by decide +kernel
  obtain ⟨m, hm, hcode⟩ := exists_of_toOption_eq_some h
  obtain ⟨ts, hdiv, hts⟩ := exists_divided_of_take hpair
  have hbetween := between_iff hm hdiv hts
  refine ⟨m, _, _, hm, hcode, ⟨ts, hdiv, hts⟩, rfl, rfl, rfl, (hbetween []).mpr rfl, ?_⟩
  intro cs hcs
  rw [(hbetween cs).mp hcs]
  exact List.not_mem_nil

/-! ## Blanks that keep tokens apart -/

/-- Whether two tokens are read as something else if they touch: two signs, which make an increment or a
decrement, or a regular expression and a word, which becomes its flags. -/
def Token.mergesWith (t u : Token) : Bool :=
  (t.isOperator '+' && u.isOperator '+') || (t.isOperator '-' && u.isOperator '-') ||
    (t.kind = .regex && isWord u.first.char)

/-- Before a token that merges with the one before a line end may stay, if that one is a sign; a space
never does. -/
theorem Divided.separator_of_mergesWith (hdiv : Divided none [] (placedText text) ts) (ht : t ∈ ts)
    (hm : t.mergesWith u) :
    (endsStatement t.last.char && u.wantsBreak) = decide (t.kind ≠ .regex) ∧
      isWord t.last.char = false := by
  have hsign : ∀ c, c = '+' ∨ c = '-' → t.isOperator c = true → u.isOperator c = true →
      (endsStatement t.last.char && u.wantsBreak) = decide (t.kind ≠ .regex) ∧
        isWord t.last.char = false := by
    intro c hc htop huop
    obtain ⟨hends, hbegins, hword⟩ :
        endsStatement c = true ∧ beginsStatement c = true ∧ isWord c = false := by
      rcases hc with rfl | rfl <;> decide
    obtain ⟨hk, hfirst⟩ := Token.isOperator_iff.mp htop
    have hlast : t.last = t.first := by simpa [hk] using hdiv.last_cases t ht
    simp [hlast, hfirst, hk, hends, hword, Token.wantsBreak, (Token.isOperator_iff.mp huop).2, hbegins]
  simp only [Token.mergesWith, Bool.or_eq_true, Bool.and_eq_true, decide_eq_true_eq] at hm
  rcases hm with (⟨htop, huop⟩ | ⟨htop, huop⟩) | ⟨hk, -⟩
  · exact hsign '+' (Or.inl rfl) htop huop
  · exact hsign '-' (Or.inr rfl) htop huop
  · have hlast : t.last.char = '/' := by
      simpa [hk] using hdiv.last_cases t ht
    have hslash : endsStatement '/' = false ∧ isWord '/' = false := by decide
    simp [hlast, hk, hslash]

/-- Two tokens that merge have something between them in the code only if they are signs and there was a
line end between them. Two signs on one line come to touch, and so do a regular expression and a word,
wherever they stand. -/
theorem between_eq_nil_iff (h : minify config text = .ok m)
    (hdiv : Divided none [] (placedText text) ts) (hpair : [t, u] <:+: ts) (hm : t.mergesWith u) :
    (∃! cs, m.Between t u cs) ∧ ∀ cs, m.Between t u cs →
      (cs = [] ↔ t.kind = .regex ∨ hasBreak u.gap = false) := by
  have hbetween := between_iff h hdiv hpair
  refine ⟨⟨_, (hbetween _).mpr rfl, fun cs => (hbetween cs).mp⟩, ?_⟩
  intro cs hcs
  obtain ⟨hkept, hword⟩ := hdiv.separator_of_mergesWith (hpair.subset (by simp)) hm
  rw [(hbetween cs).mp hcs, hkept, hword]
  by_cases hb : hasBreak u.gap = true <;> by_cases hk : t.kind = .regex <;> simp [hb, hk]

/-- The line end behind the line comment keeps two signs apart. -/
theorem between_eq_nil_of_comment :
    ∃ m t u, minify ⟨some "a.js", none, none⟩ "a + //b\n+c" = .ok m ∧ m.code = "a+\n+c" ∧
      (∃ ts, Divided none [] (placedText "a + //b\n+c") ts ∧ [t, u] <:+: ts) ∧ t.mergesWith u ∧
      (∃! cs, m.Between t u cs) ∧ ∀ cs, m.Between t u cs →
        (cs = [] ↔ t.kind = .regex ∨ hasBreak u.gap = false) := by
  have h : (minify ⟨some "a.js", none, none⟩ "a + //b\n+c").toOption.map Minified.code =
      some "a+\n+c" := by decide +kernel
  have hpair : (tokens (placedText "a + //b\n+c")).toOption.map (fun ts => (ts.drop 1).take 2) =
      some [⟨[.read ⟨' ', some ⟨1, 1, 1⟩⟩], .single, ⟨'+', some ⟨1, 2, 2⟩⟩, []⟩,
        ⟨[.read ⟨' ', some ⟨1, 3, 3⟩⟩, .read ⟨'\n', some ⟨1, 7, 7⟩⟩], .single,
          ⟨'+', some ⟨2, 0, 0⟩⟩, []⟩] := by decide +kernel
  obtain ⟨m, hm, hcode⟩ := exists_of_toOption_eq_some h
  obtain ⟨ts, hdiv, hts⟩ := exists_divided_of_take hpair
  exact ⟨m, _, _, hm, hcode, ⟨ts, hdiv, hts⟩, rfl, between_eq_nil_iff hm hdiv hts rfl⟩

/-- A space does not keep them apart. What was a sum can not be read any more. -/
theorem exists_signs_together :
    ∃ m t u, minify ⟨some "a.js", none, none⟩ "a + +b" = .ok m ∧ m.code = "a++b" ∧
      (∃ ts, Divided none [] (placedText "a + +b") ts ∧ [t, u] <:+: ts) ∧
      t.isOperator '+' ∧ u.isOperator '+' ∧ u.gap ≠ [] ∧ ∀ cs, m.Between t u cs ↔ cs = [] := by
  have h : (minify ⟨some "a.js", none, none⟩ "a + +b").toOption.map Minified.code =
      some "a++b" := by decide +kernel
  have hpair : (tokens (placedText "a + +b")).toOption.map (fun ts => (ts.drop 1).take 2) =
      some [⟨[.read ⟨' ', some ⟨1, 1, 1⟩⟩], .single, ⟨'+', some ⟨1, 2, 2⟩⟩, []⟩,
        ⟨[.read ⟨' ', some ⟨1, 3, 3⟩⟩], .single, ⟨'+', some ⟨1, 4, 4⟩⟩, []⟩] := by decide +kernel
  obtain ⟨m, hm, hcode⟩ := exists_of_toOption_eq_some h
  obtain ⟨ts, hdiv, hts⟩ := exists_divided_of_take hpair
  exact ⟨m, _, _, hm, hcode, ⟨ts, hdiv, hts⟩, rfl, rfl, List.cons_ne_nil _ _,
    between_iff hm hdiv hts⟩

end Between

end Squeeze
