import Squeeze.Script.Point

/-!
# Reading from point to point

To divide a script into tokens is to read it from its beginning to its end (`divided_iff_readsAll`). So
what is true of each part that can be passed is true of a whole script, and what is true of a reading
holds up to any point, whether or not the script can be divided.
-/

namespace Squeeze

theorem IsLineComment.ne_nil {cs : List Char} (h : IsLineComment cs) : cs ≠ [] := by
  obtain ⟨body, rfl, -⟩ := h
  exact List.cons_ne_nil _ _

theorem IsBlockComment.ne_nil {cs : List Char} (h : IsBlockComment cs) : cs ≠ [] := by
  obtain ⟨body, rfl, -⟩ := h
  exact List.cons_ne_nil _ _

theorem opensComment_of_ne {c : Char} (hc : c ≠ '/') (cs : List Char) :
    opensComment (c :: cs) = false := by
  cases cs <;> simp [opensComment, hc]

theorem opensComment_append {c d : Char} {cs ds : List Char} :
    opensComment (c :: (cs ++ d :: ds)) = opensComment (c :: (cs ++ [d])) := by
  cases cs <;> rfl

theorem ne_nil_of_spelling {cs : List Placed} (h : spelling cs ≠ []) : cs ≠ [] := by
  rintro rfl
  exact h rfl

namespace Point

variable {s s' s'' : Point} {t : Option Token} {ts us : List Token}

/-! ## One part -/

/-- What is passed is the beginning of what was ahead, and it is not nothing. -/
theorem Passes.exists_append (h : s.Passes t s') : ∃ part, part ≠ [] ∧ s.ahead = part ++ s'.ahead := by
  cases h with
  | blank c _ => exact ⟨[c], List.cons_ne_nil _ _, rfl⟩
  | lineComment comment hc _ => exact ⟨comment, ne_nil_of_spelling hc.ne_nil, rfl⟩
  | blockComment comment hc => exact ⟨comment, ne_nil_of_spelling hc.ne_nil, rfl⟩
  | string quote body close _ _ _ =>
    exact ⟨quote :: (body ++ [close]), List.cons_ne_nil _ _, by simp⟩
  | regex slash body close _ _ _ _ _ =>
    exact ⟨slash :: (body ++ [close]), List.cons_ne_nil _ _, by simp⟩
  | single c _ _ _ _ => exact ⟨[c], List.cons_ne_nil _ _, rfl⟩

theorem Passes.length_lt (h : s.Passes t s') : s'.ahead.length < s.ahead.length := by
  obtain ⟨part, hne, he⟩ := h.exists_append
  have := List.length_pos_iff.mpr hne
  rw [he, List.length_append]
  omega

theorem Passes.suffix (h : s.Passes t s') : s'.ahead <:+ s.ahead := by
  obtain ⟨part, -, he⟩ := h.exists_append
  rw [he]
  exact List.suffix_append ..

/-- Only comments begin like comments. -/
theorem Passes.opensComment_eq_false {u : Token} (h : s.Passes (some u) s') :
    opensComment (spelling s.ahead) = false := by
  cases h with
  | string quote body close hq =>
    apply opensComment_of_ne
    rcases hq with h | h <;> simp [h]
  | regex slash body close hs hr hn => simpa [opensComment_append] using hn
  | single c hblank hquote hr hn => exact hn

/-- Behind the last character nothing is passed. -/
theorem Passes.ahead_ne_nil (h : s.Passes t s') : s.ahead ≠ [] :=
  List.length_pos_iff.mp (Nat.zero_lt_of_lt h.length_lt)

/-- The rules for passing a part are those of the grammar. -/
theorem Passes.divided (h : s.Passes t s') (hd : Divided s'.previous s'.gap s'.ahead us) :
    Divided s.previous s.gap s.ahead (t.toList ++ us) := by
  cases h with
  | blank c hc => exact .blank c hc hd
  | lineComment comment hc hend => exact .lineComment comment hc hend hd
  | blockComment comment hc => exact .blockComment comment hc hd
  | string quote body close hq hb hc => exact .string quote body close hq hb hc hd
  | regex slash body close hs hr hn hb hc => exact .regex slash body close hs hr hn hb hc hd
  | single c hblank hquote hr hn => exact .single c hblank hquote hr hn hd

/-- A token is given as it stands behind the blanks before it, and the next point is right behind it. -/
theorem Passes.token_eq {u : Token} (h : s.Passes (some u) s') :
    u.gap = s.gap ∧ s' = ⟨some u.last.char, [], s'.ahead⟩ ∧ (u.kind = .single → u.others = []) := by
  cases h <;> simp [Token.last]

theorem Passes.isBlank_last {u : Token} (h : s.Passes (some u) s') : u.last.isBlank = false := by
  rw [Placed.isBlank_eq_false_iff]
  cases h with
  | string quote body close hq _ hc =>
    rcases hq with hq | hq <;> simp [Token.last, hc, hq]
  | regex slash body close _ _ _ _ hc => simp [Token.last, hc]
  | single c hblank => exact hblank

/-! ## Several parts -/

theorem Reads.suffix (h : s.Reads ts s') : s'.ahead <:+ s.ahead := by
  induction h with
  | here s => exact List.suffix_rfl
  | onward h _ ih => exact ih.trans h.suffix

theorem Reads.append (h : s.Reads ts s') (h' : s'.Reads us s'') : s.Reads (ts ++ us) s'' := by
  induction h with
  | here s => exact h'
  | onward h _ ih =>
    rw [List.append_assoc]
    exact .onward h (ih h')

theorem Reads.divided (h : s.Reads ts s') (hd : Divided s'.previous s'.gap s'.ahead us) :
    Divided s.previous s.gap s.ahead (ts ++ us) := by
  induction h with
  | here s => exact hd
  | onward h _ ih =>
    rw [List.append_assoc]
    exact h.divided (ih hd)

/-- Before each of the tokens that are read there is a point. -/
theorem Reads.exists_passes {v : Token} (h : s.Reads us s') :
    ∀ {ts vs : List Token}, us = ts ++ v :: vs →
      ∃ q q', s.Reads ts q ∧ q.Passes (some v) q' := by
  induction h with
  | here s => simp
  | @onward s s₁ s' u us h _ ih =>
    intro ts vs he
    rcases u with _ | u
    · obtain ⟨q, q', hr, hp⟩ := ih he
      exact ⟨q, q', .onward h hr, hp⟩
    · rcases ts with _ | ⟨w, ts⟩
      · obtain ⟨rfl, rfl⟩ := List.cons.inj he
        exact ⟨s, s₁, .here s, h⟩
      · obtain ⟨rfl, he'⟩ := List.cons.inj he
        obtain ⟨q, q', hr, hp⟩ := ih he'
        exact ⟨q, q', .onward h hr, hp⟩

/-! ## The whole script -/

/-- The tokens `ts` are read, and then nothing is left. -/
def ReadsAll (s : Point) (ts : List Token) : Prop := ∃ s', s.Reads ts s' ∧ s'.ahead = []

theorem Passes.readsAll (h : s.Passes t s') (h' : s'.ReadsAll us) : s.ReadsAll (t.toList ++ us) := by
  obtain ⟨s'', hr, hend⟩ := h'
  exact ⟨s'', .onward h hr, hend⟩

theorem Reads.readsAll (h : s.Reads ts s') (h' : s'.ReadsAll us) : s.ReadsAll (ts ++ us) := by
  obtain ⟨s'', hr, hend⟩ := h'
  exact ⟨s'', h.append hr, hend⟩

theorem ReadsAll.divided (h : s.ReadsAll ts) : Divided s.previous s.gap s.ahead ts := by
  obtain ⟨s', hr, hend⟩ := h
  have hdone : Divided s'.previous s'.gap s'.ahead [] := by
    rw [hend]
    exact .done ..
  simpa using hr.divided hdone

/-! ## Without comments -/

/-- The tokens `ts` are read, and no comment is passed on the way. -/
inductive ReadsPlainly : Point → List Token → Point → Prop
  /-- Nothing is read. -/
  | here (s : Point) : ReadsPlainly s [] s
  /-- A part that is no comment is passed, and what comes after it is read. -/
  | onward {s s' s'' : Point} {t : Option Token} {ts : List Token} (h : s.Passes t s')
      (hn : opensComment (spelling s.ahead) = false) (hs : ReadsPlainly s' ts s'') :
      ReadsPlainly s (t.toList ++ ts) s''

theorem ReadsPlainly.reads (h : s.ReadsPlainly ts s') : s.Reads ts s' := by
  induction h with
  | here s => exact .here s
  | onward h _ _ ih => exact .onward h ih

theorem ReadsPlainly.append (h : s.ReadsPlainly ts s') (h' : s'.ReadsPlainly us s'') :
    s.ReadsPlainly (ts ++ us) s'' := by
  induction h with
  | here s => exact h'
  | onward h hn _ ih =>
    rw [List.append_assoc]
    exact .onward h hn (ih h')

theorem readsPlainly_blanks {bs : List Placed} (hb : ∀ c ∈ bs, c.isBlank)
    (previous : Option Char) (gap : List Piece) (cs : List Placed) :
    ReadsPlainly ⟨previous, gap, bs ++ cs⟩ [] ⟨previous, gap ++ bs.map .read, cs⟩ := by
  induction bs generalizing gap with
  | nil =>
    rw [List.map_nil, List.append_nil]
    exact .here _
  | cons b bs ih =>
    have hblank := Placed.isBlank_iff.mp (hb b (List.mem_cons_self ..))
    have hn : opensComment (spelling (b :: (bs ++ cs))) = false := by
      rw [spelling_cons]
      apply opensComment_of_ne
      rcases hblank with h | h <;> simp [h]
    have hrest := ih (fun c hc => hb c (List.mem_cons_of_mem b hc)) (gap ++ [.read b])
    rw [List.append_assoc] at hrest
    exact .onward (.blank b hblank) hn hrest

end Point

theorem Divided.readsAll {previous : Option Char} {gap : List Piece} {cs : List Placed}
    {ts : List Token} (h : Divided previous gap cs ts) : Point.ReadsAll ⟨previous, gap, cs⟩ ts := by
  induction h with
  | done previous gap => exact ⟨_, .here _, rfl⟩
  | blank c hc _ ih => exact Point.Passes.readsAll (.blank c hc) ih
  | lineComment comment hc hend _ ih =>
    exact Point.Passes.readsAll (.lineComment comment hc hend) ih
  | blockComment comment hc _ ih => exact Point.Passes.readsAll (.blockComment comment hc) ih
  | string quote body close hq hb hc _ ih =>
    exact Point.Passes.readsAll (.string quote body close hq hb hc) ih
  | regex slash body close hs hr hn hb hc _ ih =>
    exact Point.Passes.readsAll (.regex slash body close hs hr hn hb hc) ih
  | single c hblank hquote hr hn _ ih =>
    exact Point.Passes.readsAll (.single c hblank hquote hr hn) ih

/-- A script can be divided into tokens exactly if these are read on the way to its end. -/
theorem divided_iff_readsAll {s : Point} {ts : List Token} :
    Divided s.previous s.gap s.ahead ts ↔ s.ReadsAll ts :=
  ⟨Divided.readsAll, Point.ReadsAll.divided⟩

end Squeeze
