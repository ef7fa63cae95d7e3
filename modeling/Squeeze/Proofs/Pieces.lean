import Squeeze.Proofs.Written

/-!
# What a layout consists of

Every piece of a layout is a piece of the script: a character of it or a block comment in it. The
pieces come in the order of the script, no piece comes twice, and all characters of the tokens are
among them. The proofs follow the grammar, in which a blank that may stay is one of the gap as long as
the token after it has not come.
-/

namespace Squeeze

/-- The block comments among some pieces. -/
def comments (xs : List Piece) : List (List Placed) :=
  xs.flatMap fun
    | .read _ => []
    | .comment cs => [cs]

theorem mem_comments {xs : List Piece} {k : List Placed} : k ∈ comments xs ↔ .comment k ∈ xs := by
  unfold comments
  rw [List.mem_flatMap]
  constructor
  · rintro ⟨_ | cs, hx, hk⟩
    · cases hk
    · obtain rfl : k = cs := by simpa using hk
      exact hx
  · intro h
    exact ⟨.comment k, h, by simp⟩

theorem nodup_comments {xs : List Piece} (h : (xs.flatMap Piece.chars).Nodup)
    (hne : ∀ k ∈ comments xs, k ≠ []) : (comments xs).Nodup := by
  induction xs with
  | nil => exact List.nodup_nil
  | cons x xs ih =>
    rw [List.flatMap_cons, List.nodup_append] at h
    obtain ⟨-, h, hdisj⟩ := h
    have ih := ih h fun k hk => hne k (List.mem_append_right _ hk)
    rcases x with c | k
    · exact ih
    · refine List.nodup_cons.mpr ⟨?_, ih⟩
      intro hk
      obtain ⟨c, hc⟩ := List.exists_mem_of_ne_nil k (hne k (List.mem_cons_self ..))
      have hmem : c ∈ xs.flatMap Piece.chars :=
        List.mem_flatMap.mpr ⟨.comment k, mem_comments.mp hk, hc⟩
      exact hdisj c hc c hmem rfl

/-- Induction on a division, for what does not depend on the kinds of the tokens. -/
@[elab_as_elim]
theorem Divided.inductOn
    {motive : ∀ previous gap cs ts, Divided previous gap cs ts → Prop} {previous : Option Char}
    {gap : List Piece} {cs : List Placed} {ts : List Token} (h : Divided previous gap cs ts)
    (done : ∀ previous gap, motive previous gap [] [] (.done previous gap))
    (blank : ∀ {previous gap cs ts} c hc (h : Divided previous (gap ++ [.read c]) cs ts),
      motive previous (gap ++ [.read c]) cs ts h →
        motive previous gap (c :: cs) ts (.blank c hc h))
    (lineComment : ∀ {previous gap cs ts} comment hc hend (h : Divided previous gap cs ts),
      motive previous gap cs ts h →
        motive previous gap (comment ++ cs) ts (.lineComment comment hc hend h))
    (blockComment : ∀ {previous gap cs ts} comment hc
      (h : Divided previous (gap ++ [.comment comment]) cs ts),
      motive previous (gap ++ [.comment comment]) cs ts h →
        motive previous gap (comment ++ cs) ts (.blockComment comment hc h))
    (token : ∀ {previous last cs cs' ts} t (_ : t.last.char = last) (_ : t.chars ++ cs = cs')
      (h : Divided (some last) [] cs ts) (h' : Divided previous t.gap cs' (t :: ts)),
      motive (some last) [] cs ts h → motive previous t.gap cs' (t :: ts) h') :
    motive previous gap cs ts h := by
  induction h with
  | done previous gap => exact done previous gap
  | blank c hc h ih => exact blank c hc h ih
  | lineComment comment hc hend h ih => exact lineComment comment hc hend h ih
  | blockComment comment hc h ih => exact blockComment comment hc h ih
  | @string previous gap cs ts quote body close hq hb hc h ih =>
    exact token ⟨gap, .string, quote, body ++ [close]⟩ (by simp [Token.last])
      (by simp [Token.chars]) h (.string quote body close hq hb hc h) ih
  | @regex previous gap cs ts slash body close hs hr hn hb hc h ih =>
    exact token ⟨gap, .regex, slash, body ++ [close]⟩ (by simp [Token.last])
      (by simp [Token.chars]) h (.regex slash body close hs hr hn hb hc h) ih
  | @single previous gap cs ts c hblank hquote hr hn h ih =>
    exact token ⟨gap, .single, c, []⟩ rfl rfl h (.single c hblank hquote hr hn h) ih

theorem mem_gap_of_separator {t : Token} {previous : Option Char} {x : Piece}
    (h : previous.bind t.separator = some x) : x ∈ t.gap := by
  obtain ⟨p, -, h⟩ := Option.bind_eq_some_iff.mp h
  unfold Token.separator at h
  split at h
  · split at h
    · exact (List.mem_filter.mp (List.mem_of_getLast? h)).1
    · cases h
  · split at h
    · exact List.mem_of_getLast? h
    · cases h

/-! ## The pieces come in the order of the script -/

/-- Every character of the output stands for a piece of the script of its own, and the pieces have
the order that they have in the script. -/
theorem Divided.sublist {previous : Option Char} {gap : List Piece} {cs : List Placed}
    {ts : List Token} (h : Divided previous gap cs ts) :
    ((layoutFrom previous ts).flatMap Piece.chars).Sublist (gap.flatMap Piece.chars ++ cs) := by
  induction h using Divided.inductOn with
  | done => exact List.nil_sublist _
  | blank c _ _ ih => simpa using ih
  | lineComment comment _ _ _ ih =>
    refine ih.trans ((List.Sublist.refl _).append ?_)
    exact List.sublist_append_right ..
  | blockComment comment _ _ ih => simpa using ih
  | @token previous _ cs _ ts t hlast hcs _ _ ih =>
    subst hlast hcs
    have hsep : ((previous.bind t.separator).toList.flatMap Piece.chars).Sublist
        (t.gap.flatMap Piece.chars) := by
      rcases hs : previous.bind t.separator with _ | x
      · exact List.nil_sublist _
      · have hx : x.chars ∈ t.gap.map Piece.chars := List.mem_map_of_mem (mem_gap_of_separator hs)
        simpa [List.flatMap_def] using List.sublist_flatten_of_mem hx
    rw [layoutFrom, List.flatMap_append, List.flatMap_append, Piece.flatMap_chars_read,
      List.append_assoc]
    exact hsep.append ((List.Sublist.refl _).append ih)

/-! ## Each piece is a character or a block comment -/

/-- Whether something can be a piece of what is left of a script. -/
def IsPieceOf (cs : List Placed) : Piece → Prop
  | .read c => c ∈ cs
  | .comment k => IsBlockComment (spelling k) ∧ k <:+: cs

theorem IsPieceOf.extend {cs ds : List Placed} {x : Piece} (h : IsPieceOf cs x) (hs : cs <:+: ds) :
    IsPieceOf ds x := by
  rcases x with c | k
  · exact hs.subset h
  · exact ⟨h.1, h.2.trans hs⟩

/-- What is written was found in the script or stood before it. -/
theorem Divided.isPieceOf {previous : Option Char} {gap : List Piece} {cs : List Placed}
    {ts : List Token} (h : Divided previous gap cs ts) {x : Piece}
    (hx : x ∈ layoutFrom previous ts) : x ∈ gap ∨ IsPieceOf cs x := by
  induction h using Divided.inductOn with
  | done => cases hx
  | @blank _ _ cs _ c _ _ ih =>
    rcases ih hx with h | h
    · rcases List.mem_append.mp h with h | h
      · exact Or.inl h
      · obtain rfl := List.mem_singleton.mp h
        exact Or.inr (List.mem_cons_self ..)
    · exact Or.inr (h.extend (List.suffix_cons c cs).isInfix)
  | lineComment comment _ _ _ ih =>
    exact (ih hx).imp_right fun h => h.extend (List.suffix_append ..).isInfix
  | blockComment comment hc _ ih =>
    rcases ih hx with h | h
    · rcases List.mem_append.mp h with h | h
      · exact Or.inl h
      · obtain rfl := List.mem_singleton.mp h
        exact Or.inr ⟨hc, (List.prefix_append ..).isInfix⟩
    · exact Or.inr (h.extend (List.suffix_append ..).isInfix)
  | @token previous _ cs _ ts t hlast hcs _ _ ih =>
    subst hlast hcs
    rw [layoutFrom, List.mem_append, List.mem_append] at hx
    rcases hx with (hx | hx) | hx
    · exact Or.inl (mem_gap_of_separator (Option.mem_toList.mp hx))
    · obtain ⟨c, hc, rfl⟩ := List.mem_map.mp hx
      exact Or.inr (List.mem_append_left cs hc)
    · right
      rcases ih hx with h | h
      · cases h
      · exact h.extend (List.suffix_append ..).isInfix

theorem Divided.isPieceOf_layout {cs : List Placed} {ts : List Token} (h : Divided none [] cs ts)
    {x : Piece} (hx : x ∈ layout ts) : IsPieceOf cs x := by
  rcases h.isPieceOf hx with h | h
  · cases h
  · exact h

/-! ## No character of a token is missing -/

theorem read_mem_layoutFrom {ts : List Token} {t : Token} {c : Placed} (ht : t ∈ ts)
    (hc : c ∈ t.chars) (previous : Option Char) : .read c ∈ layoutFrom previous ts := by
  induction ts generalizing previous with
  | nil => cases ht
  | cons u ts ih =>
    rw [layoutFrom, List.mem_append, List.mem_append]
    rcases List.mem_cons.mp ht with rfl | ht
    · exact Or.inl (Or.inr (List.mem_map_of_mem hc))
    · exact Or.inr (ih ht _)

end Squeeze
