import Squeeze.Proofs.Pieces

/-!
# Where the output comes from

The mappings of a short form are determined by the tokens of the script. They lead, in the order of
the output, to the characters of the tokens and to the blanks that stay between them, and to nothing
else (`TracesBack`). A character of the output without a mapping is a space that stands for a block
comment, each of them for one of its own.

All of it is read off the layout. A run of characters that is written has one mapping for each
character that was read, so everything comes down to the order of the pieces in the script.
-/

namespace Squeeze

/-! ## The mappings of a run of characters -/

theorem map_origin_mappingsAlong (p : Position) (cs : List Placed) :
    (mappingsAlong p cs).map Mapping.origin = origins cs := by
  induction cs generalizing p with
  | nil => rfl
  | cons c cs ih =>
    rw [mappingsAlong, List.map_append, ih, origins_cons, List.map_map]
    congr 1
    exact List.map_id _

/-- A mapping belongs to a character that is written, and stands where that character does. -/
theorem exists_of_mem_mappingsAlong {p : Position} {cs : List Placed} {x : Mapping}
    (hx : x ∈ mappingsAlong p cs) :
    ∃ c ∈ cs, c.origin = some x.origin ∧ ⟨c.char, some x.generated⟩ ∈ place p (spelling cs) := by
  induction cs generalizing p with
  | nil => cases hx
  | cons c cs ih =>
    rw [mappingsAlong, List.mem_append] at hx
    rcases hx with hx | hx
    · obtain ⟨q, hq, rfl⟩ := List.mem_map.mp hx
      refine ⟨c, List.mem_cons_self .., Option.mem_toList.mp hq, ?_⟩
      rw [spelling_cons, place_cons]
      exact List.mem_cons_self ..
    · obtain ⟨d, hd, hp, hm⟩ := ih hx
      refine ⟨d, List.mem_cons_of_mem c hd, hp, ?_⟩
      rw [spelling_cons, place_cons]
      exact List.mem_cons_of_mem _ hm

/-- The places of the mappings are among those of all characters, in the same order. -/
theorem generated_sublist (p : Position) (cs : List Placed) :
    ((mappingsAlong p cs).map Mapping.generated).Sublist (origins (place p (spelling cs))) := by
  induction cs generalizing p with
  | nil => exact List.Sublist.slnil
  | cons c cs ih =>
    rw [mappingsAlong, spelling_cons, origins_place_cons]
    rcases c.origin with _ | q
    · exact (ih _).cons p
    · exact (ih _).cons_cons p

theorem generated_mem_origins {p : Position} {cs : List Placed} {x : Mapping}
    (hx : x ∈ mappingsAlong p cs) : x.generated ∈ origins (place p (spelling cs)) :=
  (generated_sublist p cs).subset (List.mem_map_of_mem hx)

theorem lt_generated {p : Position} {c : Char} {cs : List Placed} {x : Mapping}
    (hx : x ∈ mappingsAlong (p.advance c) cs) : p < x.generated :=
  lt_of_mem_origins (generated_mem_origins hx)

/-- Of a character that is written there is the mapping to where it was read, and no other. -/
theorem mem_mappingsAlong_iff {p : Position} {cs : List Placed} {c d : Placed}
    (h : (c, d) ∈ (place p (spelling cs)).zip cs) {g q : Position} (hg : c.origin = some g) :
    ⟨g, q⟩ ∈ mappingsAlong p cs ↔ d.origin = some q := by
  induction cs generalizing p with
  | nil => cases h
  | cons e cs ih =>
    rw [spelling_cons, place_cons, List.zip_cons_cons, List.mem_cons] at h
    rw [mappingsAlong, List.mem_append, List.mem_map]
    rcases h with h | h
    · -- the first character: all other mappings are of later ones
      cases h
      cases hg
      constructor
      · rintro (⟨r, hr, he⟩ | hm)
        · cases he
          exact Option.mem_toList.mp hr
        · exact absurd (lt_generated hm) (Position.lt_irrefl _)
      · intro hq
        exact Or.inl ⟨q, Option.mem_toList.mpr hq, rfl⟩
    · rw [← ih h]
      constructor
      · rintro (⟨r, -, he⟩ | hm)
        · cases he
          have hlt := lt_of_mem_origins (mem_origins (List.of_mem_zip h).1 hg)
          exact absurd hlt (Position.lt_irrefl _)
        · exact hm
      · exact Or.inr

theorem pairwise_generated (p : Position) (cs : List Placed) :
    ((mappingsAlong p cs).map Mapping.generated).Pairwise (· < ·) :=
  (pairwise_origins_place p (spelling cs)).sublist (generated_sublist p cs)

/-! ## Characters without a mapping -/

/-- Those characters of an output of which none of the mappings speaks. -/
def unspoken (ms : List Mapping) (cs : List Placed) : List Placed :=
  cs.filter fun c => !ms.any fun x => c.origin = some x.generated

theorem unspoken_cons_of_ne {x : Mapping} {ms : List Mapping} {cs : List Placed}
    (h : ∀ c ∈ cs, c.origin ≠ some x.generated) : unspoken (x :: ms) cs = unspoken ms cs := by
  apply List.filter_congr
  intro c hc
  simp [h c hc]

theorem unspoken_of_mem {x : Mapping} {ms : List Mapping} {c : Placed} {cs : List Placed}
    (hx : x ∈ ms) (hc : c.origin = some x.generated) : unspoken ms (c :: cs) = unspoken ms cs := by
  apply List.filter_cons_of_neg
  simp only [Bool.not_eq_true', Bool.not_eq_false]
  exact List.any_eq_true.mpr ⟨x, hx, by simp [hc]⟩

theorem unspoken_of_forall {ms : List Mapping} {c : Placed} {cs : List Placed}
    (h : ∀ x ∈ ms, c.origin ≠ some x.generated) :
    unspoken ms (c :: cs) = c :: unspoken ms cs := by
  apply List.filter_cons_of_pos
  simpa [List.any_eq_false] using h

theorem exists_or_mem_unspoken (ms : List Mapping) {c : Placed} {cs : List Placed} (hc : c ∈ cs) :
    (∃ x ∈ ms, c.origin = some x.generated) ∨ c ∈ unspoken ms cs := by
  by_cases h : ∃ x ∈ ms, c.origin = some x.generated
  · exact Or.inl h
  · refine Or.inr (List.mem_filter.mpr ⟨hc, ?_⟩)
    simpa [List.any_eq_false] using h

/-- The characters of which no mapping speaks are the spaces that stand for block comments. -/
theorem unspoken_mappingsAlong {p : Position} {xs : List Piece}
    (hread : ∀ c, .read c ∈ xs → c.origin.isSome) :
    (unspoken (mappingsAlong p (xs.map Piece.placed))
      (place p (spelling (xs.map Piece.placed)))).map Placed.char =
        (comments xs).map fun _ => ' ' := by
  induction xs generalizing p with
  | nil => rfl
  | cons x xs ih =>
    have ih := fun p => ih (p := p) fun c hc => hread c (List.mem_cons_of_mem x hc)
    rw [List.map_cons, spelling_cons, place_cons, mappingsAlong]
    rcases x with c | k
    · -- one mapping speaks of the character, and it speaks of no later one
      obtain ⟨q, hq⟩ := Option.isSome_iff_exists.mp (hread c (List.mem_cons_self ..))
      rw [Piece.placed_read, hq]
      rw [unspoken_of_mem (x := ⟨p, q⟩) (by simp) rfl]
      refine Eq.trans (congrArg _ (unspoken_cons_of_ne ?_)) (ih _)
      intro d hd hp
      exact Position.lt_irrefl p (lt_of_mem_origins (mem_origins hd hp))
    · -- the space was made up, and all mappings speak of later characters
      refine Eq.trans (congrArg _ (unspoken_of_forall ?_)) (congrArg _ (ih _))
      intro x hx hp
      obtain rfl : p = x.generated := Option.some.inj hp
      exact Position.lt_irrefl _ (lt_generated hx)

/-! ## The whole output -/

/-- What the mappings of a short form say of the script, which consists of the tokens `ts`. -/
structure TracesBack (text : String) (ts : List Token) (m : Minified) : Prop where
  /-- Each character of the output stands for one piece of the layout. -/
  code_eq : m.code.toList = (layout ts).map fun x => x.placed.char
  /-- If that piece was read, there is a mapping from the character to it, and no other one. -/
  mapping_iff : ∀ cx ∈ (place .start m.code.toList).zip (layout ts), ∀ p q,
    cx.1.origin = some p → (⟨p, q⟩ ∈ m.mappings ↔ cx.2.placed.origin = some q)
  /-- The mappings lead to what was read among the pieces of the layout, in their order: to every
  character of every token and, between two tokens, to the line end or the space that stays. -/
  origin_eq : m.mappings.map Mapping.origin = (layout ts).filterMap fun x => x.placed.origin
  /-- They go forward in the output and in the script. -/
  increasing : m.mappings.Pairwise fun x y => x.generated < y.generated ∧ x.origin < y.origin
  /-- No character of a token is lost. -/
  token_mapped : ∀ t ∈ ts, ∀ c ∈ t.chars, ∃ x ∈ m.mappings, c.origin = some x.origin
  /-- The same character stands at both ends of a mapping. -/
  same_char : ∀ x ∈ m.mappings, ∃ c,
    charAt m.code.toList x.generated = some c ∧ charAt (canonical text.toList) x.origin = some c
  /-- A character without a mapping is a space, one for each block comment of the layout. -/
  unspoken_eq : (unspoken m.mappings (place .start m.code.toList)).map Placed.char =
    (comments (layout ts)).map fun _ => ' '
  /-- These are block comments of the script. -/
  is_comment : ∀ k ∈ comments (layout ts), IsBlockComment (spelling k) ∧ k <:+: placedText text
  /-- No two of them are the same one. -/
  nodup : (comments (layout ts)).Nodup
  /-- Every line feed of the output was read, so the one with which the scan begins is not there. -/
  line_mapped : ∀ c ∈ place .start m.code.toList, c.char = '\n' →
    ∃ x ∈ m.mappings, c.origin = some x.generated
  /-- The output does not begin with a blank. -/
  begins : ∀ c ∈ m.code.toList.head?, c ≠ ' ' ∧ c ≠ '\n'

section Layout

variable {text : String} {ts : List Token}

theorem Divided.isSome_origin (h : Divided none [] (placedText text) ts) {c : Placed}
    (hx : .read c ∈ layout ts) : c.origin.isSome :=
  isPlaced_place _ _ c (h.isPieceOf_layout hx)

theorem origins_map_placed (xs : List Piece) :
    (origins (xs.map Piece.placed)).Sublist (origins (xs.flatMap Piece.chars)) := by
  induction xs with
  | nil => exact List.Sublist.refl _
  | cons x xs ih =>
    rw [List.map_cons, origins_cons, List.flatMap_cons, origins_append]
    refine List.Sublist.append ?_ ih
    rcases x with c | k
    · rw [Piece.chars_read, origins_cons, origins_nil, List.append_nil]
      exact List.Sublist.refl _
    · exact List.nil_sublist _

theorem Divided.sublist_layout (h : Divided none [] (placedText text) ts) :
    ((layout ts).flatMap Piece.chars).Sublist (placedText text) := h.sublist

theorem Divided.pairwise_origins (h : Divided none [] (placedText text) ts) :
    (origins ((layout ts).map Piece.placed)).Pairwise (· < ·) := by
  exact (pairwise_origins_place _ _).sublist
    ((origins_map_placed _).trans (origins_sublist h.sublist_layout))

theorem Divided.nodup_comments (h : Divided none [] (placedText text) ts) :
    (comments (layout ts)).Nodup := by
  refine Squeeze.nodup_comments (h.sublist_layout.nodup (nodup_place _ _)) ?_
  rintro k hk rfl
  obtain ⟨body, hbody, -⟩ := (h.isPieceOf_layout (mem_comments.mp hk)).1
  cases hbody

/-! In what follows, the mappings are those of the whole layout. -/

theorem Divided.exists_mapping (h : Divided none [] (placedText text) ts) {t : Token} (ht : t ∈ ts)
    {c : Placed} (hc : c ∈ t.chars) :
    ∃ x ∈ mappingsAlong .start ((layout ts).map Piece.placed), c.origin = some x.origin := by
  have hx : .read c ∈ layout ts := read_mem_layoutFrom ht hc none
  obtain ⟨p, hp⟩ := Option.isSome_iff_exists.mp (h.isSome_origin hx)
  have hmem : p ∈ origins ((layout ts).map Piece.placed) :=
    mem_origins (List.mem_map_of_mem hx) hp
  rw [← map_origin_mappingsAlong .start] at hmem
  obtain ⟨x, hx, rfl⟩ := List.mem_map.mp hmem
  exact ⟨x, hx, hp⟩

theorem Divided.exists_charAt (h : Divided none [] (placedText text) ts) {x : Mapping}
    (hx : x ∈ mappingsAlong .start ((layout ts).map Piece.placed)) :
    ∃ c, charAt (spelling ((layout ts).map Piece.placed)) x.generated = some c ∧
      charAt (canonical text.toList) x.origin = some c := by
  obtain ⟨c, hc, ho, hm⟩ := exists_of_mem_mappingsAlong hx
  refine ⟨c.char, ?_, ?_⟩
  · rw [charAt_eq hm rfl]
  · obtain ⟨d | k, hp, rfl⟩ := List.mem_map.mp hc
    · exact charAt_eq (h.isPieceOf_layout hp) ho
    · cases ho

theorem Divided.exists_mapping_of_newline (h : Divided none [] (placedText text) ts) {c : Placed}
    (hc : c ∈ place .start (spelling ((layout ts).map Piece.placed))) (hline : c.char = '\n') :
    ∃ x ∈ mappingsAlong .start ((layout ts).map Piece.placed), c.origin = some x.generated := by
  have hunspoken := unspoken_mappingsAlong (p := .start) fun c hc => h.isSome_origin hc
  rcases exists_or_mem_unspoken (mappingsAlong .start ((layout ts).map Piece.placed)) hc
    with hx | hmem
  · exact hx
  · have hchar := List.mem_map_of_mem (f := Placed.char) hmem
    rw [hunspoken, hline] at hchar
    obtain ⟨k, -, hk⟩ := List.mem_map.mp hchar
    cases hk

end Layout

/-- A short form can be traced back to the script, character by character. -/
theorem exists_tokens_tracesBack {config : Config} {text : String} {m : Minified}
    (h : minify config text = .ok m) :
    ∃ ts, Divided none [] (placedText text) ts ∧ TracesBack text ts m := by
  obtain ⟨source, ts, -, hd, rfl⟩ := minify_eq_ok_iff.mp h
  refine ⟨ts, hd, ?_⟩
  have hcode := Minified.toList_code_ofTokens config source ts
  have horigin := map_origin_mappingsAlong .start ((layout ts).map Piece.placed)
  have hcomment : ∀ k ∈ comments (layout ts),
      IsBlockComment (spelling k) ∧ k <:+: placedText text :=
    fun k hk => hd.isPieceOf_layout (mem_comments.mp hk)
  exact
    { code_eq := by rw [hcode, spelling, List.map_map]; rfl
      mapping_iff := by
        rintro ⟨c, x⟩ hx p q hp
        rw [hcode] at hx
        apply mem_mappingsAlong_iff _ hp
        rw [List.zip_map_right]
        exact List.mem_map_of_mem hx
      origin_eq := by
        refine horigin.trans ?_
        rw [origins, List.filterMap_map]
        rfl
      increasing := by
        have hpos := pairwise_generated .start ((layout ts).map Piece.placed)
        have hneg := hd.pairwise_origins
        rw [← horigin] at hneg
        exact (List.pairwise_map.mp hpos).and (List.pairwise_map.mp hneg)
      token_mapped := fun t ht c hc => hd.exists_mapping ht hc
      same_char := by
        intro x hx
        rw [hcode]
        exact hd.exists_charAt hx
      unspoken_eq := by
        rw [hcode]
        exact unspoken_mappingsAlong fun c hc => hd.isSome_origin hc
      is_comment := hcomment
      nodup := hd.nodup_comments
      line_mapped := by
        intro c hc hline
        rw [hcode] at hc
        exact hd.exists_mapping_of_newline hc hline
      begins := by
        intro c hc
        rw [hcode, spelling, List.head?_map] at hc
        obtain ⟨d, hd', rfl⟩ := Option.map_eq_some_iff.mp hc
        exact Placed.isBlank_eq_false_iff.mp (hd.head_layout d hd') }

/-- The line end and the space in front of the first token are not written, and the space that stands
for the comment has no mapping. -/
theorem tracesBack_of_comment :
    ∃ m, minify ⟨some "a.js", none, none⟩ "\n var/* */x" = .ok m ∧ m.code = "var x" ∧
      ∃ ts, Divided none [] (placedText "\n var/* */x") ts ∧
        TracesBack "\n var/* */x" ts m := by
  have h : (minify ⟨some "a.js", none, none⟩ "\n var/* */x").toOption.map Minified.code =
      some "var x" := by decide +kernel
  obtain ⟨m, hm, hcode⟩ := exists_of_toOption_eq_some h
  exact ⟨m, hm, hcode, exists_tokens_tracesBack hm⟩

end Squeeze
