import Squeeze.Script.Grammar

/-!
# Comments are where the grammar has them

`front` finds a comment at the front of a stream by reading on until it ends. The grammar only says
which texts are comments. The two agree: what `front` passes over is a comment, and a comment is
passed over whole, whatever comes after it.
-/

namespace Squeeze

/-! ## Block comments -/

/-- The end of a block comment: what comes after its `/*`. -/
def ClosesBlock (cs : List Char) : Prop :=
  ∃ body, cs = body ++ ['*', '/'] ∧ ¬ ['*', '/'] <:+: body ++ ['*']

theorem isBlockComment_iff {cs : List Char} :
    IsBlockComment cs ↔ ∃ inside, cs = '/' :: '*' :: inside ∧ ClosesBlock inside := by
  constructor
  · rintro ⟨body, rfl, h⟩
    exact ⟨_, rfl, body, rfl, h⟩
  · rintro ⟨_, rfl, body, rfl, h⟩
    exact ⟨body, rfl, h⟩

theorem not_closesBlock_nil : ¬ ClosesBlock [] := by
  rintro ⟨body, h, -⟩
  simp at h

theorem starSlash_prefix_cons {c : Char} {cs : List Char} :
    ['*', '/'] <+: c :: cs ↔ c = '*' ∧ cs.head? = some '/' := by
  cases cs with
  | nil => simp [List.cons_prefix_cons]
  | cons d cs =>
    simp only [List.cons_prefix_cons, List.nil_prefix, and_true, List.head?_cons, Option.some.injEq]
    exact ⟨fun h => ⟨h.1.symm, h.2.symm⟩, fun h => ⟨h.1.symm, h.2.symm⟩⟩

theorem head?_starSlash (body : List Char) :
    (body ++ ['*', '/']).head? = (body ++ ['*']).head? := by
  cases body <;> rfl

/-- The end of a comment is here, or else it is not here and it is further on. -/
theorem closesBlock_cons {c : Char} {cs : List Char} :
    ClosesBlock (c :: cs) ↔
      (c = '*' ∧ cs = ['/']) ∨ (¬ (c = '*' ∧ cs.head? = some '/') ∧ ClosesBlock cs) := by
  constructor
  · rintro ⟨body, he, h⟩
    cases body with
    | nil =>
      left
      simpa using he
    | cons d body =>
      obtain ⟨rfl, rfl⟩ : c = d ∧ cs = body ++ ['*', '/'] := by simpa using he
      right
      rw [List.cons_append, List.infix_cons_iff, starSlash_prefix_cons, not_or] at h
      rw [head?_starSlash]
      exact ⟨h.1, body, rfl, h.2⟩
  · rintro (⟨rfl, rfl⟩ | ⟨hn, body, rfl, h⟩)
    · refine ⟨[], rfl, ?_⟩
      intro h
      have := h.length_le
      simp at this
    · refine ⟨c :: body, rfl, ?_⟩
      rw [head?_starSlash] at hn
      rw [List.cons_append, List.infix_cons_iff, starSlash_prefix_cons, not_or]
      exact ⟨hn, h⟩

theorem ClosesBlock.length {cs : List Char} (h : ClosesBlock cs) : 2 ≤ cs.length := by
  obtain ⟨body, rfl, -⟩ := h
  simp

theorem ClosesBlock.head?_append {inside : List Placed} (h : ClosesBlock (spelling inside))
    (after : List Placed) : ((inside ++ after).head?).map Placed.char = (spelling inside).head? := by
  cases inside with
  | nil => exact absurd h not_closesBlock_nil
  | cons c inside => rfl

/-- `throughBlock` finds the end of a comment, and finds it where the grammar puts it. -/
theorem throughBlock_eq_some_iff {cs inside after : List Placed} :
    throughBlock cs = some (inside, after) ↔
      cs = inside ++ after ∧ ClosesBlock (spelling inside) := by
  induction cs generalizing inside with
  | nil =>
    simp only [throughBlock, reduceCtorEq, false_iff, not_and]
    intro h
    obtain ⟨rfl, rfl⟩ := List.append_eq_nil_iff.mp h.symm
    exact not_closesBlock_nil
  | cons c cs ih =>
    rw [throughBlock]
    split
    · -- the end is here
      rename_i hend
      obtain ⟨hc, hd⟩ := hend
      rcases cs with _ | ⟨d, cs⟩
      · simp at hd
      have hslash : d.char = '/' := by simpa using hd
      constructor
      · intro h
        cases h
        exact ⟨rfl, closesBlock_cons.mpr (Or.inl ⟨hc, by simp [hslash]⟩)⟩
      · rintro ⟨he, h⟩
        rcases inside with _ | ⟨c', _ | ⟨d', inside⟩⟩
        · exact absurd h not_closesBlock_nil
        · exact absurd h.length (by simp)
        · simp only [List.cons_append, List.cons.injEq] at he
          obtain ⟨rfl, rfl, rfl⟩ := he
          rcases closesBlock_cons.mp h with ⟨-, h2⟩ | ⟨h1, -⟩
          · have : inside = [] := by simpa [spelling, hslash] using h2
            simp [this]
          · exact absurd ⟨hc, by simp [hslash]⟩ h1
    · -- the end is further on, and so is every end that the grammar allows
      rename_i hend
      rw [Option.map_eq_some_iff]
      constructor
      · rintro ⟨⟨inside', after'⟩, hr, he⟩
        cases he
        obtain ⟨rfl, h⟩ := ih.mp hr
        rw [h.head?_append] at hend
        exact ⟨rfl, closesBlock_cons.mpr (Or.inr ⟨hend, h⟩)⟩
      · rintro ⟨he, h⟩
        rcases inside with _ | ⟨c', inside⟩
        · exact absurd h not_closesBlock_nil
        obtain ⟨rfl, rfl⟩ : c = c' ∧ cs = inside ++ after := by simpa using he
        rcases closesBlock_cons.mp h with ⟨h1, h2⟩ | ⟨-, h2⟩
        · have hd : ((inside ++ after).head?).map Placed.char = some '/' := by
            rcases inside with _ | ⟨d, inside⟩
            · cases h2
            · exact congrArg List.head? h2
          exact absurd ⟨h1, hd⟩ hend
        · exact ⟨(inside, after), ih.mpr ⟨rfl, h2⟩, rfl⟩

theorem throughBlock_eq_none_iff {cs : List Placed} :
    throughBlock cs = none ↔ ¬ ['*', '/'] <:+: spelling cs := by
  induction cs with
  | nil =>
    refine ⟨fun _ h => ?_, fun _ => rfl⟩
    have := h.length_le
    simp at this
  | cons c cs ih =>
    rw [throughBlock, spelling_cons, List.infix_cons_iff, starSlash_prefix_cons, not_or, ← ih,
      spelling, List.head?_map]
    split
    · rename_i hend
      simp [hend]
    · rename_i hend
      rw [Option.map_eq_none_iff]
      exact ⟨fun h => ⟨hend, h⟩, fun h => h.2⟩

/-! ## The front of a stream -/

theorem opening_cases (cs : List Placed) :
    cs = [] ∨ (∃ c rest, cs = c :: rest ∧ opensComment (spelling cs) = false) ∨
    (∃ a b rest, cs = a :: b :: rest ∧ a.char = '/' ∧ b.char = '/') ∨
    (∃ a b rest, cs = a :: b :: rest ∧ a.char = '/' ∧ b.char = '*') := by
  rcases cs with _ | ⟨a, _ | ⟨b, rest⟩⟩
  · exact Or.inl rfl
  · exact Or.inr (Or.inl ⟨a, [], rfl, rfl⟩)
  right
  by_cases ha : a.char = '/'
  · by_cases hb : b.char = '/'
    · exact Or.inr (Or.inl ⟨a, b, rest, rfl, ha, hb⟩)
    by_cases hb' : b.char = '*'
    · exact Or.inr (Or.inr ⟨a, b, rest, rfl, ha, hb'⟩)
    · exact Or.inl ⟨a, b :: rest, rfl, by simp [opensComment, hb, hb']⟩
  · exact Or.inl ⟨a, b :: rest, rfl, by simp [opensComment, ha]⟩

theorem front_cons {c : Placed} {cs : List Placed}
    (hn : opensComment (spelling (c :: cs)) = false) : front (c :: cs) = .piece (.read c) cs := by
  rw [front]
  by_cases hc : c.char = '/'
  · rcases cs with _ | ⟨d, cs⟩
    · simp [hc]
    · have hd : d.char ≠ '/' ∧ d.char ≠ '*' := by
        simpa [opensComment, hc] using hn
      simp [hc, hd]
  · simp [hc]

theorem front_cons_of_ne {c : Placed} {cs : List Placed} (hc : c.char ≠ '/') :
    front (c :: cs) = .piece (.read c) cs := by
  rw [front, if_pos hc]

section Comment

variable {a b : Placed} {cs : List Placed}

theorem front_line (ha : a.char = '/') (hb : b.char = '/') :
    front (a :: b :: cs) = .ofList (fromTerminator (b :: cs)) := by
  simp [front, ha, hb]

theorem front_block (ha : a.char = '/') (hb : b.char = '*') {inside after : List Placed}
    (h : throughBlock cs = some (inside, after)) :
    front (a :: b :: cs) = .piece (.comment (a :: b :: inside)) after := by
  simp [front, ha, hb, h]

theorem front_openBlock (ha : a.char = '/') (hb : b.char = '*') (h : throughBlock cs = none) :
    front (a :: b :: cs) = .openComment := by
  simp [front, ha, hb, h]

end Comment

theorem front_blockComment {comment cs : List Placed} (hc : IsBlockComment (spelling comment)) :
    front (comment ++ cs) = .piece (.comment comment) cs := by
  obtain ⟨inside, he, hcl⟩ := isBlockComment_iff.mp hc
  rcases comment with _ | ⟨a, _ | ⟨b, comment⟩⟩
  · simp at he
  · simp at he
  · simp only [spelling_cons, List.cons.injEq] at he
    obtain ⟨ha, hb, rfl⟩ := he
    exact front_block ha hb (throughBlock_eq_some_iff.mpr ⟨rfl, hcl⟩)

theorem front_eq_ofList {cs : List Placed} (hend : ∀ c ∈ cs.head?, c.char = '\n') :
    front cs = .ofList cs := by
  rcases cs with _ | ⟨c, cs⟩
  · rfl
  · have hc : c.char = '\n' := hend c rfl
    exact front_cons_of_ne (by simp [hc])

theorem fromTerminator_append {body cs : List Placed} (hcan : IsCanonical body)
    (hb : '\n' ∉ spelling body) (hend : ∀ c ∈ cs.head?, c.char = '\n') :
    fromTerminator (body ++ cs) = cs := by
  induction body with
  | nil =>
    rcases cs with _ | ⟨c, cs⟩
    · rfl
    · have hc := Placed.isTerminator_of_char (hend c rfl)
      simp [fromTerminator, hc]
  | cons b body ih =>
    simp only [spelling_cons, List.mem_cons, not_or] at hb
    have hnt : b.isTerminator = false := by
      rw [Bool.eq_false_iff]
      exact fun h => hb.1 (hcan b (List.mem_cons_self ..) h).symm
    have := ih (hcan.subset (List.subset_cons_self ..)) hb.2
    simpa [fromTerminator, hnt] using this

theorem front_lineComment {comment cs : List Placed} (hc : IsLineComment (spelling comment))
    (hcan : IsCanonical comment) (hend : ∀ c ∈ cs.head?, c.char = '\n') :
    front (comment ++ cs) = front cs := by
  obtain ⟨body, he, hb⟩ := hc
  rcases comment with _ | ⟨a, _ | ⟨b, comment⟩⟩
  · simp at he
  · simp at he
  · simp only [spelling_cons, List.cons.injEq] at he
    obtain ⟨ha, hb', rfl⟩ := he
    have hline : front (a :: b :: (comment ++ cs)) =
        .ofList (fromTerminator (b :: (comment ++ cs))) := front_line ha hb'
    refine hline.trans ?_
    rw [front_eq_ofList hend]
    congr 1
    exact fromTerminator_append (hcan.subset (List.subset_cons_self ..))
      (by simpa [hb'] using hb) hend

theorem exists_line (cs : List Placed) :
    ∃ line, cs = line ++ fromTerminator cs ∧ '\n' ∉ spelling line ∧
      ∀ c ∈ (fromTerminator cs).head?, c.isTerminator = true := by
  refine ⟨cs.takeWhile fun c => !c.isTerminator, (List.takeWhile_append_dropWhile ..).symm, ?_, ?_⟩
  · intro h
    obtain ⟨c, hc, he⟩ := List.mem_map.mp h
    have hall := List.all_takeWhile (p := fun c : Placed => !c.isTerminator) (l := cs)
    have := List.all_eq_true.mp hall c hc
    simp [Placed.isTerminator_of_char he] at this
  · intro c hc
    have := List.head?_dropWhile_not (fun c : Placed => !c.isTerminator) cs
    unfold fromTerminator at hc
    rw [Option.mem_def] at hc
    rw [hc] at this
    simpa using this

theorem exists_lineComment {a b : Placed} (ha : a.char = '/') (hb : b.char = '/')
    (cs : List Placed) :
    ∃ comment, a :: b :: cs = comment ++ fromTerminator (b :: cs) ∧
      IsLineComment (spelling comment) ∧
      ∀ c ∈ (fromTerminator (b :: cs)).head?, c.isTerminator = true := by
  obtain ⟨line, he, hline, hend⟩ := exists_line (b :: cs)
  rcases line with _ | ⟨b', line⟩
  · -- the second slash would be the line end
    have hterm := hend b (by rw [← List.nil_append (fromTerminator _), ← he]; rfl)
    simp [Placed.isTerminator, hb] at hterm
  · obtain ⟨rfl, hcs⟩ := List.cons.inj he
    refine ⟨a :: b :: line, by rw [List.cons_append, ← he], ?_, hend⟩
    exact ⟨spelling line, by simp [ha, hb], fun h => hline (List.mem_cons_of_mem _ h)⟩

/-- What stands at the front stands in the stream, either first or after a line comment. -/
theorem of_front_eq_piece {cs rest : List Placed} {x : Piece} (hcan : IsCanonical cs)
    (h : front cs = .piece x rest) :
    (∃ c, x = .read c ∧ cs = c :: rest ∧ opensComment (spelling cs) = false) ∨
    (∃ comment c, x = .read c ∧ cs = comment ++ c :: rest ∧ IsLineComment (spelling comment) ∧
      c.char = '\n') ∨
    (∃ comment, x = .comment comment ∧ cs = comment ++ rest ∧
      IsBlockComment (spelling comment)) := by
  rcases opening_cases cs with rfl | ⟨c, ds, rfl, hn⟩ | ⟨a, b, ds, rfl, ha, hb⟩ |
    ⟨a, b, ds, rfl, ha, hb⟩
  · cases h
  · rw [front_cons hn] at h
    cases h
    exact Or.inl ⟨c, rfl, rfl, hn⟩
  · rw [front_line ha hb] at h
    obtain ⟨comment, he, hcomment, hend⟩ := exists_lineComment ha hb ds
    rcases hd : fromTerminator (b :: ds) with _ | ⟨c, tail⟩ <;> rw [hd] at h he hend
    · cases h
    · cases h
      have hmem : c ∈ a :: b :: ds := by
        rw [he]
        simp
      exact Or.inr (Or.inl ⟨comment, c, rfl, he, hcomment, hcan c hmem (hend c rfl)⟩)
  · rcases ht : throughBlock ds with _ | ⟨inside, after⟩
    · rw [front_openBlock ha hb ht] at h
      cases h
    · rw [front_block ha hb ht] at h
      cases h
      obtain ⟨rfl, hcl⟩ := throughBlock_eq_some_iff.mp ht
      refine Or.inr (Or.inr ⟨_, rfl, rfl, ?_⟩)
      exact isBlockComment_iff.mpr ⟨spelling inside, by simp [ha, hb], hcl⟩

/-- In a stream of any characters, too, a piece has characters, and these and what comes after it are the end
of the stream. -/
theorem front_suffix {cs rest : List Placed} {x : Piece} (h : front cs = .piece x rest) :
    x.chars ≠ [] ∧ x.chars ++ rest <:+ cs := by
  rcases opening_cases cs with rfl | ⟨c, ds, rfl, hn⟩ | ⟨a, b, ds, rfl, ha, hb⟩ |
    ⟨a, b, ds, rfl, ha, hb⟩
  · cases h
  · rw [front_cons hn] at h
    cases h
    exact ⟨List.cons_ne_nil _ _, List.suffix_rfl⟩
  · rw [front_line ha hb] at h
    have hline : fromTerminator (b :: ds) <:+ a :: b :: ds :=
      (List.dropWhile_suffix _).trans (List.suffix_cons ..)
    rcases hd : fromTerminator (b :: ds) with _ | ⟨c, tail⟩ <;> rw [hd] at h hline
    · cases h
    · cases h
      exact ⟨List.cons_ne_nil _ _, hline⟩
  · rcases ht : throughBlock ds with _ | ⟨inside, after⟩
    · rw [front_openBlock ha hb ht] at h
      cases h
    · rw [front_block ha hb ht] at h
      cases h
      obtain ⟨rfl, -⟩ := throughBlock_eq_some_iff.mp ht
      exact ⟨List.cons_ne_nil _ _, List.suffix_rfl⟩

end Squeeze
