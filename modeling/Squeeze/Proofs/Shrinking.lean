import Squeeze.Proofs.Failure
import Squeeze.Proofs.Provenance
import Squeeze.Proofs.Relexing
import Squeeze.Text.Size

/-!
# Short forms do not grow

Of each character of a script it is known what became of it: it was written, it was dropped, or it
belongs to a block comment, for which at most one space was written, and a block comment takes four bytes
at least. So a short form is never larger than the script, and if it is as large, nothing was dropped.

The code of a short form may be made short again, and its code again. Where slashes have come together, a
pass can find a comment that was none in the script, and such a chain of passes may go on for a while. But
a code is canonical, so each pass makes it smaller or gives it back as it is, and the chain comes to rest
(`Settles`).
-/

namespace Squeeze

/-! ## Bytes that are written -/

theorem IsBlockComment.one_lt_byteLength {cs : List Char} (h : IsBlockComment cs) :
    1 < byteLength cs := by
  obtain ⟨body, rfl, -⟩ := h
  have hslash := ('/').utf8Size_pos
  have hstar := ('*').utf8Size_pos
  simp only [byteLength_cons]
  omega

/-- What is written for some pieces is no larger than the pieces, and for each block comment there is a
byte to spare. -/
theorem byteLength_placed_add_le {xs : List Piece}
    (hcomment : ∀ k ∈ comments xs, IsBlockComment (spelling k)) :
    byteLength (spelling (xs.map Piece.placed)) + (comments xs).length ≤
      byteLength (spelling (xs.flatMap Piece.chars)) := by
  induction xs with
  | nil => exact Nat.le_refl 0
  | cons x xs ih =>
    rw [List.map_cons, List.flatMap_cons, spelling_cons, spelling_append, byteLength_cons,
      byteLength_append]
    rcases x with c | k
    · have ih := ih hcomment
      have hone : byteLength (spelling (Piece.read c).chars) = c.char.utf8Size := by simp
      have hcomments : comments (.read c :: xs) = comments xs := rfl
      rw [hone, hcomments, Piece.placed_read]
      omega
    · have ih := ih fun k' hk' => hcomment k' (List.mem_cons_of_mem k hk')
      have hlt := (hcomment k (List.mem_cons_self ..)).one_lt_byteLength
      have hspace : (Piece.comment k).placed.char.utf8Size = 1 := rfl
      have hcomments : comments (.comment k :: xs) = k :: comments xs := rfl
      rw [hspace, hcomments, Piece.chars_comment, List.length_cons]
      omega

theorem map_placed_of_comments_eq_nil {xs : List Piece} (h : comments xs = []) :
    xs.map Piece.placed = xs.flatMap Piece.chars := by
  induction xs with
  | nil => rfl
  | cons x xs ih =>
    rcases x with c | k
    · have ih := ih h
      rw [List.map_cons, List.flatMap_cons, ih]
      rfl
    · cases h

section Layout

variable {text : String} {ts : List Token}

theorem Divided.spelling_sublist (h : Divided none [] (placedText text) ts) :
    (spelling ((layout ts).flatMap Piece.chars)).Sublist (canonical text.toList) := by
  have hchars : (placedText text).map Placed.char = canonical text.toList := map_char_place _ _
  rw [← hchars]
  exact h.sublist_layout.map Placed.char

theorem Divided.byteLength_layout_add_le (h : Divided none [] (placedText text) ts) :
    byteLength (spelling ((layout ts).map Piece.placed)) + (comments (layout ts)).length ≤
      byteLength (canonical text.toList) := by
  refine Nat.le_trans (byteLength_placed_add_le fun k hk => ?_)
    (byteLength_le_of_sublist h.spelling_sublist)
  exact (h.isPieceOf_layout (mem_comments.mp hk)).1

/-- A layout that is as large as the script is the script. -/
theorem Divided.spelling_layout_eq (h : Divided none [] (placedText text) ts)
    (hle : byteLength (canonical text.toList) ≤
      byteLength (spelling ((layout ts).map Piece.placed))) :
    spelling ((layout ts).map Piece.placed) = canonical text.toList := by
  have hadd := h.byteLength_layout_add_le
  have hcomments : comments (layout ts) = [] := List.length_eq_zero_iff.mp (by omega)
  rw [map_placed_of_comments_eq_nil hcomments] at hle ⊢
  exact eq_of_sublist_of_byteLength_le h.spelling_sublist hle

end Layout

section Code

variable {config : Config} {text : String} {m : Minified}

theorem utf8ByteSize_code_le (h : minify config text = .ok m) :
    m.code.utf8ByteSize ≤ text.utf8ByteSize := by
  obtain ⟨source, ts, -, hdiv, rfl⟩ := minify_eq_ok_iff.mp h
  have hlayout := hdiv.byteLength_layout_add_le
  have hcanonical := byteLength_canonical_le text.toList
  rw [← byteLength_toList, ← byteLength_toList, Minified.toList_code_ofTokens]
  omega

/-- A code is as large as the script only where it is the script, with spaces for its control characters
and line feeds for its carriage returns. -/
theorem utf8ByteSize_code_eq_iff (h : minify config text = .ok m) :
    m.code.utf8ByteSize = text.utf8ByteSize ↔ m.code.toList = tidied text.toList := by
  rw [← byteLength_toList, ← byteLength_toList]
  constructor
  · intro hsize
    obtain ⟨source, ts, -, hdiv, rfl⟩ := minify_eq_ok_iff.mp h
    have hlayout := hdiv.byteLength_layout_add_le
    have hcanonical := byteLength_canonical_le text.toList
    rw [Minified.toList_code_ofTokens] at hsize ⊢
    rw [hdiv.spelling_layout_eq (by omega), canonical_eq_tidied (by omega)]
  · intro hcode
    rw [hcode, byteLength_tidied]

/-- A second pass makes the code smaller or gives it back. -/
theorem code_eq_or_lt {m' : Minified} (h : minify config text = .ok m)
    (h' : minify config m.code = .ok m') :
    m'.code = m.code ∨ m'.code.utf8ByteSize < m.code.utf8ByteSize := by
  rcases Nat.lt_or_eq_of_le (utf8ByteSize_code_le h') with hlt | heq
  · exact Or.inr hlt
  · left
    have hcode := (utf8ByteSize_code_eq_iff h').mp heq
    rw [tidied_eq_self (canonical_code h)] at hcode
    exact String.toList_inj.mp hcode

end Code

/-! ## Chains of passes -/

/-- How a chain of passes that begins with the code `first` comes to rest, when `codes` are the codes
after it. -/
structure Settles (config : Config) (first : String) (codes : List String) : Prop where
  /-- Each pass makes the code smaller. -/
  shrinking : (first :: codes).IsChain fun c d => d.utf8ByteSize < c.utf8ByteSize
  /-- So there are no more of them than the first code has bytes. -/
  length_le : codes.length ≤ first.utf8ByteSize
  /-- The next pass gives back what it was given, and so does any other, or the next one fails. -/
  at_rest :
    (∀ n, passes config (codes.length + n) first =
        codes.map .ok ++ List.replicate n (.ok (codes.getLastD first))) ∨
      ∃ e, ∀ n, passes config (codes.length + n + 1) first =
        codes.map .ok ++ [.error (.scan e)]

section Settles

variable {config : Config} {first : String}

theorem Settles.of_error {e : ScanError} (h : minify config first = .error (.scan e)) :
    Settles config first [] where
  shrinking := List.isChain_singleton first
  length_le := Nat.zero_le _
  at_rest := by
    refine Or.inr ⟨e, fun n => ?_⟩
    rw [passes, h]
    rfl

theorem Settles.of_code_eq {m : Minified} (h : minify config first = .ok m)
    (hcode : m.code = first) : Settles config first [] where
  shrinking := List.isChain_singleton first
  length_le := Nat.zero_le _
  at_rest := by
    refine Or.inl fun n => ?_
    rw [List.length_nil, Nat.zero_add]
    exact passes_eq_replicate h hcode n

/-- A chain that comes to rest does so after one more pass, if that makes its code smaller. -/
theorem Settles.cons {m : Minified} {codes : List String} (h : minify config first = .ok m)
    (hlt : m.code.utf8ByteSize < first.utf8ByteSize) (hs : Settles config m.code codes) :
    Settles config first (m.code :: codes) where
  shrinking := List.isChain_cons_cons.mpr ⟨hlt, hs.shrinking⟩
  length_le := by
    have hle := hs.length_le
    rw [List.length_cons]
    omega
  at_rest := by
    have hpass : ∀ n, passes config (n + 1) first = .ok m.code :: passes config n m.code := by
      intro n
      rw [passes, h]
    rcases hs.at_rest with hrest | ⟨e, hrest⟩
    · refine Or.inl fun n => ?_
      rw [List.length_cons, Nat.add_right_comm, hpass, hrest, List.getLastD_cons]
      rfl
    · refine Or.inr ⟨e, fun n => ?_⟩
      rw [List.length_cons, Nat.add_right_comm _ 1 n, hpass, hrest]
      rfl

end Settles

/-- The chain of passes after a short form comes to rest. The induction is on the size of the code. -/
theorem exists_settles {config : Config} {text : String} {m : Minified}
    (h : minify config text = .ok m) : ∃ codes, Settles config m.code codes := by
  induction hn : m.code.utf8ByteSize using Nat.strongRecOn generalizing text m with
  | ind n ih =>
    rcases hm : minify config m.code with e | m'
    · obtain ⟨source, _, hsource, -, -⟩ := minify_eq_ok_iff.mp h
      obtain ⟨e, rfl⟩ := exists_scan_of_error hsource hm
      exact ⟨[], .of_error hm⟩
    · rcases code_eq_or_lt h hm with heq | hlt
      · exact ⟨[], .of_code_eq hm heq⟩
      · obtain ⟨codes, hs⟩ := ih _ (hn ▸ hlt) hm rfl
        exact ⟨m'.code :: codes, hs.cons hm hlt⟩

/-- A short form is no larger than the script, and as large only if nothing was dropped. The passes that
follow, each on the code of the one before, make it smaller every time, until one gives back its own
input or fails; at the latest that is one pass after as many as the first code has bytes. -/
theorem minify_settles {config : Config} {text : String} {m : Minified}
    (h : minify config text = .ok m) :
    m.code.utf8ByteSize ≤ text.utf8ByteSize ∧
      (m.code.utf8ByteSize = text.utf8ByteSize ↔ m.code.toList = tidied text.toList) ∧
      ∃ codes, Settles config m.code codes :=
  ⟨utf8ByteSize_code_le h, utf8ByteSize_code_eq_iff h, exists_settles h⟩

/-- The two slashes come together, and the second pass takes what is behind them for a comment. -/
theorem minify_settles_of_slashes :
    ∃ m, minify ⟨some "a.js", none, none⟩ "é = 1 / /a/\r\nb" = .ok m ∧ m.code = "é=1//a/b" ∧
      m.code.utf8ByteSize ≤ "é = 1 / /a/\r\nb".utf8ByteSize ∧
      (m.code.utf8ByteSize = "é = 1 / /a/\r\nb".utf8ByteSize ↔
        m.code.toList = tidied "é = 1 / /a/\r\nb".toList) ∧
      ∃ codes, Settles ⟨some "a.js", none, none⟩ m.code codes := by
  have h : (minify ⟨some "a.js", none, none⟩ "é = 1 / /a/\r\nb").toOption.map Minified.code =
      some "é=1//a/b" := by decide +kernel
  obtain ⟨m, hm, hcode⟩ := exists_of_toOption_eq_some h
  exact ⟨m, hm, hcode, minify_settles hm⟩

/-- A chain that ends in a failure: the slash and the asterisk come together. -/
example : (passes ⟨some "a.js", none, none⟩ 3 "a / *").map Except.toOption =
    [some "a/*", none] := by
  decide +kernel

end Squeeze
