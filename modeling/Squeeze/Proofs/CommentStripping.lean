import Squeeze.Proofs.Failure
import Squeeze.Session

/-!
# A text without its comments

What is handed out when a text is taken one logical character after another, up to its end or to the
first error. `Strips` says what that is by the rules of the grammar: a line comment is left out, its line
end is not; a block comment is one space that was not read; and every other character is there once, as
it was read. Taking the characters one after another gives this and nothing else, and it fails exactly
where a block comment opens and is never closed, after everything before it has been handed out.

A call may leave one character parked. It does so only when it hands out a slash, because a slash is the
only character that cannot be told from a comment without the character after it.
-/

namespace Squeeze

/-! ## By the grammar -/

/-- Without its comments a text reads `out`, up to a point where `rest` is ahead. -/
inductive Strips : List Placed → List Placed → List Placed → Prop
  /-- Nothing is read. -/
  | here (cs : List Placed) : Strips cs [] cs
  /-- A character, where no comment begins. It is the only one that is passed, even if it is a slash. -/
  | char {cs out rest : List Placed} (c : Placed)
      (hn : opensComment (spelling (c :: cs)) = false) (h : Strips cs out rest) :
      Strips (c :: cs) (c :: out) rest
  /-- A line comment, up to its line end. -/
  | lineComment {cs out rest : List Placed} (comment : List Placed)
      (hc : IsLineComment (spelling comment)) (hend : ∀ c ∈ cs.head?, c.char = '\n')
      (h : Strips cs out rest) : Strips (comment ++ cs) out rest
  /-- A block comment. -/
  | blockComment {cs out rest : List Placed} (comment : List Placed)
      (hc : IsBlockComment (spelling comment)) (h : Strips cs out rest) :
      Strips (comment ++ cs) (.synthetic ' ' :: out) rest

/-- A block comment opens at the beginning of a text, and nothing in the text closes it. -/
def OpensForever (cs : List Char) : Prop :=
  ∃ body, cs = '/' :: '*' :: body ∧ ¬ ['*', '/'] <:+: body

/-- Every text can be read up to its end or to a block comment that is never closed. -/
theorem exists_strips {cs : List Placed} (hcan : IsCanonical cs) :
    ∃ out rest, Strips cs out rest ∧ (rest = [] ∨ OpensForever (spelling rest)) := by
  rcases opening_cases cs with rfl | ⟨c, ds, rfl, hn⟩ | ⟨a, b, ds, rfl, ha, hb⟩ |
    ⟨a, b, ds, rfl, ha, hb⟩
  · exact ⟨[], [], .here [], Or.inl rfl⟩
  · obtain ⟨out, rest, h, hend⟩ := exists_strips (hcan.subset (List.subset_cons_self c ds))
    exact ⟨c :: out, rest, .char c hn h, hend⟩
  · obtain ⟨comment, he, hcomment, hterm⟩ := exists_lineComment ha hb ds
    have hline : ∀ c ∈ (fromTerminator (b :: ds)).head?, c.char = '\n' := by
      intro c hc
      refine hcan c ?_ (hterm c hc)
      rw [he]
      exact List.mem_append_right _ (List.mem_of_head? hc)
    have hrest := hcan.subset (he ▸ List.subset_append_right comment (fromTerminator (b :: ds)))
    have hlen : (fromTerminator (b :: ds)).length < (a :: b :: ds).length :=
      Nat.lt_succ_of_le (List.dropWhile_sublist _).length_le
    obtain ⟨out, rest, h, hend⟩ := exists_strips hrest
    exact ⟨out, rest, he ▸ .lineComment comment hcomment hline h, hend⟩
  · rcases ht : throughBlock ds with _ | ⟨inside, after⟩
    · refine ⟨[], a :: b :: ds, .here _, Or.inr ⟨spelling ds, ?_, throughBlock_eq_none_iff.mp ht⟩⟩
      rw [spelling_cons, spelling_cons, ha, hb]
    · have hlen := length_throughBlock ht
      obtain ⟨rfl, hcl⟩ := throughBlock_eq_some_iff.mp ht
      have hcomment : IsBlockComment (spelling (a :: b :: inside)) :=
        isBlockComment_iff.mpr ⟨spelling inside, by rw [spelling_cons, spelling_cons, ha, hb], hcl⟩
      obtain ⟨out, rest, h, hend⟩ :=
        exists_strips (hcan.subset fun x hx => by simp [hx] : IsCanonical after)
      exact ⟨_, rest, .blockComment (a :: b :: inside) hcomment h, hend⟩
termination_by cs.length

/-! ## By a reader -/

namespace Reader

variable {r r' : Reader} {cs out rest : List Placed}

/-- The reader when it goes on from a first call. -/
theorem drainLogical_some {c : Placed} (h : r.nextLogical = (.ok (some c), r')) :
    r.drainLogical = (c :: r'.drainLogical.1, r'.drainLogical.2) := by
  rw [drainLogical]
  split <;> rename_i hr <;> rw [h] at hr <;> cases hr
  rfl

theorem drainLogical_none (h : r.nextLogical = (.ok none, r')) :
    r.drainLogical = ([], none, r') := by
  rw [drainLogical]
  split <;> rename_i hr <;> rw [h] at hr <;> cases hr
  rfl

theorem drainLogical_error {e : ScanError} (h : r.nextLogical = (.error e, r')) :
    r.drainLogical = ([], some e, r') := by
  rw [drainLogical]
  split <;> rename_i hr <;> rw [h] at hr <;> cases hr
  rfl

theorem drainLogical_congr (h : r.nextLogical = r'.nextLogical) :
    r.drainLogical = r'.drainLogical := by
  rcases hr : r'.nextLogical with ⟨e | _ | c, r''⟩
  · rw [drainLogical_error (h.trans hr), drainLogical_error hr]
  · rw [drainLogical_none (h.trans hr), drainLogical_none hr]
  · rw [drainLogical_some (h.trans hr), drainLogical_some hr]

end Reader

/-- What the grammar reads is handed out, and the reader goes on with the rest. -/
theorem Strips.drainLogical_eq {cs out rest : List Placed} (h : Strips cs out rest)
    (hcan : IsCanonical cs) {r : Reader} (hr : r.stream = cs) :
    r.drainLogical =
      (out ++ (r.resume rest).drainLogical.1, (r.resume rest).drainLogical.2) := by
  induction h generalizing r with
  | here cs =>
    have hnext := (r.ahead_resume cs).nextLogical_eq (congrArg front hr)
    exact Reader.drainLogical_congr hnext.symm
  | @char cs out rest c hn h ih =>
    have hf : front r.stream = .piece (.read c) cs := hr ▸ front_cons hn
    obtain ⟨r', hnext, ha⟩ := Reader.nextLogical_piece hf
    rw [Reader.drainLogical_some hnext, ih (hcan.subset (List.subset_cons_self c cs)) ha.stream_eq,
      ha.resume_eq]
    rfl
  | @lineComment cs out rest comment hc hend h ih =>
    -- the comment is passed together with what comes after it, by the same call
    have hf : front r.stream = front cs :=
      hr ▸ front_lineComment hc (hcan.subset (List.subset_append_left ..)) hend
    have hnext := (r.ahead_resume cs).nextLogical_eq hf
    rw [Reader.drainLogical_congr hnext.symm]
    exact ih (hcan.subset (List.subset_append_right ..)) rfl
  | @blockComment cs out rest comment hc h ih =>
    have hf : front r.stream = .piece (.comment comment) cs := hr ▸ front_blockComment hc
    obtain ⟨r', hnext, ha⟩ := Reader.nextLogical_piece hf
    rw [Reader.drainLogical_some hnext, ih (hcan.subset (List.subset_append_right ..)) ha.stream_eq,
      ha.resume_eq]
    rfl

theorem OpensForever.front_eq {cs : List Placed} (h : OpensForever (spelling cs)) :
    front cs = .openComment := by
  obtain ⟨body, he, hb⟩ := h
  rcases cs with _ | ⟨a, _ | ⟨b, cs⟩⟩
  · simp at he
  · simp at he
  · simp only [spelling_cons, List.cons.injEq] at he
    obtain ⟨ha, hb', rfl⟩ := he
    exact front_openBlock ha hb' (throughBlock_eq_none_iff.mpr hb)

theorem Strips.drainLogical_ended {cs out : List Placed} (h : Strips cs out [])
    (hcan : IsCanonical cs) {r : Reader} (hr : r.stream = cs) :
    r.drainLogical = (out, none, r.resume []) := by
  have hnext : (r.resume []).nextLogical = (.ok none, r.resume []) :=
    Reader.nextLogical_ended rfl
  rw [h.drainLogical_eq hcan hr, Reader.drainLogical_none hnext, List.append_nil]

theorem Strips.drainLogical_openComment {cs out rest : List Placed} (h : Strips cs out rest)
    (hopen : OpensForever (spelling rest)) (hcan : IsCanonical cs) {r : Reader}
    (hr : r.stream = cs) :
    r.drainLogical = (out, some (reportOn r.source r.stop (.comment, none)), r.resume []) := by
  have hnext : (r.resume rest).nextLogical =
      (.error (reportOn r.source r.stop (.comment, none)), r.resume []) :=
    Reader.nextLogical_openComment hopen.front_eq
  rw [h.drainLogical_eq hcan hr, Reader.drainLogical_error hnext, List.append_nil]

/-- Only a slash is handed out with a character parked behind it. -/
theorem Reader.char_of_isSome_lookahead {r r' : Reader} {c : Option Placed}
    (h : r.nextLogical = (.ok c, r')) (hl : r'.lookahead.isSome) : ∃ d ∈ c, d.char = '/' := by
  rw [nextLogical] at h
  split at h
  · cases h
    cases hl
  · rename_i x rest _
    cases h
    by_cases hx : x.placed.char = '/'
    · exact ⟨x.placed, rfl, hx⟩
    · rw [if_neg hx] at hl
      cases hl
  · cases h

/-- A text is handed out without its comments. It is handed out to its end, or up to a block comment that
is never closed, which is reported on the last line; and in whatever state a reader is, a call leaves a
character parked only behind a slash. -/
theorem drainLogical_eq_iff_strips (source text : String) (out : List Placed)
    (failed : Option ScanError) :
    ((∃ r, (Reader.ofText source text).drainLogical = (out, failed, r)) ↔
      (failed = none ∧ Strips (placedText text) out []) ∨
      (failed = some ⟨.comment, 1 + lineEnds text.toList, source⟩ ∧
        ∃ rest, Strips (placedText text) out rest ∧ OpensForever (spelling rest))) ∧
    ∀ (r r' : Reader) (c : Option Placed), r.nextLogical = (.ok c, r') → r'.lookahead.isSome →
      ∃ d ∈ c, d.char = '/' := by
  refine ⟨?_, fun r r' c h hl => Reader.char_of_isSome_lookahead h hl⟩
  have hcan := isCanonical_placedText text
  have hreport : reportOn source (Position.start.advanceAll (canonical text.toList)) (.comment, none) =
      ⟨.comment, 1 + lineEnds text.toList, source⟩ := by
    rw [← line_stop]
    rfl
  constructor
  · rintro ⟨r, hr⟩
    obtain ⟨out', rest, h, rfl | hopen⟩ := exists_strips hcan
    · cases hr.symm.trans (h.drainLogical_ended hcan rfl)
      exact Or.inl ⟨rfl, h⟩
    · cases hr.symm.trans (h.drainLogical_openComment hopen hcan rfl)
      exact Or.inr ⟨congrArg some hreport, rest, h, hopen⟩
  · rintro (⟨rfl, h⟩ | ⟨rfl, rest, h, hopen⟩)
    · exact ⟨_, h.drainLogical_ended hcan rfl⟩
    · rw [← hreport]
      exact ⟨_, h.drainLogical_openComment hopen hcan rfl⟩

end Squeeze
