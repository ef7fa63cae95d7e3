import Squeeze.Proofs.Division
import Squeeze.Session

/-!
# States of a session

A session may do its steps in any order, with characters of its own, and go on after an error. What its
reader has still to hand out is nevertheless always a part of the text, in the order of the text, and so
it stays canonical (`isCanonical_run`). A step drops characters from the front of the stream
(`stream_step_suffix`); only a step that reads past a parked character takes one from behind it.
-/

namespace Squeeze

theorem IsCanonical.sublist {cs ds : List Placed} (h : IsCanonical cs) (hs : ds.Sublist cs) :
    IsCanonical ds := h.subset hs.subset

namespace Reader

/-- To read past the parked character takes the one behind it. -/
theorem stream_read_sublist (r : Reader) : r.read.2.stream.Sublist r.stream := by
  obtain ⟨source, lookahead, _ | ⟨c, rest⟩, stop⟩ := r
  · exact List.Sublist.refl _
  · exact (List.Sublist.refl lookahead.toList).append (List.sublist_cons_self c rest)

theorem stream_nextLogical_suffix {r : Reader} (hcan : IsCanonical r.stream) :
    r.nextLogical.2.stream <:+ r.stream := by
  unfold nextLogical
  rcases hf : front r.stream with _ | ⟨x, rest⟩ | _
  · exact List.nil_suffix
  · have hrest := suffix_of_front hcan hf
    dsimp only
    split
    · rw [stream_peek]
      exact hrest
    · exact hrest
  · exact List.nil_suffix

theorem stream_drainLogical_suffix {r : Reader} (hcan : IsCanonical r.stream) :
    r.drainLogical.2.2.stream <:+ r.stream := by
  fun_induction drainLogical r with
  | case1 r e r' h =>
    have hsuffix := stream_nextLogical_suffix hcan
    rw [h] at hsuffix
    exact hsuffix
  | case2 r r' h =>
    have hsuffix := stream_nextLogical_suffix hcan
    rw [h] at hsuffix
    exact hsuffix
  | case3 r c r' h cs failed r'' hr ih =>
    have hsuffix := stream_nextLogical_suffix hcan
    rw [h] at hsuffix
    have ih := ih (hcan.subset hsuffix.subset)
    rw [hr] at ih
    exact ih.trans hsuffix

end Reader

namespace Session

/-- A copied literal is passed over, whether it is closed or breaks off. -/
theorem reader_copyLiteral (s : Session) (opening : List Placed) (body : Body) :
    (s.copyLiteral opening body).2.reader = (s.reader.copyBody body).reader := by
  unfold copyLiteral
  dsimp only
  split <;> rfl

theorem stream_copyLiteral_suffix (s : Session) (opening : List Placed) (body : Body) :
    (s.copyLiteral opening body).2.reader.stream <:+ s.reader.stream := by
  rw [reader_copyLiteral]
  exact scan_suffix body s.reader.stream

/-- A step that does not read past the parked character drops characters from the front of the stream
and from nowhere else. -/
theorem stream_step_suffix {s : Session} (hcan : IsCanonical s.reader.stream) {x : Step}
    (hx : x ≠ .read) : (s.step x).2.reader.stream <:+ s.reader.stream := by
  cases x with
  | read => exact absurd rfl hx
  | get =>
    have htail : (s.step .get).2.reader.stream = s.reader.stream.tail := s.reader.stream_get
    rw [htail]
    exact List.tail_suffix _
  | peek =>
    have hsame : (s.step .peek).2.reader.stream = s.reader.stream := s.reader.stream_peek
    exact hsame ▸ List.suffix_rfl
  | nextLogical =>
    have hsuffix := Reader.stream_nextLogical_suffix hcan
    rcases hr : s.reader.nextLogical with ⟨e | c, r⟩
    all_goals
      rw [hr] at hsuffix
      simp only [step, hr]
      exact hsuffix
  | drain => exact List.nil_suffix
  | drainLogical => exact Reader.stream_drainLogical_suffix hcan
  | emit x => exact List.suffix_rfl
  | scanString x =>
    rcases hx : s.resolve x with _ | quote
    · simp only [step, hx]
      exact List.suffix_rfl
    · simp only [step, hx]
      exact s.stream_copyLiteral_suffix [quote] (.string quote.char)
  | scanRegex => exact s.stream_copyLiteral_suffix [] .regex
  | fail what x => exact List.suffix_rfl

/-- After a step there is no more to hand out than before it. -/
theorem stream_step_sublist {s : Session} (hcan : IsCanonical s.reader.stream) (x : Step) :
    (s.step x).2.reader.stream.Sublist s.reader.stream := by
  by_cases hx : x = .read
  · subst hx
    exact s.reader.stream_read_sublist
  · exact (stream_step_suffix hcan hx).sublist

theorem stream_run_sublist {s : Session} (hcan : IsCanonical s.reader.stream) (xs : List Step) :
    (s.run xs).2.reader.stream.Sublist s.reader.stream := by
  induction xs generalizing s with
  | nil => exact List.Sublist.refl _
  | cons x xs ih =>
    have hstep := stream_step_sublist hcan x
    exact (ih (hcan.sublist hstep)).trans hstep

/-- Unless a step reads past the parked character, no character is lost on the way. -/
theorem stream_run_suffix {s : Session} (hcan : IsCanonical s.reader.stream) {xs : List Step}
    (hxs : ∀ x ∈ xs, x ≠ .read) : (s.run xs).2.reader.stream <:+ s.reader.stream := by
  induction xs generalizing s with
  | nil => exact List.suffix_rfl
  | cons x xs ih =>
    rw [List.forall_mem_cons] at hxs
    have hstep := stream_step_suffix hcan hxs.1
    exact (ih (hcan.subset hstep.subset) hxs.2).trans hstep

/-- In every state of a session on a text, what is still to come is canonical. -/
theorem isCanonical_run (source text : String) (xs : List Step) :
    IsCanonical ((ofText source text).run xs).2.reader.stream := by
  have hcan : IsCanonical (ofText source text).reader.stream := isCanonical_placedText text
  exact hcan.sublist (stream_run_sublist hcan xs)

end Session

end Squeeze
