import Squeeze.Proofs.Respelling
import Squeeze.Script.Grammar
import Squeeze.Text.LastLine

/-!
# The characters that a reader hands out

A reader does not count as it goes. It keeps the unread characters with their places, which were found when
the text was opened. Still it behaves as one that counts: at any time it has come to some place, and what is
unread stands there (`Reader.Faces`). One read takes a character and moves the place past it, and at the end
of the text a read changes nothing. From this follows what any number of reads brings (`Faces.readTimes`),
and so how a text is read from its beginning to its end and on from there (`readOut_placedText`).
-/

namespace Squeeze

theorem getElem?_place (p : Position) (cs : List Char) (i : Nat) :
    (place p cs)[i]? = cs[i]?.map fun c => ⟨c, some (p.advanceAll (cs.take i))⟩ := by
  induction cs generalizing p i with
  | nil => rfl
  | cons c cs ih =>
    rw [place_cons]
    cases i with
    | zero => rfl
    | succ i =>
      rw [List.getElem?_cons_succ, List.getElem?_cons_succ, ih, List.take_succ_cons,
        Position.advanceAll_cons]

/-- In a canonical text only the line feed ends a line. -/
theorem IsCanonical.isTerminator_iff {cs : List Placed} (h : IsCanonical cs) {c : Placed}
    (hc : c ∈ cs) : c.isTerminator = true ↔ c.char = '\n' :=
  ⟨h c hc, Placed.isTerminator_of_char⟩

namespace Reader

/-- What `n` reads bring, one after the other, and the reader after them. -/
def readTimes : Nat → Reader → List (Option Placed) × Reader
  | 0, r => ([], r)
  | n + 1, r =>
    let (c, r) := r.read
    let (cs, r) := readTimes n r
    (c :: cs, r)

/-! ## One read -/

/-- The reader has come to the place `p`, where the unread characters `cs` stand. -/
structure Faces (r : Reader) (p : Position) (cs : List Char) : Prop where
  unread_eq : r.unread = place p cs
  stop_eq : r.stop = p.advanceAll cs

theorem faces_ofText (source text : String) :
    (ofText source text).Faces .start (canonical text.toList) := ⟨rfl, rfl⟩

section Faces

variable {r : Reader} {p : Position} {c : Char} {cs : List Char}

theorem Faces.position_eq (h : r.Faces p cs) : r.position = p := by
  cases cs with
  | nil =>
    rw [position, h.unread_eq, h.stop_eq]
    rfl
  | cons c cs =>
    rw [position, h.unread_eq]
    rfl

/-- At the end of the text a read brings nothing, and the reader stays as it is. -/
theorem Faces.read_nil (h : r.Faces p []) : r.read = (none, r) := by
  have hunread : r.unread = [] := h.unread_eq
  rw [read, hunread]

/-- Anywhere else it brings the next character, which stands where the reader was. -/
theorem Faces.read_cons (h : r.Faces p (c :: cs)) :
    ∃ r', r.read = (some ⟨c, some p⟩, r') ∧ r'.Faces (p.advance c) cs := by
  have hunread : r.unread = ⟨c, some p⟩ :: place (p.advance c) cs := h.unread_eq
  refine ⟨{ r with unread := place (p.advance c) cs }, ?_, rfl, h.stop_eq⟩
  rw [read, hunread]

/-! ## Any number of reads -/

/-- The reads bring the unread characters with their places, and after the last of these nothing. -/
theorem Faces.readTimes (h : r.Faces p cs) (n : Nat) :
    (readTimes n r).1 =
        ((place p cs).take n).map some ++ List.replicate (n - cs.length) none ∧
      (readTimes n r).2.Faces (p.advanceAll (cs.take n)) (cs.drop n) := by
  induction n generalizing r p cs with
  | zero =>
    rw [Nat.zero_sub]
    exact ⟨rfl, h⟩
  | succ n ih =>
    cases cs with
    | nil =>
      obtain ⟨hanswers, hfaces⟩ := ih h
      rw [Reader.readTimes, h.read_nil]
      refine ⟨?_, by simpa using hfaces⟩
      dsimp only
      rw [hanswers]
      simp [List.replicate_succ]
    | cons c cs =>
      obtain ⟨r', hread, h'⟩ := h.read_cons
      obtain ⟨hanswers, hfaces⟩ := ih h'
      rw [Reader.readTimes, hread]
      refine ⟨?_, hfaces⟩
      dsimp only
      rw [hanswers, place_cons, List.take_succ_cons, List.map_cons, List.length_cons,
        Nat.add_sub_add_right]
      rfl

end Faces

/-! ## A whole text -/

/-- A text is read as the characters `cs`, each of them at its place. -/
structure ReadOut (source text : String) (cs : List Placed) : Prop where
  /-- The characters are those that the text is read as by the rules for line ends and control
  characters. -/
  readAs : ReadAs text.toList (spelling cs)
  /-- Each read brings the next one of them, and a read after the last one brings nothing. -/
  reads_eq : ∀ n, (readTimes n (ofText source text)).1 =
    (cs.take n).map some ++ List.replicate (n - cs.length) none
  /-- A character comes with the place to which the characters before it lead. -/
  origin_eq : ∀ (i : Nat) (c : Placed), cs[i]? = some c →
    c.origin = some (Position.start.advanceAll (spelling (cs.take i)))
  /-- This is the line after as many line feeds, and the column after as many characters, and as many
  code units, as there are behind the last of them. -/
  place_eq : ∀ (i : Nat) (c : Placed), cs[i]? = some c →
    let before := spelling (cs.take i)
    c.origin = some ⟨1 + before.count '\n', (lastLine before).length, utf16Size (lastLine before)⟩
  /-- The places go forward. -/
  increasing : (origins cs).Pairwise (· < ·)
  /-- A place belongs to one character only. -/
  origin_inj : ∀ (i j : Nat) (c d : Placed),
    cs[i]? = some c → cs[j]? = some d → c.origin = d.origin → i = j
  /-- At any time the reader is at the place to which the characters that it has handed out lead. -/
  position_eq : ∀ n, (readTimes n (ofText source text)).2.position =
    Position.start.advanceAll (spelling (cs.take n))
  /-- So it is on the line after as many line feeds. -/
  line_eq : ∀ n, (readTimes n (ofText source text)).2.line = 1 + (spelling (cs.take n)).count '\n'
  /-- Of the characters handed out, the line feeds end a line and no others do. -/
  isTerminator_iff : ∀ c ∈ cs, c.isTerminator = true ↔ c.char = '\n'
  /-- After the last character a read brings nothing, and the reader stays as it is and where it is. -/
  at_end : ∀ n, cs.length ≤ n →
    (readTimes n (ofText source text)).2.read = (none, (readTimes n (ofText source text)).2)

section PlacedText

variable {text : String}

theorem spelling_take_placedText (text : String) (n : Nat) :
    spelling ((placedText text).take n) = (canonical text.toList).take n := by
  rw [spelling, List.map_take, placedText, map_char_place]

theorem length_placedText (text : String) :
    (placedText text).length = (canonical text.toList).length := by
  rw [← map_char_place .start (canonical text.toList), List.length_map, placedText]

theorem origin_of_getElem? {i : Nat} {c : Placed} (hc : (placedText text)[i]? = some c) :
    c.origin = some (Position.start.advanceAll (spelling ((placedText text).take i))) := by
  rw [placedText, getElem?_place, Option.map_eq_some_iff] at hc
  obtain ⟨d, -, rfl⟩ := hc
  rw [spelling_take_placedText]

theorem eq_of_origin_eq {i j : Nat} {c d : Placed} (hc : (placedText text)[i]? = some c)
    (hd : (placedText text)[j]? = some d) (h : c.origin = d.origin) : i = j := by
  have hp := origin_of_getElem? hc
  have hcd : c = d :=
    eq_of_mem_place (List.mem_of_getElem? hc) (List.mem_of_getElem? hd) hp (h ▸ hp)
  have hi : i < (placedText text).length := (List.getElem?_eq_some_iff.mp hc).1
  have hnodup : (placedText text).Nodup := nodup_place _ _
  exact (List.getElem?_inj hi hnodup).mp (by rw [hc, hd, hcd])

end PlacedText

/-- What a reader hands out of a text is its canonical form, with places counted from the start. -/
theorem readOut_placedText (source text : String) : ReadOut source text (placedText text) := by
  have hreads := (faces_ofText source text).readTimes
  have hposition : ∀ n, (readTimes n (ofText source text)).2.position =
      Position.start.advanceAll (spelling ((placedText text).take n)) := by
    intro n
    rw [(hreads n).2.position_eq, spelling_take_placedText]
  refine ⟨?_, ?_, fun _ _ => origin_of_getElem?, ?_, pairwise_origins_place _ _,
    fun _ _ _ _ => eq_of_origin_eq, hposition, ?_, ?_, ?_⟩
  · have hall : spelling (placedText text) = canonical text.toList := map_char_place _ _
    rw [hall]
    exact readAs_canonical _
  · intro n
    rw [length_placedText]
    exact (hreads n).1
  · intro i c hc before
    rw [origin_of_getElem? hc, Position.advanceAll_start]
  · intro n
    rw [line, hposition, Position.line_advanceAll]
    rfl
  · exact fun c hc => (isCanonical_placedText text).isTerminator_iff hc
  · intro n hn
    rw [length_placedText] at hn
    have hfaces := (hreads n).2
    rw [List.drop_of_length_le hn] at hfaces
    exact hfaces.read_nil

end Reader

end Squeeze
