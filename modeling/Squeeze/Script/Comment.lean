import Squeeze.Script.Unterminated

/-!
# Stripping comments

A line comment runs up to its line end, which stays: a line with a comment at its end still ends. A
block comment becomes one space that was never read, so it keeps two words apart and shows up in no
source map. A slash that opens no comment is an ordinary character.

`front` says what stands at the front of a stream of characters once line comments are out of the way,
and what comes after it. It looks at the list only. `Reader.nextLogical` is the same on a reader; the
one thing it adds is that the character after an ordinary slash had to be looked at, and stays parked.
-/

namespace Squeeze

/-- A part of a script that counts as one character. -/
inductive Piece where
  /-- A character that was read. -/
  | read (c : Placed)
  /-- A block comment, of which these are the characters. -/
  | comment (chars : List Placed)
  deriving DecidableEq, Repr

namespace Piece

/-- The character that a piece counts as. -/
def placed : Piece → Placed
  | .read c => c
  | .comment _ => .synthetic ' '

/-- The characters of the script that a piece consists of. -/
def chars : Piece → List Placed
  | .read c => [c]
  | .comment cs => cs

@[simp] theorem placed_read (c : Placed) : (read c).placed = c := rfl

@[simp] theorem placed_comment (cs : List Placed) : (comment cs).placed = .synthetic ' ' := rfl

@[simp] theorem chars_read (c : Placed) : (read c).chars = [c] := rfl

@[simp] theorem chars_comment (cs : List Placed) : (comment cs).chars = cs := rfl

theorem map_placed_read (cs : List Placed) : (cs.map read).map placed = cs := by
  simp [Function.comp_def]

theorem flatMap_chars_read (cs : List Placed) : (cs.map read).flatMap chars = cs := by
  simp [List.flatMap_map]

end Piece

/-- The characters up to the first end of a block comment, that end included, and the characters
after it. -/
def throughBlock : List Placed → Option (List Placed × List Placed)
  | [] => none
  | c :: rest =>
    if c.char = '*' ∧ (rest.head?).map Placed.char = some '/' then
      some (c :: rest.take 1, rest.tail)
    else (throughBlock rest).map fun (inside, after) => (c :: inside, after)

/-- The characters from the first line end on. -/
def fromTerminator (cs : List Placed) : List Placed :=
  cs.dropWhile fun c => !c.isTerminator

/-- What stands at the front of a stream when line comments are ignored. -/
inductive Front where
  /-- Nothing: the stream is over. -/
  | ended
  /-- A character or a block comment, and the stream after it. -/
  | piece (x : Piece) (rest : List Placed)
  /-- A block comment without an end. -/
  | openComment
  deriving DecidableEq, Repr

/-- The first character of a stream as it is, and the stream after it. -/
def Front.ofList : List Placed → Front
  | [] => .ended
  | c :: rest => .piece (.read c) rest

/-- What stands at the front of a stream when line comments are ignored. -/
def front : List Placed → Front
  | [] => .ended
  | c :: rest =>
    if c.char ≠ '/' then .piece (.read c) rest
    else if (rest.head?).map Placed.char = some '/' then .ofList (fromTerminator rest)
    else if (rest.head?).map Placed.char = some '*' then
      match throughBlock rest.tail with
      | some (inside, after) => .piece (.comment (c :: rest.take 1 ++ inside)) after
      | none => .openComment
    else .piece (.read c) rest

namespace Reader

/-- Takes the next character that is outside comments. A block comment counts as one space. -/
def nextLogical (r : Reader) : Except ScanError (Option Placed) × Reader :=
  match front r.stream with
  | .ended => (.ok none, r.resume [])
  | .piece x rest =>
    let r := r.resume rest
    (.ok (some x.placed), if x.placed.char = '/' then r.peek.2 else r)
  | .openComment =>
    let r := r.resume []
    (.error (r.fault .comment none), r)

end Reader

/-! ## What comes after is shorter -/

theorem length_throughBlock {cs inside after : List Placed}
    (h : throughBlock cs = some (inside, after)) : after.length < cs.length := by
  induction cs generalizing inside with
  | nil => simp [throughBlock] at h
  | cons c cs ih =>
    rw [throughBlock] at h
    split at h
    · have : cs ≠ [] := by rintro rfl; simp_all
      cases h
      have := List.length_pos_iff.mpr this
      rw [List.length_tail, List.length_cons]
      omega
    · rw [Option.map_eq_some_iff] at h
      obtain ⟨⟨inside', after'⟩, hr, he⟩ := h
      cases he
      have := ih hr
      rw [List.length_cons]
      omega

theorem length_front {cs rest : List Placed} {x : Piece} (h : front cs = .piece x rest) :
    rest.length < cs.length := by
  cases cs with
  | nil => cases h
  | cons d cs =>
    rw [front] at h
    split at h
    · cases h; simp
    split at h
    · have hle : (fromTerminator cs).length ≤ cs.length :=
        (List.dropWhile_sublist _).length_le
      rcases hd : fromTerminator cs with _ | ⟨e, tail⟩ <;> rw [hd] at h hle
      · cases h
      · cases h; simp at hle ⊢; omega
    split at h
    · split at h
      · have := length_throughBlock ‹_›
        cases h
        simp at this ⊢; omega
      · cases h
    · cases h; simp

namespace Reader

/-- A character that was taken is no longer ahead. -/
theorem length_stream_nextLogical {r r' : Reader} {c : Placed}
    (h : r.nextLogical = (.ok (some c), r')) : r'.stream.length < r.stream.length := by
  rw [nextLogical] at h
  split at h
  · cases h
  · have := length_front ‹_›
    simp only [Prod.mk.injEq] at h
    obtain ⟨_, rfl⟩ := h
    split <;> simpa
  · cases h

/-- Where no character was found, nothing is ahead. -/
theorem stream_nextLogical_none {r r' : Reader} (h : r.nextLogical = (.ok none, r')) :
    r'.stream = [] := by
  rw [nextLogical] at h
  split at h <;> cases h
  rfl

end Reader

end Squeeze
