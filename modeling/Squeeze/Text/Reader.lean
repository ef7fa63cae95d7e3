import Squeeze.Text.Canonical

/-!
# Reading a text

A reader hands out the characters of a text one at a time. It has one slot in which a character can
be parked that was looked at and not taken: `peek` parks, `get` takes the parked character first.
`read` goes past the slot, straight to the text.

What `get` will hand out from here on is the `stream` of the reader: the parked character, if there
is one, then the unread text. Scanning a comment or a literal is a function on that list, after which
the reader goes on with what is left of it (`resume`). `get` and `peek` are described by what they do
to the stream: `get` takes its head off, `peek` leaves it alone.

The text is placed once, when the reader is opened, so a reader need not count lines: the place it
has reached is that of the next unread character, or `stop` when there is none.
-/

namespace Squeeze

/-- A text that is being read. -/
structure Reader where
  /-- The name of the text, which error reports give. -/
  source : String
  /-- The character that was looked at and not taken. -/
  lookahead : Option Placed
  /-- The characters not looked at yet. -/
  unread : List Placed
  /-- The place after the last character of the text. -/
  stop : Position
  deriving DecidableEq, Repr

namespace Reader

/-- Opens a text for reading. -/
def ofText (source text : String) : Reader where
  source := source
  lookahead := none
  unread := placedText text
  stop := Position.start.advanceAll (canonical text.toList)

/-- The characters that `get` has still to hand out, in order. -/
def stream (r : Reader) : List Placed := r.lookahead.toList ++ r.unread

/-- The place that has been reached, in front of the unread characters. -/
def position (r : Reader) : Position :=
  ((r.unread.head?).bind Placed.origin).getD r.stop

/-- The line that has been reached. -/
def line (r : Reader) : Nat := r.position.line

/-- Takes the next unread character; a parked character stays where it is. -/
def read (r : Reader) : Option Placed × Reader :=
  match r.unread with
  | [] => (none, r)
  | c :: rest => (some c, { r with unread := rest })

/-- Takes the parked character, or else the next unread one. -/
def get (r : Reader) : Option Placed × Reader :=
  match r.lookahead with
  | some c => (some c, { r with lookahead := none })
  | none => r.read

/-- The character that `get` would take, which is parked. -/
def peek (r : Reader) : Option Placed × Reader :=
  let (c, r) := r.get
  (c, { r with lookahead := c })

/-- Goes on with `rest`, a tail of the stream; nothing stays parked. -/
def resume (r : Reader) (rest : List Placed) : Reader :=
  { r with lookahead := none, unread := rest }

/-- Takes characters until there are none left. -/
def drain (r : Reader) : List Placed × Reader := (r.stream, r.resume [])

/-! ## The stream under each operation -/

@[simp] theorem stream_resume (r : Reader) (rest : List Placed) :
    (r.resume rest).stream = rest := rfl

/-- What `get` takes is the head of the stream. -/
theorem fst_get (r : Reader) : r.get.1 = r.stream.head? := by
  obtain ⟨_, _ | c, _ | ⟨d, rest⟩, _⟩ := r <;> rfl

/-- What `get` leaves is the rest of the stream. -/
@[simp] theorem stream_get (r : Reader) : r.get.2.stream = r.stream.tail := by
  obtain ⟨_, _ | c, _ | ⟨d, rest⟩, _⟩ := r <;> rfl

@[simp] theorem source_get (r : Reader) : r.get.2.source = r.source := by
  obtain ⟨_, _ | c, _ | ⟨d, rest⟩, _⟩ := r <;> rfl

@[simp] theorem stop_get (r : Reader) : r.get.2.stop = r.stop := by
  obtain ⟨_, _ | c, _ | ⟨d, rest⟩, _⟩ := r <;> rfl

/-- What `peek` shows is what `get` would take. -/
theorem fst_peek (r : Reader) : r.peek.1 = r.stream.head? := r.fst_get

/-- To look at a character does not take it. -/
@[simp] theorem stream_peek (r : Reader) : r.peek.2.stream = r.stream := by
  obtain ⟨_, _ | c, _ | ⟨d, rest⟩, _⟩ := r <;> rfl

end Reader

end Squeeze
