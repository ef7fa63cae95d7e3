import Squeeze.Minify

/-!
# Sessions

A session works one reader and one output by hand, a step at a time. Each step is one operation of
the reader or the output, and each has an answer, so a session shows what the operations do in an
order that no script would bring about. It goes on after an error: a failing step leaves the reader
after the character at which it failed, and the output with what was copied before.

A session remembers the character that it was handed last, so that a step can use it without
knowing it.
-/

namespace Squeeze

/-- A reader and an output that are worked by hand. -/
structure Session where
  /-- The reader. -/
  reader : Reader
  /-- The output. -/
  output : Output
  /-- The character that was handed out last. -/
  last : Option Placed

/-- The character that a step is to use. -/
inductive Operand where
  /-- None, or the given one. -/
  | given (c : Option Placed)
  /-- The one that was handed out last. -/
  | last

/-- One operation. -/
inductive Step where
  /-- Read past the parked character. -/
  | read
  /-- Take a character. -/
  | get
  /-- Look at a character. -/
  | peek
  /-- Take a character that is outside comments. -/
  | nextLogical
  /-- Take all characters. -/
  | drain
  /-- Take all characters that are outside comments. -/
  | drainLogical
  /-- Write a character. -/
  | emit (x : Operand)
  /-- Copy a string literal that a character opens. -/
  | scanString (x : Operand)
  /-- Copy a regular expression literal that has been opened. -/
  | scanRegex
  /-- Report that something was left open at a character. -/
  | fail (what : Unterminated) (x : Operand)

/-- What a step brings. -/
inductive Answer where
  | char (c : Option Placed)
  | chars (cs : List Placed) (failed : Option ScanError)
  | code (code : String)
  | scanned (closing : Except ScanError (Option Placed)) (code : String)
  | error (e : ScanError)

/-- Takes all characters that are outside comments, up to the first error. -/
def Reader.drainLogical (r : Reader) : List Placed × Option ScanError × Reader :=
  match _h : r.nextLogical with
  | (.error e, r) => ([], some e, r)
  | (.ok none, r) => ([], none, r)
  | (.ok (some c), r) =>
    let (cs, failed, r) := r.drainLogical
    (c :: cs, failed, r)
termination_by r.stream.length
decreasing_by exact Reader.length_stream_nextLogical _h

namespace Session

/-- A session on a text, with an empty output. -/
def ofText (source text : String) : Session := ⟨.ofText source text, .empty, none⟩

/-- The character that a step is to use. -/
def resolve (s : Session) : Operand → Option Placed
  | .given c => c
  | .last => s.last

/-- Hands out a character. -/
def handOut (s : Session) (c : Option Placed) (r : Reader) : Answer × Session :=
  (.char c, { s with reader := r, last := c })

/-- Copies a literal; `opening` is written before its body. -/
def copyLiteral (s : Session) (opening : List Placed) (body : Body) : Answer × Session :=
  let found := s.reader.copyBody body
  let output := s.output.emitAll (opening ++ found.chars)
  let s := { s with reader := found.reader, output }
  match found.closing with
  | .ok c => (.scanned (.ok (some c)) output.code, { s with last := some c })
  | .error e => (.scanned (.error e) output.code, s)

/-- Does one operation. -/
def step (s : Session) : Step → Answer × Session
  | .read => let (c, r) := s.reader.read; s.handOut c r
  | .get => let (c, r) := s.reader.get; s.handOut c r
  | .peek => let (c, r) := s.reader.peek; s.handOut c r
  | .nextLogical =>
    match s.reader.nextLogical with
    | (.ok c, r) => s.handOut c r
    | (.error e, r) => (.error e, { s with reader := r })
  | .drain =>
    let (cs, r) := s.reader.drain
    (.chars cs none, { s with reader := r })
  | .drainLogical =>
    let (cs, failed, r) := s.reader.drainLogical
    (.chars cs failed, { s with reader := r })
  | .emit x =>
    let output := s.output.emitAll (s.resolve x).toList
    (.code output.code, { s with output })
  | .scanString x =>
    match s.resolve x with
    | some quote => s.copyLiteral [quote] (.string quote.char)
    | none => (.scanned (.ok none) s.output.code, s)
  | .scanRegex => s.copyLiteral [] .regex
  | .fail what x => (.error (s.reader.fault what (s.resolve x)), s)

/-- Does some operations; of each, the answer and the line that the reader has reached. -/
def run (s : Session) : List Step → List (Answer × Nat) × Session
  | [] => ([], s)
  | x :: xs =>
    let (answer, s') := s.step x
    let (answers, last) := s'.run xs
    ((answer, s'.reader.line) :: answers, last)

end Session

end Squeeze
