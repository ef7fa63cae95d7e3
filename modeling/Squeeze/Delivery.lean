import Squeeze.Minify

/-!
# Scripts that arrive in pieces

A script may come as a stream of bytes, in chunks that know nothing of characters. Reading the stream
may be interrupted, which means nothing and is tried again, and it may fail, which ends everything.
An empty chunk is the end of the stream. What was cut into chunks is put together before it is
decoded, so the cuts cannot be seen in the text; decoding is strict, and a byte order mark is a
character like any other.

Without a name for the script the stream is not touched.
-/

namespace Squeeze

/-- What one attempt to read a stream brings. -/
inductive Arrival where
  /-- Some bytes; none at the end of the stream. -/
  | bytes (chunk : ByteArray)
  /-- Nothing: the attempt was interrupted. -/
  | interrupted
  /-- A failure. -/
  | failure (e : ReadError)

/-- All bytes that arrive up to the end of a stream, after the bytes `before`. -/
def collect (before : ByteArray) : List Arrival → Except ReadError ByteArray
  | [] => .ok before
  | .bytes chunk :: rest =>
    if chunk.isEmpty then .ok before else collect (before ++ chunk) rest
  | .interrupted :: rest => collect before rest
  | .failure e :: _ => .error e

/-- The report on bytes that are no text. -/
def ReadError.invalidText : ReadError := ⟨.invalidData, "stream did not contain valid UTF-8"⟩

/-- The text that arrives on a stream. -/
def receive (stream : List Arrival) : Except ReadError String :=
  match collect .empty stream with
  | .error e => .error e
  | .ok bytes =>
    match String.fromUTF8? bytes with
    | none => .error .invalidText
    | some text => .ok text

/-- What became of a script that was to arrive on a stream. -/
structure Received where
  /-- Its short form, or why there is none. -/
  outcome : Except MinifyError Minified
  /-- Whether the stream was read from at all. -/
  touched : Bool

/-- The short form of a script that arrives on a stream. -/
def minifyStream (config : Config) (stream : List Arrival) : Received :=
  if config.inputName.isNone then ⟨.error .missingInputName, false⟩
  else
    match receive stream with
    | .error e => ⟨.error (.read e), true⟩
    | .ok text => ⟨minify config text, true⟩

end Squeeze
