import Squeeze.SourceMap.Vlq

/-!
# Reading segments

What a tool that uses a source map makes of its mappings: the text is cut into lines at the
semicolons and into segments at the commas, the numbers of each segment are added to those of the
segment before it, and the column in the output begins again at zero on each line. Nothing here
knows how the text was made.

Only segments of four numbers are read, which are the ones that point at a place in a source.
-/

namespace Squeeze

/-- A segment with its numbers added up. All of them count from zero. -/
structure Segment where
  /-- The line in the output. -/
  line : Nat
  /-- The column in the output. -/
  column : Int
  /-- The number of the source. -/
  source : Int
  /-- The line in the source. -/
  sourceLine : Int
  /-- The column in the source. -/
  sourceColumn : Int
  deriving DecidableEq, Repr

namespace Segment

/-- The pieces of a text between the separators; always one more than there are separators. -/
def pieces (separator : Char) : List Char → List (List Char)
  | [] => [[]]
  | c :: cs =>
    if c = separator then [] :: pieces separator cs
    else
      match pieces separator cs with
      | [] => [[c]]
      | piece :: rest => (c :: piece) :: rest

/-- The segment with these numbers, on the line of the segment `previous` and after it. -/
def next (previous : Segment) (numbers : List Int) : Option Segment :=
  match numbers with
  | [column, source, sourceLine, sourceColumn] =>
    some
      { line := previous.line
        column := previous.column + column
        source := previous.source + source
        sourceLine := previous.sourceLine + sourceLine
        sourceColumn := previous.sourceColumn + sourceColumn }
  | _ => none

/-- The segments of one line, and the last segment that has been read by then. -/
def decodeLine (previous : Segment) : List (List Char) → Option (List Segment × Segment)
  | [] => some ([], previous)
  | text :: texts => do
    let segment ← previous.next (← Vlq.decode text)
    let (segments, last) ← decodeLine segment texts
    return (segment :: segments, last)

/-- The segments of some lines; `previous` is the segment read last, set back to the beginning of the
first of these lines. A line may hold no segments at all. -/
def decodeLines (previous : Segment) : List (List Char) → Option (List Segment)
  | [] => some []
  | line :: lines => do
    let (segments, last) ← decodeLine previous (if line.isEmpty then [] else pieces ',' line)
    let rest ← decodeLines { last with line := previous.line + 1, column := 0 } lines
    return segments ++ rest

/-- The segments that a text of mappings stands for. -/
def decode (mappings : List Char) : Option (List Segment) :=
  decodeLines ⟨0, 0, 0, 0, 0⟩ (pieces ';' mappings)

end Segment

end Squeeze
