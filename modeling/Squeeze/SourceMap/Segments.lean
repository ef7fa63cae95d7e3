import Squeeze.Output
import Squeeze.SourceMap.Vlq

/-!
# Segments

The mappings of a source map are one text. A semicolon ends a line of the output; the mappings of one
line are segments with commas between them. A segment is four numbers: the column in the output, the
number of the source, and line and column in the source. Lines count from zero here, columns are in
UTF-16 code units, and every number is written as the difference from the segment before it, except
that the column in the output begins again at zero on each line.

Since one script is the source of everything, the number of the source never changes, and its
difference is always zero.
-/

namespace Squeeze.Segments

/-- The place to which the first segment is relative: all numbers are zero. -/
def zero : Mapping := ⟨.start, .start⟩

/-- What is written before the segment of `m`: a semicolon for each line that ended since the mapping
before it, or else a comma if there is one on the same line. -/
def separator (previous : Option Mapping) (m : Mapping) : List Char :=
  let last := (previous.getD zero).generated.line
  if last < m.generated.line then List.replicate (m.generated.line - last) ';'
  else if previous.isSome then [','] else []

/-- The column in the output to which the segment of `m` is relative. -/
def baseColumn (previous m : Mapping) : Nat :=
  if previous.generated.line < m.generated.line then 0 else previous.generated.utf16Column

/-- The four numbers of the segment of `m` after the mapping `previous`. -/
def fields (previous m : Mapping) : List Int :=
  [ m.generated.utf16Column - baseColumn previous m,
    0,
    m.origin.line - previous.origin.line,
    m.origin.utf16Column - previous.origin.utf16Column ]

/-- Writes mappings that come after the mapping `previous`, if there is one. -/
def encodeAfter (previous : Option Mapping) : List Mapping → List Char
  | [] => []
  | m :: ms =>
    separator previous m ++ (fields (previous.getD zero) m).flatMap Vlq.encode ++
      encodeAfter (some m) ms

/-- The text of all mappings. -/
def encode (ms : List Mapping) : List Char := encodeAfter none ms

end Squeeze.Segments
