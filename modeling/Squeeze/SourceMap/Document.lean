import Squeeze.SourceMap.Segments
import Squeeze.Json.Printer

/-!
# Source map documents

A source map is a JSON object of version 3. The file and the source root are left out when they are
not known; an empty name is known. No names of identifiers are recorded, so that list is empty.
-/

namespace Squeeze

/-- A source map. -/
structure SourceMap where
  /-- The name of the file that the map is for. -/
  file : Option String
  /-- The names of the scripts that the segments refer to. -/
  sources : List String
  /-- What to put in front of each of these names. -/
  sourceRoot : Option String
  /-- The segments, as one text. -/
  mappings : String
  deriving DecidableEq, Repr

namespace SourceMap

/-- A member that is left out when there is nothing to say. -/
def optionalMember (name : String) (s : Option String) : List (String × Json.Value) :=
  s.toList.map fun s => (name, .string s)

/-- The document, with its members in the order in which they are written. -/
def document (m : SourceMap) : Json.Value :=
  .object <|
    [("version", .number 3)]
      ++ optionalMember "file" m.file
      ++ [("sources", .array (m.sources.map .string))]
      ++ optionalMember "sourceRoot" m.sourceRoot
      ++ [("names", .array []), ("mappings", .string m.mappings)]

/-- The text of the document. -/
def render (m : SourceMap) : String := m.document.render

end SourceMap

/-- The source map of a script in its short form. -/
def Minified.sourceMap (m : Minified) : SourceMap where
  file := m.file
  sources := m.sources
  sourceRoot := m.sourceRoot
  mappings := String.ofList (Segments.encode m.mappings)

end Squeeze
