import Squeeze.Proofs.JsonReading
import Squeeze.SourceMap.Document

/-!
# Source map documents are read back

Whatever the names in a source map consist of, its document is a JSON text, and a reader of JSON finds in it
the members that were to be said and no others (`ReadsBack`). So source maps that say different things never
have the same document (`SourceMap.render_injective`).
-/

namespace Squeeze

namespace SourceMap

/-- The members of the document. -/
def members (m : SourceMap) : List (String × Json.Value) :=
  [("version", .number 3)]
    ++ optionalMember "file" m.file
    ++ [("sources", .array (m.sources.map .string))]
    ++ optionalMember "sourceRoot" m.sourceRoot
    ++ [("names", .array []), ("mappings", .string m.mappings)]

theorem document_eq (m : SourceMap) : m.document = .object m.members := rfl

section Members

variable (m : SourceMap)

theorem names_sublist : (m.members.map Prod.fst).Sublist
    ["version", "file", "sources", "sourceRoot", "names", "mappings"] := by
  obtain ⟨_ | file, sources, _ | root, mappings⟩ := m <;> simp [members, optionalMember]

theorem lookup_version : m.members.lookup "version" = some (.number 3) := rfl

theorem lookup_file : m.members.lookup "file" = m.file.map .string := by
  obtain ⟨_ | file, sources, _ | root, mappings⟩ := m <;> rfl

theorem lookup_sourceRoot : m.members.lookup "sourceRoot" = m.sourceRoot.map .string := by
  obtain ⟨_ | file, sources, _ | root, mappings⟩ := m <;> rfl

theorem lookup_sources : m.members.lookup "sources" = some (.array (m.sources.map .string)) := by
  obtain ⟨_ | file, sources, _ | root, mappings⟩ := m <;> rfl

theorem lookup_names : m.members.lookup "names" = some (.array []) := by
  obtain ⟨_ | file, sources, _ | root, mappings⟩ := m <;> rfl

theorem lookup_mappings : m.members.lookup "mappings" = some (.string m.mappings) := by
  obtain ⟨_ | file, sources, _ | root, mappings⟩ := m <;> rfl

end Members

/-- A document says all that a source map consists of. -/
theorem render_injective : Function.Injective render := by
  intro m m' h
  have hparse := Json.parse_render m.document
  rw [← render, h, render, Json.parse_render] at hparse
  have hmembers : m.members = m'.members := by
    have hdocument : m'.document = m.document := Option.some.inj hparse
    rw [document_eq, document_eq] at hdocument
    injection hdocument with hmembers
    exact hmembers.symm
  have hstring : Function.Injective Json.Value.string := fun s s' he => by injection he
  -- each member that they share is the text of the same part in both
  have hfile := m.lookup_file
  have hsources := m.lookup_sources
  have hroot := m.lookup_sourceRoot
  have hmappings := m.lookup_mappings
  rw [hmembers, lookup_file] at hfile
  rw [hmembers, lookup_sources] at hsources
  rw [hmembers, lookup_sourceRoot] at hroot
  rw [hmembers, lookup_mappings] at hmappings
  injection Option.some.inj hsources with hsources
  have hmappings := hstring (Option.some.inj hmappings)
  obtain ⟨file, sources, root, mappings⟩ := m
  obtain ⟨file', sources', root', mappings'⟩ := m'
  obtain rfl : file' = file := Option.map_injective hstring hfile
  obtain rfl : sources' = sources := List.map_injective_iff.mpr hstring hsources
  obtain rfl : root' = root := Option.map_injective hstring hroot
  obtain rfl : mappings' = mappings := hmappings
  rfl

end SourceMap

namespace Minified

/-- The document of the source map stands for an object with these members. -/
structure ReadsBack (m : Minified) (members : List (String × Json.Value)) : Prop where
  /-- It is a JSON text. -/
  isText : Json.IsText (.object members) m.sourceMap.render.toList
  /-- It stands for nothing else. -/
  unique : ∀ v, Json.IsText v m.sourceMap.render.toList → v = .object members
  /-- This is what a reader of JSON finds. -/
  parse_eq : Json.parse m.sourceMap.render = some (.object members)
  /-- No name comes twice, and there are no other members than those that follow. -/
  names_sublist : (members.map Prod.fst).Sublist
    ["version", "file", "sources", "sourceRoot", "names", "mappings"]
  version_eq : members.lookup "version" = some (.number 3)
  /-- The file is the one that is known. -/
  file_eq : members.lookup "file" = m.file.map .string
  /-- So is the source root. -/
  sourceRoot_eq : members.lookup "sourceRoot" = m.sourceRoot.map .string
  /-- The script is named if there are mappings, which refer to it. -/
  sources_eq : members.lookup "sources" =
    some (.array (if m.mappings = [] then [] else [.string m.source]))
  names_eq : members.lookup "names" = some (.array [])
  mappings_eq : members.lookup "mappings" =
    some (.string (String.ofList (Segments.encode m.mappings)))
  /-- Only what says the same has the same document. -/
  eq_iff : ∀ m' : Minified, m'.sourceMap.render = m.sourceMap.render ↔
    m'.file = m.file ∧ m'.sourceRoot = m.sourceRoot ∧ m'.sources = m.sources ∧
      Segments.encode m'.mappings = Segments.encode m.mappings

theorem sourceMap_eq_iff {m m' : Minified} : m'.sourceMap = m.sourceMap ↔
    m'.file = m.file ∧ m'.sourceRoot = m.sourceRoot ∧ m'.sources = m.sources ∧
      Segments.encode m'.mappings = Segments.encode m.mappings := by
  rw [sourceMap, sourceMap, SourceMap.mk.injEq, String.ofList_inj]
  tauto

theorem map_sources (m : Minified) : m.sources.map Json.Value.string =
    if m.mappings = [] then [] else [.string m.source] := by
  rw [sources]
  rcases m.mappings with _ | ⟨x, xs⟩ <;> rfl

/-- The document of every source map is read back as it was meant. -/
theorem exists_readsBack (m : Minified) : ∃ members, m.ReadsBack members := by
  have htext : Json.IsText (.object m.sourceMap.members) m.sourceMap.render.toList :=
    Json.isText_render m.sourceMap.document
  refine ⟨m.sourceMap.members, htext, fun v hv => hv.unique htext, Json.parse_of_isText htext,
    m.sourceMap.names_sublist, m.sourceMap.lookup_version, m.sourceMap.lookup_file,
    m.sourceMap.lookup_sourceRoot, ?_, m.sourceMap.lookup_names, m.sourceMap.lookup_mappings, ?_⟩
  · rw [← map_sources]
    exact m.sourceMap.lookup_sources
  · intro m'
    rw [SourceMap.render_injective.eq_iff]
    exact sourceMap_eq_iff

end Minified

end Squeeze
