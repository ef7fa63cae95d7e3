import Squeeze.Text.Placed

/-!
# Output

The output is written one character at a time. It grows in three ways at once: the code takes the
character, the place of the next character moves on, and if the character was read from the input a
mapping says from where. Mappings are kept in the order in which they were made, which is the order
of the code.

No blank is written before the first other character. A script may begin with blank lines and
comments, and the scan itself begins with a line feed that is not in the text.
-/

namespace Squeeze

/-- Says of one character of the output which character of the input it is. -/
structure Mapping where
  /-- Where the character stands in the output. -/
  generated : Position
  /-- Where it was read from in the input. -/
  origin : Position
  deriving DecidableEq, Repr

/-- What has been written so far. -/
structure Output where
  /-- The characters written. -/
  code : String
  /-- The mappings of those characters that were read from the input. -/
  mappings : Array Mapping
  /-- The place of the next character. -/
  position : Position

namespace Output

/-- Nothing written yet. -/
def empty : Output := ⟨"", #[], .start⟩

/-- Writes a character, unless it is a blank and would come first. -/
def emit (o : Output) (c : Placed) : Output :=
  if o.code.isEmpty && c.isBlank then o
  else
    { code := o.code.push c.char
      mappings :=
        match c.origin with
        | some origin => o.mappings.push ⟨o.position, origin⟩
        | none => o.mappings
      position := o.position.advance c.char }

/-- Writes a run of characters. -/
def emitAll (o : Output) (cs : List Placed) : Output := cs.foldl emit o

@[simp] theorem emitAll_nil (o : Output) : o.emitAll [] = o := rfl

@[simp] theorem emitAll_cons (o : Output) (c : Placed) (cs : List Placed) :
    o.emitAll (c :: cs) = (o.emit c).emitAll cs := rfl

theorem emitAll_append (o : Output) (cs ds : List Placed) :
    o.emitAll (cs ++ ds) = (o.emitAll cs).emitAll ds := List.foldl_append

theorem emitAll_concat (o : Output) (cs : List Placed) (c : Placed) :
    o.emitAll (cs ++ [c]) = (o.emitAll cs).emit c := emitAll_append o cs [c]

/-- A blank that would come first is not written. -/
theorem emit_eq_self {o : Output} {c : Placed} (ho : o.code.isEmpty) (hc : c.isBlank) :
    o.emit c = o := by
  rw [emit, ho, hc]
  rfl

/-- Any other character is written. -/
theorem emit_eq {o : Output} {c : Placed} (h : o.code.isEmpty = false ∨ c.isBlank = false) :
    o.emit c =
      { code := o.code.push c.char
        mappings := o.mappings ++ (c.origin.toList.map (⟨o.position, ·⟩)).toArray
        position := o.position.advance c.char } := by
  have hb : (o.code.isEmpty && c.isBlank) = false := by
    rcases h with h | h <;> simp [h]
  rw [emit, if_neg (by simp [hb])]
  rcases c.origin with _ | p <;> simp

theorem isEmpty_emit {o : Output} {c : Placed} (h : o.code.isEmpty = false ∨ c.isBlank = false) :
    (o.emit c).code.isEmpty = false := by
  rw [emit_eq h, Bool.eq_false_iff, ne_eq, String.isEmpty_iff]
  simp

end Output

/-- A script in its short form, with all that a source map for it needs. -/
structure Minified where
  /-- The short form. -/
  code : String
  /-- Where its characters came from, in order. -/
  mappings : List Mapping
  /-- The name of the script. -/
  source : String
  /-- The name of the file that will hold the short form. -/
  file : Option String
  /-- What a reader of the source map puts in front of the name of the script. -/
  sourceRoot : Option String
  deriving DecidableEq, Repr

/-- The names of the scripts that the mappings refer to. -/
def Minified.sources (m : Minified) : List String :=
  if m.mappings.isEmpty then [] else [m.source]

/-- Ends the output of a script. -/
def Output.finish (o : Output) (source : String) (file sourceRoot : Option String) : Minified where
  code := o.code
  mappings := o.mappings.toList
  source := source
  file := file
  sourceRoot := sourceRoot

end Squeeze
