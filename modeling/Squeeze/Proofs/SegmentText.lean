import Squeeze.Proofs.Provenance
import Squeeze.Proofs.Vlq
import Squeeze.SourceMap.Decoding
import Squeeze.SourceMap.Document

/-!
# Mappings can be read back

The text of the mappings, taken apart by the rules of source maps, gives one segment for each mapping,
in the same order and with the same places (`Segment.decode_encode`). That needs of the mappings only
that they do not go back to an earlier line of the output, and those of an output never do.

The text is one row of letters and separators, while the rules cut it into lines first and into
segments then. The link is `decodeRest`: what is read of a text that goes on in the middle of a line.
With it, reading follows the text from left to right, as writing does.
-/

namespace Squeeze

/-- What a mapping says, in the numbers of a source map: lines count from zero, and columns in UTF-16
code units. -/
def Segment.ofMapping (m : Mapping) : Segment where
  line := m.generated.line - 1
  column := m.generated.utf16Column
  source := 0
  sourceLine := (m.origin.line - 1 : Nat)
  sourceColumn := m.origin.utf16Column

namespace Segment

/-! ## Cutting a text -/

theorem exists_pieces (separator : Char) (cs : List Char) :
    ∃ piece rest, pieces separator cs = piece :: rest := by
  cases cs with
  | nil => exact ⟨[], [], rfl⟩
  | cons c cs =>
    rw [pieces]
    split
    · exact ⟨_, _, rfl⟩
    · split <;> exact ⟨_, _, rfl⟩

theorem pieces_cons_self (separator : Char) (cs : List Char) :
    pieces separator (separator :: cs) = [] :: pieces separator cs := by
  rw [pieces, if_pos rfl]

/-- Text without separators becomes a part of the first piece. -/
theorem pieces_append {separator : Char} {text cs piece : List Char} {rest : List (List Char)}
    (ht : separator ∉ text) (h : pieces separator cs = piece :: rest) :
    pieces separator (text ++ cs) = (text ++ piece) :: rest := by
  induction text with
  | nil => exact h
  | cons c text ih =>
    rw [List.mem_cons, not_or] at ht
    rw [List.cons_append, pieces, if_neg (Ne.symm ht.1), ih ht.2]
    rfl

/-! ## Reading from left to right -/

/-- Whether a text goes on after a segment: it is over, or a separator comes next. -/
def GoesOn (cs : List Char) : Prop := ∀ c ∈ cs.head?, c = ',' ∨ c = ';'

/-- The segments of the texts that are left on a line and of the lines after it; `previous` is the segment
read last. -/
def decodeTexts (previous : Segment) (texts lines : List (List Char)) : Option (List Segment) := do
  let (segments, last) ← decodeLine previous texts
  let rest ← decodeLines { last with line := previous.line + 1, column := 0 } lines
  return segments ++ rest

/-- The segments of a text that goes on after the segment `previous`, in the middle of its line. -/
def decodeRest (previous : Segment) (cs : List Char) : Option (List Segment) :=
  match pieces ';' cs with
  | [] => none
  | line :: lines => decodeTexts previous (pieces ',' line).tail lines

section Reading

variable {previous segment : Segment} {text cs : List Char} {numbers : List Int}

/-- Where a text goes on after a segment, nothing stands before the first comma. -/
theorem exists_pieces_of_goesOn (h : GoesOn cs) :
    ∃ line lines texts, pieces ';' cs = line :: lines ∧ pieces ',' line = [] :: texts := by
  rcases cs with _ | ⟨c, cs⟩
  · exact ⟨[], [], [], rfl, rfl⟩
  · rcases h c rfl with rfl | rfl
    · obtain ⟨line, lines, hl⟩ := exists_pieces ';' cs
      refine ⟨',' :: line, lines, pieces ',' line, ?_, pieces_cons_self ',' line⟩
      exact pieces_append (show ';' ∉ [','] by decide) hl
    · exact ⟨[], pieces ';' cs, [], pieces_cons_self ';' cs, rfl⟩

theorem line_next (h : previous.next numbers = some segment) : segment.line = previous.line := by
  unfold next at h
  split at h
  · cases h
    rfl
  · cases h

theorem decodeLines_cons {line : List Char} {lines : List (List Char)} :
    decodeLines previous (line :: lines) =
      decodeTexts previous (if line.isEmpty then [] else pieces ',' line) lines := rfl

theorem decodeTexts_nil {lines : List (List Char)} :
    decodeTexts previous [] lines =
      decodeLines { previous with line := previous.line + 1, column := 0 } lines := by
  show (decodeLines _ lines >>= fun rest => some ([] ++ rest)) = _
  cases decodeLines _ lines <;> rfl

theorem decodeTexts_cons {texts lines : List (List Char)} (hd : Vlq.decode text = some numbers)
    (hn : previous.next numbers = some segment) :
    decodeTexts previous (text :: texts) lines =
      (decodeTexts segment texts lines).map (segment :: ·) := by
  have hline : decodeLine previous (text :: texts) =
      (decodeLine segment texts).map fun (segments, last) => (segment :: segments, last) := by
    rw [decodeLine, hd]
    show (previous.next numbers >>= _) = _
    rw [hn]
    show (decodeLine segment texts >>= _) = _
    cases decodeLine segment texts <;> rfl
  rw [decodeTexts, decodeTexts, hline, ← line_next hn]
  rcases decodeLine segment texts with _ | ⟨segments, last⟩
  · rfl
  · show (decodeLines _ lines >>= _) = (decodeLines _ lines >>= _).map _
    cases decodeLines { last with line := segment.line + 1, column := 0 } lines <;> rfl

theorem decodeRest_semicolon :
    decodeRest previous (';' :: cs) =
      decodeLines { previous with line := previous.line + 1, column := 0 } (pieces ';' cs) := by
  rw [decodeRest, pieces_cons_self]
  exact decodeTexts_nil

/-- Lines without segments. -/
theorem decodeLines_semicolons (hc : previous.column = 0) (n : Nat) :
    decodeLines previous (pieces ';' (List.replicate n ';' ++ cs)) =
      decodeLines { previous with line := previous.line + n } (pieces ';' cs) := by
  induction n generalizing previous with
  | zero => rfl
  | succ n ih =>
    have hp : ({ previous with line := previous.line + 1, column := 0 } : Segment).line + n =
        previous.line + (n + 1) := by
      dsimp only
      omega
    rw [List.replicate_succ, List.cons_append, pieces_cons_self, decodeLines_cons]
    refine decodeTexts_nil.trans ((ih rfl).trans ?_)
    rw [hp, hc]

/-- A segment that comes after another one on its line. -/
theorem decodeRest_comma (hcomma : ',' ∉ text) (hsemi : ';' ∉ text) (hcs : GoesOn cs)
    (hd : Vlq.decode text = some numbers) (hn : previous.next numbers = some segment) :
    decodeRest previous (',' :: (text ++ cs)) =
      (decodeRest segment cs).map (segment :: ·) := by
  obtain ⟨line, lines, texts, hline, htexts⟩ := exists_pieces_of_goesOn hcs
  have hlines : pieces ';' (',' :: (text ++ cs)) = (',' :: (text ++ line)) :: lines :=
    pieces_append (show ';' ∉ ',' :: text by simp [hsemi]) hline
  have hpieces : pieces ',' (',' :: (text ++ line)) = [] :: text :: texts := by
    rw [pieces_cons_self, pieces_append hcomma htexts, List.append_nil]
  simp only [decodeRest, hlines, hline, hpieces, htexts, List.tail_cons]
  exact decodeTexts_cons hd hn

/-- A segment that comes first on its line. -/
theorem decodeLines_text (hne : text ≠ []) (hcomma : ',' ∉ text) (hsemi : ';' ∉ text)
    (hcs : GoesOn cs) (hd : Vlq.decode text = some numbers)
    (hn : previous.next numbers = some segment) :
    decodeLines previous (pieces ';' (text ++ cs)) =
      (decodeRest segment cs).map (segment :: ·) := by
  obtain ⟨line, lines, texts, hline, htexts⟩ := exists_pieces_of_goesOn hcs
  have hempty : (text ++ line).isEmpty = false := by simp [hne]
  have hpieces : pieces ',' (text ++ line) = text :: texts := by
    rw [pieces_append hcomma htexts, List.append_nil]
  rw [pieces_append hsemi hline, decodeLines_cons, hempty, hpieces]
  simp only [decodeRest, hline, htexts, List.tail_cons]
  exact decodeTexts_cons hd hn

end Reading

end Segment

namespace Segments

/-! ## Reading what was written -/

section Fields

variable {p m : Mapping}

theorem not_mem_fields {c : Char} (hc : Vlq.ofLetter c = none) :
    c ∉ (fields p m).flatMap Vlq.encode := by
  intro h
  obtain ⟨n, -, h⟩ := List.mem_flatMap.mp h
  obtain ⟨d, hd, h⟩ := Vlq.exists_letter_of_mem_encode h
  exact Vlq.letter_ne hc hd h

theorem fields_ne_nil : (fields p m).flatMap Vlq.encode ≠ [] := by
  simp [fields, Vlq.encode_ne_nil]

theorem goesOn_encodeAfter (p : Mapping) (ms : List Mapping) :
    Segment.GoesOn (encodeAfter (some p) ms) := by
  intro c hc
  rcases ms with _ | ⟨m, ms⟩
  · cases hc
  · rw [encodeAfter, separator] at hc
    dsimp only [Option.getD_some] at hc
    split at hc
    · rename_i hlt
      obtain ⟨n, hn⟩ := Nat.exists_eq_add_of_lt hlt
      right
      simpa [hn, Nat.add_assoc, Nat.add_sub_cancel_left, List.replicate_succ, eq_comm] using hc
    · left
      simpa [eq_comm] using hc

/-- On the same line every number is the difference from the segment before. -/
theorem next_fields (hp : 1 ≤ p.origin.line) (hm : 1 ≤ m.origin.line)
    (hline : p.generated.line = m.generated.line) :
    (Segment.ofMapping p).next (fields p m) = some (Segment.ofMapping m) := by
  have hbase : baseColumn p m = p.generated.utf16Column := by
    rw [baseColumn, if_neg (by omega)]
  simp only [fields, hbase, Segment.next, Segment.ofMapping, hline, Option.some.injEq,
    Segment.mk.injEq, true_and]
  omega

/-- On a later line the column in the output begins again. -/
theorem next_fields_of_lt (hp : 1 ≤ p.origin.line) (hm : 1 ≤ m.origin.line)
    (hline : p.generated.line < m.generated.line) :
    ({ Segment.ofMapping p with line := m.generated.line - 1, column := 0 } : Segment).next
      (fields p m) = some (Segment.ofMapping m) := by
  have hbase : baseColumn p m = 0 := by rw [baseColumn, if_pos hline]
  simp only [fields, hbase, Segment.next, Segment.ofMapping, Option.some.injEq,
    Segment.mk.injEq, true_and]
  omega

end Fields

/-- Whether the lines of some mappings are counted from one, and no mapping goes back to an earlier
line of the output. -/
structure Ordered (ms : List Mapping) : Prop where
  pairwise : ms.Pairwise fun x y => x.generated.line ≤ y.generated.line
  one_le_generated : ∀ x ∈ ms, 1 ≤ x.generated.line
  one_le_origin : ∀ x ∈ ms, 1 ≤ x.origin.line

theorem Ordered.tail {m : Mapping} {ms : List Mapping} (h : Ordered (m :: ms)) : Ordered ms where
  pairwise := h.pairwise.tail
  one_le_generated x hx := h.one_le_generated x (List.mem_cons_of_mem m hx)
  one_le_origin x hx := h.one_le_origin x (List.mem_cons_of_mem m hx)

/-- Behind a mapping, all mappings that come after it are read back. -/
theorem decodeRest_encodeAfter {p : Mapping} {ms : List Mapping} (h : Ordered (p :: ms)) :
    Segment.decodeRest (.ofMapping p) (encodeAfter (some p) ms) =
      some (ms.map Segment.ofMapping) := by
  induction ms generalizing p with
  | nil => rfl
  | cons m ms ih =>
    have hle : p.generated.line ≤ m.generated.line :=
      (List.pairwise_cons.mp h.pairwise).1 m (List.mem_cons_self ..)
    have hgen : 1 ≤ p.generated.line := h.one_le_generated p (List.mem_cons_self ..)
    have hp : 1 ≤ p.origin.line := h.one_le_origin p (List.mem_cons_self ..)
    have hm : 1 ≤ m.origin.line := h.tail.one_le_origin m (List.mem_cons_self ..)
    have hdecode := Vlq.decode_flatMap_encode (fields p m)
    have hcomma : ',' ∉ (fields p m).flatMap Vlq.encode := not_mem_fields (by decide)
    have hsemi : ';' ∉ (fields p m).flatMap Vlq.encode := not_mem_fields (by decide)
    have hrest := goesOn_encodeAfter m ms
    rw [encodeAfter, separator, Option.getD_some, List.append_assoc]
    by_cases hlt : p.generated.line < m.generated.line
    · -- the lines between the two mappings hold no segments
      obtain ⟨n, hn⟩ := Nat.exists_eq_add_of_lt hlt
      have hsub : m.generated.line - p.generated.line = n + 1 := by omega
      have hline : (Segment.ofMapping p).line + 1 + n = m.generated.line - 1 := by
        simp only [Segment.ofMapping]
        omega
      rw [if_pos hlt, hsub, List.replicate_succ, List.cons_append, Segment.decodeRest_semicolon,
        Segment.decodeLines_semicolons rfl]
      dsimp only
      rw [hline, Segment.decodeLines_text fields_ne_nil hcomma hsemi hrest hdecode
        (next_fields_of_lt hp hm hlt), ih h.tail]
      rfl
    · have hline : p.generated.line = m.generated.line := by omega
      rw [if_neg hlt, Option.isSome_some, if_pos rfl, List.singleton_append,
        Segment.decodeRest_comma hcomma hsemi hrest hdecode (next_fields hp hm hline), ih h.tail]
      rfl

/-- The segments of a text of mappings are these mappings. -/
theorem decode_encode {ms : List Mapping} (h : Ordered ms) :
    Segment.decode (encode ms) = some (ms.map Segment.ofMapping) := by
  rcases ms with _ | ⟨m, ms⟩
  · rfl
  have hgen : 1 ≤ m.generated.line := h.one_le_generated m (List.mem_cons_self ..)
  have hm : 1 ≤ m.origin.line := h.one_le_origin m (List.mem_cons_self ..)
  have hsep : separator none m = List.replicate (m.generated.line - 1) ';' := by
    unfold separator
    show (if 1 < m.generated.line then List.replicate (m.generated.line - 1) ';' else []) = _
    split
    · rfl
    · rw [Nat.sub_eq_zero_of_le (by omega)]
      rfl
  have hnext : (⟨0 + (m.generated.line - 1), 0, 0, 0, 0⟩ : Segment).next (fields zero m) =
      some (Segment.ofMapping m) := by
    have hbase : baseColumn zero m = 0 := by
      unfold baseColumn
      split <;> rfl
    simp only [fields, hbase, Segment.next, Segment.ofMapping, Option.some.injEq,
      Segment.mk.injEq]
    simp only [zero, Position.start]
    omega
  rw [encode, encodeAfter, hsep, Segment.decode, List.append_assoc,
    Segment.decodeLines_semicolons rfl]
  dsimp only [Option.getD_none]
  rw [Segment.decodeLines_text fields_ne_nil (not_mem_fields (by decide))
    (not_mem_fields (by decide)) (goesOn_encodeAfter m ms) (Vlq.decode_flatMap_encode _) hnext,
    decodeRest_encodeAfter h]
  rfl

end Segments

/-! ## The text in its document -/

theorem mem_separator {previous : Option Mapping} {m : Mapping} {c : Char}
    (h : c ∈ Segments.separator previous m) : c = ',' ∨ c = ';' := by
  unfold Segments.separator at h
  dsimp only at h
  split at h
  · exact Or.inr (List.eq_of_mem_replicate h)
  · split at h
    · exact Or.inl (List.mem_singleton.mp h)
    · cases h

/-- No character of the text of the mappings has to be escaped. -/
theorem escape_of_mem_encodeAfter {previous : Option Mapping} {ms : List Mapping} {c : Char}
    (h : c ∈ Segments.encodeAfter previous ms) : Json.escape c = [c] := by
  induction ms generalizing previous with
  | nil => cases h
  | cons m ms ih =>
    rw [Segments.encodeAfter, List.mem_append, List.mem_append] at h
    rcases h with (h | h) | h
    · rcases mem_separator h with rfl | rfl <;> decide
    · obtain ⟨n, -, h⟩ := List.mem_flatMap.mp h
      obtain ⟨d, hd, rfl⟩ := Vlq.exists_letter_of_mem_encode h
      have hall : ∀ d : Fin 64, Json.escape (Vlq.letter d) = [Vlq.letter d] := by decide
      exact hall ⟨d, hd⟩
    · exact ih h

theorem Json.quote_eq {s : List Char} (h : ∀ c ∈ s, escape c = [c]) : quote s = '"' :: (s ++ ['"']) := by
  have hs : s.flatMap escape = s := by
    induction s with
    | nil => rfl
    | cons c s ih =>
      rw [List.flatMap_cons, h c (List.mem_cons_self ..),
        ih fun d hd => h d (List.mem_cons_of_mem c hd)]
      rfl
  rw [quote, hs]
  rfl

/-- The last member of an object stands at the end of its text. -/
theorem Json.Value.exists_printMembers (ms : List (String × Value)) (m : String × Value) :
    ∃ front, printMembers (ms ++ [m]) = front ++ (printMember m ++ ['}']) := by
  induction ms with
  | nil => exact ⟨[','], by simp [printMembers]⟩
  | cons m' ms ih =>
    obtain ⟨front, hf⟩ := ih
    exact ⟨',' :: (printMember m' ++ front), by simp [printMembers, hf]⟩

/-- The document of a source map ends with the text of the mappings, as it is. -/
theorem Minified.exists_render (m : Minified) :
    ∃ front, m.sourceMap.render.toList =
      front ++ "\"mappings\":\"".toList ++ m.sourceMap.mappings.toList ++ ['"', '}'] := by
  have hmember : Json.Value.printMember ("mappings", .string m.sourceMap.mappings) =
      "\"mappings\":\"".toList ++ (m.sourceMap.mappings.toList ++ ['"']) := by
    have hquote : Json.quote m.sourceMap.mappings.toList =
        '"' :: (m.sourceMap.mappings.toList ++ ['"']) := by
      apply Json.quote_eq
      intro c hc
      rw [sourceMap, String.toList_ofList] at hc
      exact escape_of_mem_encodeAfter hc
    rw [Json.Value.printMember, Json.Value.print, hquote]
    rfl
  obtain ⟨front, hf⟩ := Json.Value.exists_printMembers
    (SourceMap.optionalMember "file" m.sourceMap.file ++
      [("sources", .array (m.sourceMap.sources.map .string))] ++
      SourceMap.optionalMember "sourceRoot" m.sourceMap.sourceRoot ++ [("names", .array [])])
    ("mappings", .string m.sourceMap.mappings)
  refine ⟨'{' :: (Json.Value.printMember ("version", .number 3) ++ front), ?_⟩
  rw [SourceMap.render, Json.Value.render, String.toList_ofList, SourceMap.document]
  simp only [List.append_assoc, List.cons_append, List.nil_append] at hf ⊢
  rw [Json.Value.print, hf, hmember]
  simp only [List.append_assoc, List.cons_append, List.nil_append]

/-! ## The mappings of an output -/

namespace Output

/-- What an empty output becomes: everything is written but the blanks at the beginning. -/
theorem emitAll_empty (cs : List Placed) :
    (Output.empty.emitAll cs).code.toList = spelling (cs.dropWhile Placed.isBlank) ∧
      (Output.empty.emitAll cs).mappings.toList =
        mappingsAlong .start (cs.dropWhile Placed.isBlank) := by
  rw [emitAll_empty_eq_append]
  simp [append, empty]

end Output

theorem Position.line_le_advance (p : Position) (c : Char) : p.line ≤ (p.advance c).line := by
  unfold Position.advance
  split <;> simp

theorem line_le_generated {p : Position} {cs : List Placed} {x : Mapping}
    (hx : x ∈ mappingsAlong p cs) : p.line ≤ x.generated.line := by
  rcases eq_or_rel_of_mem_origins (R := fun p q => p.line ≤ q.line) (fun _ _ _ => Nat.le_trans)
    Position.line_le_advance (generated_mem_origins hx) with h | h
  · exact Nat.le_of_eq (congrArg Position.line h)
  · exact h

/-- The mappings of an output are in order, wherever its characters were read. -/
theorem ordered_mappingsAlong {cs : List Placed} (h : ∀ c ∈ cs, ∀ p ∈ c.origin, 1 ≤ p.line) :
    Segments.Ordered (mappingsAlong .start cs) where
  pairwise := by
    refine (List.pairwise_map.mp (pairwise_generated .start cs)).imp ?_
    intro x y hxy
    rw [Position.lt_iff] at hxy
    omega
  one_le_generated x hx := line_le_generated hx
  one_le_origin x hx := by
    obtain ⟨c, hc, ho, -⟩ := exists_of_mem_mappingsAlong hx
    exact h c hc _ ho

/-- Whatever was written, and wherever it was read: the text of the mappings stands at the end of the
source map document, and the rules of source maps make of it one segment for each mapping, in order. -/
theorem decode_mappings_finish {cs : List Placed} (h : ∀ c ∈ cs, ∀ p ∈ c.origin, 1 ≤ p.line)
    (source : String) (file sourceRoot : Option String) :
    let m := (Output.empty.emitAll cs).finish source file sourceRoot
    (∃ front, m.sourceMap.render.toList =
      front ++ "\"mappings\":\"".toList ++ m.sourceMap.mappings.toList ++ ['"', '}']) ∧
    Segment.decode m.sourceMap.mappings.toList = some (m.mappings.map Segment.ofMapping) := by
  intro m
  refine ⟨m.exists_render, ?_⟩
  have hmaps : m.mappings = mappingsAlong .start (cs.dropWhile Placed.isBlank) :=
    (Output.emitAll_empty cs).2
  have hord : Segments.Ordered m.mappings := by
    rw [hmaps]
    exact ordered_mappingsAlong fun c hc => h c ((List.dropWhile_sublist _).subset hc)
  rw [Minified.sourceMap, String.toList_ofList]
  exact Segments.decode_encode hord

/-- A line of the output without mappings is two semicolons, and a place further up in the script is a
negative difference. -/
theorem decode_mappings_of_backward :
    let cs : List Placed := [⟨' ', some ⟨1, 0, 0⟩⟩, ⟨'a', some ⟨300, 40, 41⟩⟩, ⟨'\n', none⟩,
      ⟨'\n', none⟩, ⟨'b', some ⟨2, 7, 8⟩⟩, ⟨'c', some ⟨1, 0, 0⟩⟩]
    let m := (Output.empty.emitAll cs).finish "a.js" none (some "")
    (∀ c ∈ cs, ∀ p ∈ c.origin, 1 ≤ p.line) ∧
    (∃ front, m.sourceMap.render.toList =
      front ++ "\"mappings\":\"".toList ++ m.sourceMap.mappings.toList ++ ['"', '}']) ∧
    Segment.decode m.sourceMap.mappings.toList =
      some [⟨0, 0, 0, 299, 41⟩, ⟨2, 0, 0, 1, 8⟩, ⟨2, 1, 0, 0, 0⟩] := by
  intro cs m
  have h : ∀ c ∈ cs, ∀ p ∈ c.origin, 1 ≤ p.line := by decide
  have hsegments : m.mappings.map Segment.ofMapping =
      [⟨0, 0, 0, 299, 41⟩, ⟨2, 0, 0, 1, 8⟩, ⟨2, 1, 0, 0, 0⟩] := by decide
  rw [← hsegments]
  exact ⟨h, decode_mappings_finish h "a.js" none (some "")⟩

end Squeeze
