import Squeeze.Delivery
import Squeeze.Text.Utf8

/-!
# Scripts that arrive in pieces

What becomes of a stream depends on two things: on the failure that breaks it off before its end, if there
is one, and otherwise on the bytes that have arrived up to the end, all taken together. They are a text or
they are not (`isUtf8_iff`). If they are, the script is minified as if the text had been given at once.

So it makes no difference how the bytes were cut, be it within a character or between the two halves of a
line end, nor how often reading was interrupted, nor what would have come after the end.
-/

namespace Squeeze

/-! ## What is on a stream -/

namespace Arrival

/-- Whether the stream goes on after this. -/
def goesOn : Arrival → Bool
  | bytes chunk => !chunk.isEmpty
  | interrupted => true
  | failure _ => false

/-- The bytes that it brings. -/
def chunk : Arrival → ByteArray
  | bytes chunk => chunk
  | interrupted => .empty
  | failure _ => .empty

/-- The failure that it is. -/
def failed : Arrival → Option ReadError
  | bytes _ => none
  | interrupted => none
  | failure e => some e

end Arrival

/-- All bytes that arrive before a stream ends or fails. -/
def arrived (stream : List Arrival) : List UInt8 :=
  (stream.takeWhile Arrival.goesOn).flatMap fun a => a.chunk.data.toList

/-- The failure with which a stream breaks off, if it does so before its end. -/
def brokenBy (stream : List Arrival) : Option ReadError :=
  (stream.find? fun a => !a.goesOn).bind Arrival.failed

section Cons

variable {a : Arrival} (stream : List Arrival)

theorem arrived_cons (h : a.goesOn = true) :
    arrived (a :: stream) = a.chunk.data.toList ++ arrived stream := by
  rw [arrived, List.takeWhile_cons_of_pos h, List.flatMap_cons]
  rfl

theorem arrived_cons_of_not (h : a.goesOn = false) : arrived (a :: stream) = [] := by
  rw [arrived, List.takeWhile_cons_of_neg (by simp [h])]
  rfl

theorem brokenBy_cons (h : a.goesOn = true) : brokenBy (a :: stream) = brokenBy stream := by
  rw [brokenBy, List.find?_cons_of_neg (by simp [h])]
  rfl

theorem brokenBy_cons_of_not (h : a.goesOn = false) : brokenBy (a :: stream) = a.failed := by
  rw [brokenBy, List.find?_cons_of_pos (by simp [h])]
  rfl

/-- What an arrival brings is put behind what is there. -/
theorem collect_cons (h : a.goesOn = true) (before : ByteArray) :
    collect before (a :: stream) = collect (before ++ a.chunk) stream := by
  cases a with
  | bytes chunk =>
    have hc : chunk.isEmpty = false := by simpa [Arrival.goesOn] using h
    rw [collect, if_neg (by simp [hc])]
    rfl
  | interrupted => rw [collect, Arrival.chunk, ByteArray.append_empty]
  | failure e => cases h

/-- The last arrival is the end of the stream or a failure. -/
theorem collect_cons_of_not (h : a.goesOn = false) (before : ByteArray) :
    collect before (a :: stream) = a.failed.elim (.ok before) .error := by
  cases a with
  | bytes chunk =>
    have hc : chunk.isEmpty = true := by simpa [Arrival.goesOn] using h
    rw [collect, if_pos hc]
    rfl
  | interrupted => cases h
  | failure e => rfl

end Cons

/-! ## Reading to the end -/

theorem collect_of_brokenBy {stream : List Arrival} {e : ReadError} (h : brokenBy stream = some e)
    (before : ByteArray) : collect before stream = .error e := by
  induction stream generalizing before with
  | nil => cases h
  | cons a stream ih =>
    rcases hgo : a.goesOn with _ | _
    · rw [brokenBy_cons_of_not stream hgo] at h
      rw [collect_cons_of_not stream hgo, h]
      rfl
    · rw [brokenBy_cons stream hgo] at h
      rw [collect_cons stream hgo, ih h]

theorem collect_of_not_broken {stream : List Arrival} (h : brokenBy stream = none)
    (before : ByteArray) :
    ∃ bytes, collect before stream = .ok bytes ∧
      bytes.data.toList = before.data.toList ++ arrived stream := by
  induction stream generalizing before with
  | nil => exact ⟨before, rfl, (List.append_nil _).symm⟩
  | cons a stream ih =>
    rcases hgo : a.goesOn with _ | _
    · rw [brokenBy_cons_of_not stream hgo] at h
      refine ⟨before, ?_, ?_⟩
      · rw [collect_cons_of_not stream hgo, h]
        rfl
      · rw [arrived_cons_of_not stream hgo, List.append_nil]
    · rw [brokenBy_cons stream hgo] at h
      obtain ⟨bytes, hcollect, hbytes⟩ := ih h (before ++ a.chunk)
      refine ⟨bytes, ?_, ?_⟩
      · rw [collect_cons stream hgo, hcollect]
      · rw [arrived_cons stream hgo, hbytes, ByteArray.data_append, Array.toList_append,
          List.append_assoc]

/-! ## Decoding -/

theorem isValidUTF8_iff {bytes : ByteArray} :
    bytes.IsValidUTF8 ↔ IsUtf8 bytes.data.toList := by
  rw [isUtf8_iff]
  constructor
  · intro h
    exact ⟨.ofByteArray bytes h, rfl⟩
  · rintro ⟨text, htext⟩
    have hbytes : text.toByteArray = bytes := ByteArray.ext (Array.toList_inj.mp htext)
    exact hbytes ▸ text.isValidUTF8

/-- A text comes out of its bytes as it was. -/
theorem fromUTF8?_eq_some {bytes : ByteArray} {text : String}
    (h : bytes.data.toList = utf8Bytes text) : String.fromUTF8? bytes = some text := by
  have hbytes : bytes = text.toByteArray := ByteArray.ext (Array.toList_inj.mp h)
  subst hbytes
  rw [String.fromUTF8?, dif_pos text.isValidUTF8]
  rfl

theorem fromUTF8?_eq_none {bytes : ByteArray} (h : ¬ IsUtf8 bytes.data.toList) :
    String.fromUTF8? bytes = none := by
  rw [String.fromUTF8?, dif_neg]
  rwa [isValidUTF8_iff]

/-! ## Receiving a text -/

variable {stream other : List Arrival}

theorem receive_of_brokenBy {e : ReadError} (h : brokenBy stream = some e) :
    receive stream = .error e := by
  rw [receive, collect_of_brokenBy h]

theorem receive_of_text {text : String} (h : brokenBy stream = none)
    (ha : arrived stream = utf8Bytes text) : receive stream = .ok text := by
  obtain ⟨bytes, hcollect, hbytes⟩ := collect_of_not_broken h .empty
  have hdecode : String.fromUTF8? bytes = some text := fromUTF8?_eq_some (hbytes.trans ha)
  simp only [receive, hcollect, hdecode]

theorem receive_of_not_isUtf8 (h : brokenBy stream = none) (ha : ¬ IsUtf8 (arrived stream)) :
    receive stream = .error .invalidText := by
  obtain ⟨bytes, hcollect, hbytes⟩ := collect_of_not_broken h .empty
  have hdecode : String.fromUTF8? bytes = none := by
    apply fromUTF8?_eq_none
    rw [hbytes]
    exact ha
  simp only [receive, hcollect, hdecode]

/-- All that can be received from a stream. -/
theorem receive_cases (stream : List Arrival) :
    (∃ e, brokenBy stream = some e ∧ receive stream = .error e) ∨
      brokenBy stream = none ∧
        ((∃ text, arrived stream = utf8Bytes text ∧ receive stream = .ok text) ∨
          ¬ IsUtf8 (arrived stream) ∧ receive stream = .error .invalidText) := by
  rcases h : brokenBy stream with _ | e
  · refine Or.inr ⟨rfl, ?_⟩
    by_cases ha : IsUtf8 (arrived stream)
    · obtain ⟨text, htext⟩ := isUtf8_iff.mp ha
      exact Or.inl ⟨text, htext.symm, receive_of_text h htext.symm⟩
    · exact Or.inr ⟨ha, receive_of_not_isUtf8 h ha⟩
  · exact Or.inl ⟨e, rfl, receive_of_brokenBy h⟩

theorem receive_congr (h : brokenBy other = brokenBy stream) (ha : arrived other = arrived stream) :
    receive other = receive stream := by
  obtain ⟨e, hb, hr⟩ | ⟨hb, ⟨text, htext, hr⟩ | ⟨hn, hr⟩⟩ := receive_cases stream
  · rw [hr, receive_of_brokenBy (h.trans hb)]
  · rw [hr, receive_of_text (h.trans hb) (ha.trans htext)]
  · rw [hr, receive_of_not_isUtf8 (h.trans hb) (ha ▸ hn)]

/-! ## Scripts -/

theorem minifyStream_of_error {config : Config} (hc : config.inputName.isNone = false)
    {e : ReadError} (h : receive stream = .error e) :
    minifyStream config stream = ⟨.error (.read e), true⟩ := by
  simp only [minifyStream, hc, h, Bool.false_eq_true, if_false]

theorem minifyStream_of_ok {config : Config} (hc : config.inputName.isNone = false)
    {text : String} (h : receive stream = .ok text) :
    minifyStream config stream = ⟨minify config text, true⟩ := by
  simp only [minifyStream, hc, h, Bool.false_eq_true, if_false]

/-- What becomes of a script that is to arrive on a stream. -/
structure MinifiesArrived (config : Config) (stream : List Arrival) : Prop where
  /-- A failure before the end of the stream is reported, whatever has arrived. -/
  of_brokenBy : ∀ e, brokenBy stream = some e →
    minifyStream config stream = ⟨.error (.read e), true⟩
  /-- A text that arrives whole is the text that was sent, and it is minified. -/
  of_text : brokenBy stream = none → ∀ text, arrived stream = utf8Bytes text →
    receive stream = .ok text ∧ minifyStream config stream = ⟨minify config text, true⟩
  /-- Bytes that are no text are reported. -/
  of_not_isUtf8 : brokenBy stream = none → ¬ IsUtf8 (arrived stream) →
    minifyStream config stream =
      ⟨.error (.read ⟨.invalidData, "stream did not contain valid UTF-8"⟩), true⟩
  /-- They are no text only if there is none that they encode. -/
  isUtf8_iff : IsUtf8 (arrived stream) ↔ ∃ text, utf8Bytes text = arrived stream
  /-- How they are cut and where reading is interrupted makes no difference. -/
  congr : ∀ other, brokenBy other = brokenBy stream → arrived other = arrived stream →
    minifyStream config other = minifyStream config stream

/-- A script with a name that arrives on a stream is minified like one that is there at once. -/
theorem minifiesArrived (config : Config) (source : String) (stream : List Arrival) :
    MinifiesArrived { config with inputName := some source } stream := by
  refine ⟨?_, ?_, ?_, isUtf8_iff, ?_⟩
  · intro e h
    exact minifyStream_of_error rfl (receive_of_brokenBy h)
  · intro h text ha
    have hr := receive_of_text h ha
    exact ⟨hr, minifyStream_of_ok rfl hr⟩
  · intro h ha
    exact minifyStream_of_error rfl (receive_of_not_isUtf8 h ha)
  · intro other h ha
    simp only [minifyStream, receive_congr h ha]

/-- Cuts within a character and within a line end. What comes after the end of the stream is not read. -/
example :
    let stream : List Arrival := [.bytes ⟨#[0xEF, 0xBB]⟩, .interrupted,
      .bytes ⟨#[0xBF, 0x61, 0x0D]⟩, .bytes ⟨#[0x0A]⟩, .bytes .empty, .failure ⟨.other, "gone"⟩]
    brokenBy stream = none ∧ arrived stream = utf8Bytes "\uFEFFa\r\n" := by
  decide

end Squeeze
