import Squeeze.Script.Comment
import Squeeze.Script.Literal
import Squeeze.Script.Spacing
import Squeeze.Output

/-!
# The window

A script is made short while two of its characters are in view, the current one and the next one. A
step looks at both, decides by `action` what becomes of them, and lets the next logical character
into view. Literals do not pass through the view character by character. When the current character
turns out to open a string, the rest of the string is copied to the output at once and its closing
quote becomes current; when the next character turns out to open a regular expression, the current
character and the regular expression are copied, and the closing slash becomes current.

The current character is a line feed at first, as if an empty line came before the script. It decides
what a slash at the beginning means, and it is never written, since no blank comes first in an output.

Each step takes a character from the text or, when there is none left, moves the view on towards its
end. So the number of characters ahead and in view bounds the number of steps (`pending`), and `run`
ends.
-/

namespace Squeeze

/-- A script on its way to its short form. -/
structure Window where
  /-- The script, behind the view. -/
  reader : Reader
  /-- What has been written. -/
  output : Output
  /-- The current character; `none` when everything has been written. -/
  current : Option Placed
  /-- The next character; `none` at the end of the script. -/
  next : Option Placed

namespace Window

/-- The view before the first character of a script. -/
def ofReader (r : Reader) : Window where
  reader := r
  output := .empty
  current := some (.synthetic '\n')
  next := none

/-- Copies a regular expression. The slash that opens it is the next character; the one that closes
it becomes current. -/
def copyRegex (w : Window) : Except ScanError Window :=
  let body := w.reader.copyBody .regex
  let opening := w.current.toList ++ w.next.toList
  match body.closing with
  | .error e => .error e
  | .ok slash =>
    match body.reader.nextLogical with
    | (.error e, _) => .error e
    | (.ok next, reader) =>
      .ok ⟨reader, w.output.emitAll (opening ++ body.chars), some slash, next⟩

/-- Lets the next logical character into view. If it opens a regular expression, that is copied. -/
def refill (w : Window) : Except ScanError Window :=
  match w.reader.nextLogical with
  | (.error e, _) => .error e
  | (.ok next, reader) =>
    let w := { w with reader, next }
    if startsRegex (w.current.map Placed.char) (w.next.map Placed.char) then w.copyRegex else .ok w

/-- Copies a string. The quote that opens it is the next character; the one that closes it becomes
current. -/
def copyString (w : Window) (quote : Placed) : Except ScanError Window :=
  let body := w.reader.copyBody (.string quote.char)
  match body.closing with
  | .error e => .error e
  | .ok close =>
    .ok ⟨body.reader, w.output.emitAll (quote :: body.chars), some close, none⟩

/-- Makes the next character current. If it opens a string, that is copied. -/
def advance (w : Window) : Except ScanError Window :=
  match w.next with
  | none => refill { w with current := none }
  | some c =>
    if isQuote c.char then
      match w.copyString c with
      | .error e => .error e
      | .ok w => w.refill
    else refill { w with current := some c }

/-- Writes or drops one of the characters in view, of which `c` is the current one. -/
def step (w : Window) (c : Placed) : Except ScanError Window :=
  match action c.char (w.next.map Placed.char) with
  | .output => advance { w with output := w.output.emit c }
  | .copy => w.advance
  | .skip => w.refill

/-! ## Every step gets on -/

/-- A bound on the number of steps that are left. A character that is ahead counts twice, because a
step may let it into view without dropping one there. -/
def pending (w : Window) : Nat :=
  2 * w.reader.stream.length + w.current.toList.length + w.next.toList.length

/-- What refilling does to the number of characters ahead: it takes at least one, or there was none
and the next character is `none` from then on. -/
theorem refill_pending {w w' : Window} (h : w.refill = .ok w') :
    w'.reader.stream.length < w.reader.stream.length ∧
        w'.current.toList.length = w.current.toList.length ∨
      w'.reader.stream = [] ∧ w'.next = none ∧ w'.current = w.current := by
  unfold refill at h
  split at h
  · cases h
  rename_i next reader hr
  dsimp only at h
  cases next with
  | none =>
    have := Reader.stream_nextLogical_none hr
    simp only [Option.map_none, startsRegex_none] at h
    cases h
    exact Or.inr ⟨this, rfl, rfl⟩
  | some c =>
    have hlt := Reader.length_stream_nextLogical hr
    left
    split at h
    · rename_i hs
      unfold copyRegex at h
      dsimp only at h
      have hb := reader.length_stream_copyBody .regex
      have hc : w.current.toList.length = 1 := by
        rcases hw : w.current with _ | a
        · simp [hw] at hs
        · rfl
      split at h
      · cases h
      split at h
      · cases h
      · rename_i next' reader' hr'
        cases h
        refine ⟨?_, by simp [hc]⟩
        cases next' with
        | none => simp [Reader.stream_nextLogical_none hr']; omega
        | some d => have := Reader.length_stream_nextLogical hr'; simp; omega
    · cases h
      exact ⟨hlt, rfl⟩

/-- A view has room for one next character. -/
theorem length_next_le (w : Window) : w.next.toList.length ≤ 1 := by
  cases w.next <;> simp

/-- Refilling a view that lost a character, or had one skipped, leaves less to do. -/
theorem pending_refill_lt {w w' : Window} (h : w.refill = .ok w')
    (hn : w.reader.stream = [] → w'.next = none → 0 < w.next.toList.length) :
    w'.pending < w.pending := by
  have hle := w'.length_next_le
  rcases refill_pending h with ⟨hlt, hc⟩ | ⟨hs, hnext, hc⟩
  · unfold pending; omega
  · unfold pending
    rw [hs, hnext, hc]
    rcases hw : w.reader.stream with _ | ⟨c, cs⟩
    · have := hn hw hnext; simp; omega
    · simp; omega

theorem pending_advance_lt {w w' : Window} (h : w.advance = .ok w') (hc : w.current ≠ none) :
    w'.pending < w.pending := by
  have hc : w.current.toList.length = 1 := by
    rcases hw : w.current with _ | a
    · exact absurd hw hc
    · rfl
  have hle := w'.length_next_le
  unfold advance at h
  split at h
  · rename_i hnext
    rcases refill_pending h with ⟨hlt, hcur⟩ | ⟨hs, hn, hcur⟩
    · simp only [Option.toList_none, List.length_nil] at hcur hlt
      unfold pending; rw [hc, hnext]; simp; omega
    · unfold pending; rw [hs, hn, hcur, hc, hnext]; simp
  · rename_i c hnext
    have hnext : w.next.toList.length = 1 := by simp [hnext]
    split at h
    · unfold copyString at h
      dsimp only at h
      have hb := w.reader.length_stream_copyBody (.string c.char)
      split at h
      · cases h
      rename_i v hv
      split at hv
      · cases hv
      cases hv
      rcases refill_pending h with ⟨hlt, hcur⟩ | ⟨hs, hn, hcur⟩
      · have hlt : w'.reader.stream.length < w.reader.stream.length :=
          Nat.lt_of_lt_of_le hlt hb
        have hcur : w'.current.toList.length = 1 := hcur
        unfold pending; omega
      · unfold pending; rw [hs, hn, hcur]; simp; omega
    · rcases refill_pending h with ⟨hlt, hcur⟩ | ⟨hs, hn, hcur⟩
      · have hlt : w'.reader.stream.length < w.reader.stream.length := hlt
        have hcur : w'.current.toList.length = 1 := hcur
        unfold pending; omega
      · unfold pending; rw [hs, hn, hcur]; simp; omega

/-- Every step leaves less to do. -/
theorem pending_step_lt {w w' : Window} {c : Placed} (h : w.step c = .ok w')
    (hc : w.current = some c) : w'.pending < w.pending := by
  have hne : w.current ≠ none := by simp [hc]
  unfold step at h
  split at h
  · have := pending_advance_lt h (by simpa using hne)
    simpa [pending] using this
  · exact pending_advance_lt h hne
  · rename_i hact
    refine pending_refill_lt h fun _ _ => ?_
    rcases hw : w.next with _ | d
    · exact absurd (by simpa [hw] using hact) (action_none_ne_skip c.char)
    · simp

/-- Takes steps until everything has been written. -/
def run (w : Window) : Except ScanError Output :=
  match _hc : w.current with
  | none => .ok w.output
  | some c =>
    match _hw : w.step c with
    | .error e => .error e
    | .ok w => w.run
termination_by w.pending
decreasing_by exact pending_step_lt _hw _hc

end Window

end Squeeze
