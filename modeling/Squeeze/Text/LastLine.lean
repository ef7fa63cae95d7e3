import Mathlib.Data.List.DropRight
import Squeeze.Text.Lines

/-!
# Where a text leads

The place behind a text was found by passing its characters one at a time. It can also be told from the
text as a whole: the line feeds of the text give the line, and what stands behind the last one of them gives
both columns (`Position.advanceAll_start`).
-/

namespace Squeeze

/-! ## Code units -/

/-- The number of UTF-16 code units that encode a text. -/
def utf16Size : List Char → Nat
  | [] => 0
  | c :: cs => utf16Length c + utf16Size cs

@[simp] theorem utf16Size_nil : utf16Size [] = 0 := rfl

@[simp] theorem utf16Size_cons (c : Char) (cs : List Char) :
    utf16Size (c :: cs) = utf16Length c + utf16Size cs := rfl

@[simp] theorem utf16Size_append (cs ds : List Char) :
    utf16Size (cs ++ ds) = utf16Size cs + utf16Size ds := by
  induction cs with
  | nil => exact (Nat.zero_add _).symm
  | cons c cs ih => rw [List.cons_append, utf16Size_cons, ih, utf16Size_cons, Nat.add_assoc]

theorem one_le_utf16Length (c : Char) : 1 ≤ utf16Length c := by
  unfold utf16Length
  split <;> decide

/-- A character takes at least one code unit. -/
theorem length_le_utf16Size (cs : List Char) : cs.length ≤ utf16Size cs := by
  induction cs with
  | nil => exact Nat.le_refl 0
  | cons c cs ih =>
    have hc := one_le_utf16Length c
    rw [List.length_cons, utf16Size_cons]
    omega

theorem utf16Size_le_of_sublist {cs ds : List Char} (h : cs.Sublist ds) :
    utf16Size cs ≤ utf16Size ds := by
  induction h with
  | slnil => exact Nat.le_refl 0
  | cons c _ ih =>
    rw [utf16Size_cons]
    omega
  | cons_cons c _ ih =>
    rw [utf16Size_cons, utf16Size_cons]
    omega

/-! ## The last line -/

/-- The characters of a text behind its last line feed, or all of them if it has none. -/
def lastLine (cs : List Char) : List Char := cs.rtakeWhile (· ≠ '\n')

theorem lastLine_concat_newline (cs : List Char) : lastLine (cs ++ ['\n']) = [] :=
  List.rtakeWhile_concat_neg _ _ '\n' (by decide)

theorem lastLine_concat {c : Char} (cs : List Char) (hc : c ≠ '\n') :
    lastLine (cs ++ [c]) = lastLine cs ++ [c] :=
  List.rtakeWhile_concat_pos _ _ c (by simpa using hc)

theorem lastLine_suffix (cs : List Char) : lastLine cs <:+ cs := List.rtakeWhile_suffix _ cs

/-- The place behind a text. -/
theorem Position.advanceAll_start (cs : List Char) : Position.start.advanceAll cs =
    ⟨1 + cs.count '\n', (lastLine cs).length, utf16Size (lastLine cs)⟩ := by
  induction cs using List.reverseRecOn with
  | nil => rfl
  | append_singleton cs c ih =>
    rw [advanceAll_append, ih, advanceAll_cons, advanceAll_nil]
    by_cases hc : c = '\n'
    · subst hc
      rw [advance_newline, lastLine_concat_newline, List.count_append]
      rfl
    · have hnone : [c].count '\n' = 0 := List.count_eq_zero_of_not_mem (by simpa using Ne.symm hc)
      rw [advance_of_ne _ hc, lastLine_concat cs hc, List.count_append, hnone]
      simp

end Squeeze
