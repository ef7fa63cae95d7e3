import Squeeze.Proofs.CharacterStream
import Squeeze.Proofs.OutputPlaces
import Squeeze.Proofs.SegmentText
import Squeeze.Text.Words

/-!
# Bounds on the places of a run

The places that a reader comes to are those of the script, and they are in range if the script is short
enough. This does not bound the places in the output, since an output joins the lines of the script. What
bounds them is a budget: the code units that have been written, those of the characters in view and those
that are ahead are together never more than the script has (`Window.budget`). A character that is written
was in view or ahead before, a block comment had more code units than the space that stands for it, and the
line feed in view at first is never written.

A run that fails has written something, too, up to the point where the script breaks off. So the budget is
kept for all that goes to the output (`Window.written`), whether the run succeeds or not.
-/

namespace Squeeze

/-! ## What a run writes -/

namespace Window

/-- What goes to the output when a window is refilled: if the next character opens a regular expression, the
current character, the slash, and the regular expression as far as it goes. -/
def refillWrites (w : Window) : List Placed :=
  match w.reader.nextLogical with
  | (.error _, _) => []
  | (.ok next, reader) =>
    if startsRegex (w.current.map Placed.char) (next.map Placed.char) then
      w.current.toList ++ next.toList ++ (reader.copyBody .regex).chars
    else []

/-- What goes to the output when the next character becomes current: if it opens a string, the string as far
as it goes. -/
def advanceWrites (w : Window) : List Placed :=
  match w.next with
  | none => refillWrites { w with current := none }
  | some c =>
    if isQuote c.char then
      c :: (w.reader.copyBody (.string c.char)).chars ++
        match w.copyString c with
        | .error _ => []
        | .ok w => w.refillWrites
    else refillWrites { w with current := some c }

/-- What goes to the output in one step. -/
def stepWrites (w : Window) (c : Placed) : List Placed :=
  match action c.char (w.next.map Placed.char) with
  | .output => c :: advanceWrites { w with output := w.output.emit c }
  | .copy => w.advanceWrites
  | .skip => w.refillWrites

/-- What goes to the output from here on, to the end of the script or to where it breaks off. -/
def written (w : Window) : List Placed :=
  match _hc : w.current with
  | none => []
  | some c =>
    w.stepWrites c ++
      match _hw : w.step c with
      | .error _ => []
      | .ok w => w.written
termination_by w.pending
decreasing_by exact pending_step_lt _hw _hc

theorem written_none {w : Window} (h : w.current = none) : w.written = [] := by
  rw [written]
  split
  · rfl
  · rename_i hc
    rw [h] at hc
    cases hc

theorem written_some {w : Window} {c : Placed} (h : w.current = some c) :
    w.written = w.stepWrites c ++
      match w.step c with
      | .error _ => []
      | .ok w => w.written := by
  rw [written]
  split
  · rename_i hc
    rw [h] at hc
    cases hc
  · rename_i d hc
    obtain rfl : c = d := Option.some.inj (h.symm.trans hc)
    rcases w.step c with e | v <;> rfl

end Window

/-! ## Code units that are written -/

namespace Output

/-- The number of code units that have been written. -/
def size (o : Output) : Nat := utf16Size o.code.toList

theorem size_emit (o : Output) (c : Placed) :
    (o.emit c).size = o.size ∨ (o.emit c).size = o.size + utf16Length c.char := by
  unfold emit
  split
  · exact Or.inl rfl
  · right
    simp [size]

theorem size_emitAll_le (o : Output) (cs : List Placed) :
    (o.emitAll cs).size ≤ o.size + utf16Size (spelling cs) := by
  induction cs generalizing o with
  | nil => exact Nat.le_refl _
  | cons c cs ih =>
    have hrest := ih (o.emit c)
    rw [emitAll_cons, spelling_cons, utf16Size_cons]
    rcases o.size_emit c with h | h <;> omega

theorem size_le_emitAll (o : Output) (cs : List Placed) : o.size ≤ (o.emitAll cs).size := by
  induction cs generalizing o with
  | nil => exact Nat.le_refl _
  | cons c cs ih =>
    have hrest := ih (o.emit c)
    rw [emitAll_cons]
    rcases o.size_emit c with h | h <;> omega

end Output

/-! ## What is taken from ahead -/

/-- The character at which the scan of a literal ended, if there is one. -/
def Ending.chars : Ending → List Placed
  | .closed c => [c]
  | .broken _ c => c.toList

/-- A scan passes over the characters ahead in their order, and leaves out none. -/
theorem scan_append (b : Body) (cs : List Placed) :
    (scan b cs).copied ++ (scan b cs).ending.chars ++ (scan b cs).rest = cs := by
  fun_induction scan b cs with
  | case1 | case2 | case3 | case5 | case6 => rfl
  | case4 b c cs _ next _ ih => exact congrArg (c :: ·) ih
  | case7 b c _ _ d cs _ ih => exact congrArg (c :: d :: ·) ih

namespace Reader

/-- The number of code units that are ahead. -/
def ahead (r : Reader) : Nat := utf16Size (spelling r.stream)

/-- A block comment counts as one code unit, of which its slash alone has as many. -/
theorem utf16Size_placed_le {x : Piece} (h : x.chars ≠ []) :
    utf16Length x.placed.char ≤ utf16Size (spelling x.chars) := by
  rcases x with c | k
  · exact Nat.le_add_right ..
  · obtain ⟨a, inside, rfl⟩ := List.exists_cons_of_ne_nil h
    have hslash := one_le_utf16Length a.char
    have hspace : utf16Length (Piece.comment (a :: inside)).placed.char = 1 := rfl
    rw [hspace, Piece.chars_comment, spelling_cons, utf16Size_cons]
    omega

theorem placed_mem {x : Piece} {cs : List Placed} (h : x.chars ⊆ cs) :
    x.placed ∈ .synthetic ' ' :: cs := by
  rcases x with c | k
  · exact List.mem_cons_of_mem _ (h (List.mem_singleton_self c))
  · exact List.mem_cons_self ..

/-- The next logical character is one of those ahead, or the space that stands for a block comment. It has no
more code units than what it was taken from. -/
theorem nextLogical_taken {r r' : Reader} {next : Option Placed}
    (h : r.nextLogical = (.ok next, r')) :
    utf16Size (spelling next.toList) + r'.ahead ≤ r.ahead ∧
      next.toList ++ r'.stream ⊆ .synthetic ' ' :: r.stream := by
  unfold nextLogical at h
  rcases hf : front r.stream with _ | ⟨x, rest⟩ | _ <;> rw [hf] at h
  · cases h
    exact ⟨Nat.zero_le _, List.nil_subset _⟩
  · cases h
    have hrest : (if x.placed.char = '/' then (r.resume rest).peek.2 else r.resume rest).stream =
        rest := by
      split
      · exact stream_peek _
      · rfl
    obtain ⟨hne, hsuffix⟩ := front_suffix hf
    rw [ahead, ahead, hrest]
    constructor
    · have hplaced := utf16Size_placed_le hne
      have hle := utf16Size_le_of_sublist (hsuffix.sublist.map Placed.char)
      rw [List.map_append, utf16Size_append] at hle
      exact Nat.le_trans (Nat.add_le_add_right hplaced _) hle
    · obtain ⟨hchars, hsub⟩ := List.append_subset.mp hsuffix.subset
      exact List.cons_subset.mpr ⟨placed_mem hchars, List.subset_cons_of_subset _ hsub⟩
  · cases h

/-- The characters of a literal and the one that closes it are taken from those ahead. -/
theorem copyBody_taken (r : Reader) (b : Body) :
    utf16Size (spelling (r.copyBody b).chars) +
          utf16Size (spelling (r.copyBody b).closing.toOption.toList) + (r.copyBody b).reader.ahead ≤
        r.ahead ∧
      (r.copyBody b).chars ++ (r.copyBody b).closing.toOption.toList ++
        (r.copyBody b).reader.stream ⊆ r.stream := by
  have happend := scan_append b r.stream
  have hclosing : ((r.copyBody b).closing.toOption.toList).Sublist
      (scan b r.stream).ending.chars := by
    dsimp only [copyBody]
    rcases (scan b r.stream).ending with d | ⟨what, d⟩
    · exact List.Sublist.refl _
    · exact List.nil_sublist _
  have hsub : ((r.copyBody b).chars ++ (r.copyBody b).closing.toOption.toList ++
      (r.copyBody b).reader.stream).Sublist r.stream := by
    rw [← happend]
    exact ((List.Sublist.refl _).append hclosing).append (List.Sublist.refl _)
  have hle := utf16Size_le_of_sublist (hsub.map Placed.char)
  rw [List.map_append, List.map_append, utf16Size_append, utf16Size_append] at hle
  exact ⟨hle, hsub.subset⟩

end Reader

/-! ## The budget -/

namespace Window

/-- The code units that have been written, those of the current character if it is not suppressed, those of
the next character, and those ahead. -/
def budget (w : Window) : Nat :=
  (w.output.emitAll w.current.toList).size + utf16Size (spelling w.next.toList) + w.reader.ahead

/-- What there is to write: the characters in view and ahead, and the space for a block comment. -/
def atHand (w : Window) : List Placed :=
  .synthetic ' ' :: (w.current.toList ++ w.next.toList ++ w.reader.stream)

/-- A part of a run that begins at the window `w` has `cs` written and ends as `r` says. It needs no more than
`n` code units and no other characters than `pool`. -/
structure Spends (w : Window) (n : Nat) (pool cs : List Placed) (r : Except ScanError Window) :
    Prop where
  size_le : (w.output.emitAll cs).size ≤ n
  subset : cs ⊆ pool
  output_eq : ∀ w', r = .ok w' → w'.output = w.output.emitAll cs
  budget_le : ∀ w', r = .ok w' → w'.budget ≤ n
  atHand_subset : ∀ w', r = .ok w' → w'.atHand ⊆ pool

section Spends

variable {v w w' : Window} {n m : Nat} {pool pool' cs ds : List Placed}
  {r : Except ScanError Window}

theorem Spends.mono (h : w.Spends n pool cs r) (hnm : n ≤ m) (hp : pool ⊆ pool') :
    w.Spends m pool' cs r where
  size_le := Nat.le_trans h.size_le hnm
  subset := List.Subset.trans h.subset hp
  output_eq := h.output_eq
  budget_le w' hw := Nat.le_trans (h.budget_le w' hw) hnm
  atHand_subset w' hw := List.Subset.trans (h.atHand_subset w' hw) hp

theorem Spends.of_error {e : ScanError} (hn : (w.output.emitAll cs).size ≤ n) (hs : cs ⊆ pool) :
    w.Spends n pool cs (.error e) where
  size_le := hn
  subset := hs
  output_eq _ hw := by cases hw
  budget_le _ hw := by cases hw
  atHand_subset _ hw := by cases hw

theorem Spends.of_ok (ho : w'.output = w.output.emitAll cs) (hn : w'.budget ≤ n) (hs : cs ⊆ pool)
    (hp : w'.atHand ⊆ pool) : w.Spends n pool cs (.ok w') where
  size_le := by
    have hle := w'.output.size_le_emitAll w'.current.toList
    rw [← ho]
    unfold budget at hn
    omega
  subset := hs
  output_eq _ hw := by
    cases hw
    exact ho
  budget_le _ hw := by
    cases hw
    exact hn
  atHand_subset _ hw := by
    cases hw
    exact hp

/-- After something has been written, the rest is written behind it. -/
theorem Spends.behind (h : v.Spends n pool ds r) (ho : v.output = w.output.emitAll cs)
    (hs : cs ⊆ pool) : w.Spends n pool (cs ++ ds) r where
  size_le := by
    rw [Output.emitAll_append, ← ho]
    exact h.size_le
  subset := List.append_subset.mpr ⟨hs, h.subset⟩
  output_eq w' hw := by
    rw [Output.emitAll_append, ← ho]
    exact h.output_eq w' hw
  budget_le := h.budget_le
  atHand_subset := h.atHand_subset

/-- What is written is the same for all windows with one output. -/
theorem Spends.congr (h : v.Spends n pool cs r) (ho : v.output = w.output) :
    w.Spends n pool cs r := by
  show w.Spends n pool ([] ++ cs) r
  exact h.behind ho (List.nil_subset _)

end Spends

/-- What is written of a regular expression is in view or ahead. -/
theorem spends_copyRegex (w : Window) : w.Spends w.budget w.atHand
    (w.current.toList ++ w.next.toList ++ (w.reader.copyBody .regex).chars) w.copyRegex := by
  obtain ⟨hbody, hsub⟩ := w.reader.copyBody_taken .regex
  have hsize := (w.output.emitAll w.current.toList).size_emitAll_le
    (w.next.toList ++ (w.reader.copyBody .regex).chars)
  rw [← Output.emitAll_append, ← List.append_assoc, spelling_append, utf16Size_append] at hsize
  have hwrites : w.current.toList ++ w.next.toList ++ (w.reader.copyBody .regex).chars ⊆
      w.atHand := by
    unfold atHand
    grind
  unfold budget copyRegex
  dsimp only
  rcases hc : (w.reader.copyBody .regex).closing with e | slash
  · exact .of_error (by omega) hwrites
  rcases hn : (w.reader.copyBody .regex).reader.nextLogical with ⟨_ | next, r⟩
  · exact .of_error (by omega) hwrites
  obtain ⟨hahead, hnext⟩ := Reader.nextLogical_taken hn
  have hslash := Output.size_emitAll_le (w.output.emitAll
    (w.current.toList ++ w.next.toList ++ (w.reader.copyBody .regex).chars)) [slash]
  have hclosing : (Except.ok slash : Except ScanError Placed).toOption.toList = [slash] := rfl
  rw [hc, hclosing] at hbody hsub
  refine .of_ok rfl ?_ hwrites ?_
  · unfold budget
    dsimp only [Option.toList_some]
    omega
  · unfold atHand
    dsimp only [Option.toList_some]
    grind

/-- What is written of a string is the quote and characters ahead. -/
theorem spends_copyString (w : Window) (c : Placed) :
    w.Spends (w.output.size + utf16Length c.char + w.reader.ahead)
      (.synthetic ' ' :: c :: w.reader.stream)
      (c :: (w.reader.copyBody (.string c.char)).chars) (w.copyString c) := by
  obtain ⟨hbody, hsub⟩ := w.reader.copyBody_taken (.string c.char)
  have hsize := w.output.size_emitAll_le (c :: (w.reader.copyBody (.string c.char)).chars)
  rw [spelling_cons, utf16Size_cons] at hsize
  have hwrites : c :: (w.reader.copyBody (.string c.char)).chars ⊆
      .synthetic ' ' :: c :: w.reader.stream := by
    grind
  unfold copyString
  dsimp only
  rcases hc : (w.reader.copyBody (.string c.char)).closing with e | close
  · exact .of_error (by omega) hwrites
  have hclose := Output.size_emitAll_le (w.output.emitAll
    (c :: (w.reader.copyBody (.string c.char)).chars)) [close]
  have hclosing : (Except.ok close : Except ScanError Placed).toOption.toList = [close] := rfl
  rw [hc, hclosing] at hbody hsub
  refine .of_ok rfl ?_ hwrites ?_
  · unfold budget
    dsimp only [Option.toList_some, Option.toList_none, spelling_nil, utf16Size_nil]
    omega
  · unfold atHand
    dsimp only [Option.toList_some, Option.toList_none]
    grind

theorem spends_refill (w : Window) :
    w.Spends ((w.output.emitAll w.current.toList).size + w.reader.ahead)
      (.synthetic ' ' :: (w.current.toList ++ w.reader.stream)) w.refillWrites w.refill := by
  unfold refillWrites refill
  rcases hn : w.reader.nextLogical with ⟨_ | next, r⟩
  · have hsize := w.output.size_le_emitAll w.current.toList
    exact .of_error (by rw [Output.emitAll_nil]; omega) (List.nil_subset _)
  obtain ⟨hahead, hnext⟩ := Reader.nextLogical_taken hn
  have hbudget : budget { w with reader := r, next := next } ≤
      (w.output.emitAll w.current.toList).size + w.reader.ahead := by
    unfold budget
    dsimp only
    omega
  have hatHand : atHand { w with reader := r, next := next } ⊆
      .synthetic ' ' :: (w.current.toList ++ w.reader.stream) := by
    unfold atHand
    grind
  dsimp only
  by_cases hs : startsRegex (w.current.map Placed.char) (next.map Placed.char) = true
  · rw [if_pos hs, if_pos hs]
    exact ((spends_copyRegex { w with reader := r, next := next }).mono hbudget hatHand).congr rfl
  · rw [if_neg hs, if_neg hs]
    exact .of_ok rfl hbudget (List.nil_subset _) hatHand

theorem spends_advance (w : Window) :
    w.Spends (w.output.size + utf16Size (spelling w.next.toList) + w.reader.ahead)
      (.synthetic ' ' :: (w.next.toList ++ w.reader.stream)) w.advanceWrites w.advance := by
  obtain ⟨r, o, current, _ | c⟩ := w
  · exact ((spends_refill ⟨r, o, none, none⟩).mono (by simp) (List.Subset.refl _)).congr rfl
  have hc : utf16Size (spelling [c]) = utf16Length c.char := by simp
  unfold advanceWrites advance
  dsimp only [Option.toList_some]
  rw [hc]
  by_cases hq : isQuote c.char = true
  · rw [if_pos hq, if_pos hq]
    have hstring := spends_copyString ⟨r, o, current, some c⟩ c
    rcases hs : copyString ⟨r, o, current, some c⟩ c with e | v
    · rw [hs] at hstring
      rw [List.append_nil]
      exact .of_error hstring.size_le hstring.subset
    · have hle : v.budget ≤ o.size + utf16Length c.char + r.ahead := hstring.budget_le v hs
      have hsub := hstring.atHand_subset v hs
      refine (v.spends_refill.mono ?_ ?_).behind (hstring.output_eq v hs) hstring.subset
      · unfold budget at hle
        omega
      · unfold atHand at hsub
        grind
  · rw [if_neg hq, if_neg hq]
    refine ((spends_refill ⟨r, o, some c, some c⟩).mono ?_ (List.Subset.refl _)).congr rfl
    have hsize := o.size_emitAll_le [c]
    rw [hc] at hsize
    dsimp only [Option.toList_some]
    omega

/-- A step keeps the budget. -/
theorem spends_step {w : Window} {c : Placed} (hc : w.current = some c) :
    w.Spends w.budget w.atHand (w.stepWrites c) (w.step c) := by
  have hcurrent : w.output.emitAll w.current.toList = w.output.emit c := by
    rw [hc]
    rfl
  have hsize := w.output.size_le_emitAll w.current.toList
  have hnext : .synthetic ' ' :: (w.next.toList ++ w.reader.stream) ⊆ w.atHand := by
    unfold atHand
    grind
  unfold stepWrites step
  cases action c.char (w.next.map Placed.char) with
  | output =>
    have hadvance := spends_advance { w with output := w.output.emit c }
    show w.Spends _ _ ([c] ++ advanceWrites { w with output := w.output.emit c }) _
    refine (hadvance.mono ?_ hnext).behind rfl ?_
    · unfold budget
      rw [hcurrent]
    · unfold atHand
      rw [hc]
      grind
  | copy =>
    refine w.spends_advance.mono ?_ hnext
    unfold budget
    omega
  | skip =>
    refine w.spends_refill.mono ?_ ?_
    · unfold budget
      omega
    · unfold atHand
      grind

/-- What a run writes is what its output consists of. It is no more than the budget, and all of it was at
hand. -/
theorem spends_run (w : Window) : (w.output.emitAll w.written).size ≤ w.budget ∧
    w.written ⊆ w.atHand ∧ ∀ o, w.run = .ok o → o = w.output.emitAll w.written := by
  fun_induction run w with
  | case1 w hc =>
    rw [written_none hc]
    refine ⟨?_, List.nil_subset _, ?_⟩
    · have hsize := w.output.size_le_emitAll w.current.toList
      unfold budget
      rw [Output.emitAll_nil]
      omega
    · intro o ho
      cases ho
      rfl
  | case2 w c hc e hw =>
    have hstep := spends_step hc
    rw [written_some hc, hw]
    dsimp only
    rw [List.append_nil]
    exact ⟨hstep.size_le, hstep.subset, fun o ho => by cases ho⟩
  | case3 w c hc w' hw ih =>
    have hstep := spends_step hc
    obtain ⟨hsize, hsub, hout⟩ := ih
    rw [written_some hc, hw]
    dsimp only
    rw [Output.emitAll_append, ← hstep.output_eq w' hw]
    exact ⟨Nat.le_trans hsize (hstep.budget_le w' hw),
      List.append_subset.mpr ⟨hstep.subset, List.Subset.trans hsub (hstep.atHand_subset w' hw)⟩, hout⟩

end Window

/-! ## A whole run -/

/-- What goes to the output of a script, to its end or to where it breaks off. -/
def writtenFor (source text : String) : List Placed :=
  (Window.ofReader (.ofText source text)).refillWrites ++
    match Window.ofText source text with
    | .error _ => []
    | .ok w => w.written

section WrittenFor

variable (source text : String)

/-- An output has no more code units than the script, and its characters are those of the script but for those
that were made up. -/
theorem writtenFor_spends :
    (Output.empty.emitAll (writtenFor source text)).size ≤ utf16Size (canonical text.toList) ∧
      writtenFor source text ⊆ .synthetic ' ' :: .synthetic '\n' :: placedText text ∧
      ∀ o, squeeze source text = .ok o → o = Output.empty.emitAll (writtenFor source text) := by
  -- the line feed that is in view at first would be a blank in front, and so it costs nothing
  have hahead : utf16Size (canonical text.toList) =
      (Output.empty.emitAll [.synthetic '\n']).size + (Reader.ofText source text).ahead := by
    have hspelling : spelling (placedText text) = canonical text.toList := map_char_place ..
    rw [← hspelling]
    exact (Nat.zero_add _).symm
  have hfirst : (Window.ofReader (.ofText source text)).Spends (utf16Size (canonical text.toList))
      (.synthetic ' ' :: .synthetic '\n' :: placedText text)
      (Window.ofReader (.ofText source text)).refillWrites (Window.ofText source text) := by
    rw [hahead]
    exact (Window.ofReader (.ofText source text)).spends_refill
  unfold writtenFor squeeze
  rcases hw : Window.ofText source text with e | w
  · rw [List.append_nil]
    exact ⟨hfirst.size_le, hfirst.subset, fun o ho => by cases ho⟩
  · obtain ⟨hsize, hsub, hout⟩ := w.spends_run
    dsimp only
    rw [Output.emitAll_append]
    have hoe : w.output = Output.empty.emitAll _ := hfirst.output_eq w hw
    rw [← hoe]
    exact ⟨Nat.le_trans hsize (hfirst.budget_le w hw),
      List.append_subset.mpr ⟨hfirst.subset, List.Subset.trans hsub (hfirst.atHand_subset w hw)⟩, hout⟩

end WrittenFor

theorem mem_trail_of_mem_place {p q : Position} {cs : List Char} {c : Placed} (hc : c ∈ place p cs)
    (hq : c.origin = some q) : q ∈ p.trail cs := by
  obtain ⟨i, hi⟩ := List.mem_iff_getElem?.mp hc
  rw [getElem?_place, Option.map_eq_some_iff] at hi
  obtain ⟨d, -, rfl⟩ := hi
  obtain rfl := Option.some.inj hq
  exact Position.mem_trail_iff.mpr ⟨cs.take i, List.take_prefix i cs, rfl⟩

theorem Position.one_le_line_of_mem_trail {p : Position} {cs : List Char} (hp : p ∈ start.trail cs) :
    1 ≤ p.line := by
  obtain ⟨ds, -, rfl⟩ := mem_trail_iff.mp hp
  rw [line_advanceAll]
  exact Nat.le_add_right ..

namespace Output

variable {cs ds : List Placed}

theorem position_emitAll_empty (cs : List Placed) :
    (empty.emitAll cs).position = Position.start.advanceAll (empty.emitAll cs).code.toList := by
  rw [emitAll_empty_eq_append]
  exact (records_append _).position_eq

/-- What has been written stays. -/
theorem code_prefix_emit (o : Output) (c : Placed) : o.code.toList <+: (o.emit c).code.toList := by
  unfold emit
  split
  · exact List.prefix_refl _
  · rw [String.toList_push]
    exact List.prefix_append ..

theorem code_prefix_emitAll (o : Output) (cs : List Placed) :
    o.code.toList <+: (o.emitAll cs).code.toList := by
  induction cs generalizing o with
  | nil => exact List.prefix_refl _
  | cons c cs ih => exact (o.code_prefix_emit c).trans (ih (o.emit c))

/-- While an output is written, its place is always one along the code that it will have. -/
theorem position_mem_trail (h : cs <+: ds) :
    (empty.emitAll cs).position ∈ Position.start.trail (empty.emitAll ds).code.toList := by
  obtain ⟨rest, rfl⟩ := h
  refine Position.mem_trail_iff.mpr ⟨(empty.emitAll cs).code.toList, ?_, position_emitAll_empty cs⟩
  rw [emitAll_append]
  exact code_prefix_emitAll ..

/-- So are the places of its mappings, and they lead to where the characters were read. -/
theorem mem_trail_of_mem_mappings (h : cs <+: ds) {x : Mapping}
    (hx : x ∈ (empty.emitAll cs).mappings.toList) :
    x.generated ∈ Position.start.trail (empty.emitAll ds).code.toList ∧
      ∃ c ∈ cs, c.origin = some x.origin := by
  obtain ⟨hcode, hmappings⟩ := emitAll_empty cs
  rw [hmappings] at hx
  obtain ⟨c, hc, horigin, hplace⟩ := exists_of_mem_mappingsAlong hx
  refine ⟨?_, c, (List.dropWhile_sublist _).subset hc, horigin⟩
  rw [← hcode] at hplace
  obtain ⟨before, hbefore, hgenerated⟩ := Position.mem_trail_iff.mp (mem_trail_of_mem_place hplace rfl)
  refine Position.mem_trail_iff.mpr ⟨before, hbefore.trans ?_, hgenerated⟩
  obtain ⟨rest, rfl⟩ := h
  rw [emitAll_append]
  exact code_prefix_emitAll ..

end Output

/-- All places that come up while a script is made short can be counted in words. -/
structure RunsInWords (source text : String) : Prop where
  /-- The places along the script can be. -/
  reading : CountedInWords (canonical text.toList)
  /-- To these a reader comes, however far it gets. -/
  reader_mem : ∀ n, (Reader.readTimes n (.ofText source text)).2.position ∈
    Position.start.trail (canonical text.toList)
  /-- What is written has no more code units than the script. -/
  size_le : (Output.empty.emitAll (writtenFor source text)).size ≤ utf16Size (canonical text.toList)
  /-- The places along it can be counted in words, too. -/
  writing : CountedInWords (Output.empty.emitAll (writtenFor source text)).code.toList
  /-- To these the output comes, however far it gets. -/
  output_mem : ∀ cs, cs <+: writtenFor source text → (Output.empty.emitAll cs).position ∈
    Position.start.trail (Output.empty.emitAll (writtenFor source text)).code.toList
  /-- Each mapping on the way leads from one of the latter places to one of the former. -/
  mapping_mem : ∀ cs, cs <+: writtenFor source text →
    ∀ x ∈ (Output.empty.emitAll cs).mappings.toList,
      x.generated ∈ Position.start.trail (Output.empty.emitAll (writtenFor source text)).code.toList ∧
        x.origin ∈ Position.start.trail (canonical text.toList)
  /-- One can be taken from either line of it. -/
  one_le_line : ∀ cs, cs <+: writtenFor source text →
    ∀ x ∈ (Output.empty.emitAll cs).mappings.toList, 1 ≤ x.generated.line ∧ 1 ≤ x.origin.line
  /-- If the script does not break off, all of this is its short form. -/
  minify_eq : ∀ config m, config.inputName = some source → minify config text = .ok m →
    m = (Output.empty.emitAll (writtenFor source text)).finish source config.outputName
      config.sourceRoot

/-- The size of a script in code units is all that matters. -/
theorem runsInWords_of_utf16Size_le (source : String) {text : String}
    (h : utf16Size (canonical text.toList) ≤ UInt32.size - 2) : RunsInWords source text := by
  obtain ⟨hsize, hsub, hout⟩ := writtenFor_spends source text
  have hmapping : ∀ cs, cs <+: writtenFor source text →
      ∀ x ∈ (Output.empty.emitAll cs).mappings.toList,
        x.generated ∈
            Position.start.trail (Output.empty.emitAll (writtenFor source text)).code.toList ∧
          x.origin ∈ Position.start.trail (canonical text.toList) := by
    intro cs hcs x hx
    obtain ⟨hgenerated, c, hc, horigin⟩ := Output.mem_trail_of_mem_mappings hcs hx
    refine ⟨hgenerated, ?_⟩
    have hread := hsub (hcs.subset hc)
    rw [List.mem_cons, List.mem_cons] at hread
    -- a character with a place is none of the two that were made up
    rcases hread with rfl | rfl | hread
    · cases horigin
    · cases horigin
    · exact mem_trail_of_mem_place hread horigin
  refine ⟨countedInWords h, ?_, hsize, countedInWords (Nat.le_trans hsize h),
    fun _ => Output.position_mem_trail, hmapping, ?_, ?_⟩
  · intro n
    obtain ⟨-, hfaces⟩ := (Reader.faces_ofText source text).readTimes n
    exact Position.mem_trail_iff.mpr ⟨_, List.take_prefix .., hfaces.position_eq⟩
  · intro cs hcs x hx
    obtain ⟨hgenerated, horigin⟩ := hmapping cs hcs x hx
    exact ⟨Position.one_le_line_of_mem_trail hgenerated, Position.one_le_line_of_mem_trail horigin⟩
  · intro config m hname hm
    unfold minify at hm
    rw [hname] at hm
    dsimp only at hm
    rcases ho : squeeze source text with e | o <;> rw [ho] at hm
    · cases hm
    · cases hm
      rw [hout o ho]

/-- The emoji counts twice in code units, the comment before it counts once in the output, and the string
breaks off. -/
theorem runsInWords_of_broken_string :
    utf16Size (canonical "a/*\r\n*/b = '😀\n".toList) ≤ UInt32.size - 2 ∧
      RunsInWords "a.js" "a/*\r\n*/b = '😀\n" := by
  have h : utf16Size (canonical "a/*\r\n*/b = '😀\n".toList) ≤ UInt32.size - 2 := by decide +kernel
  exact ⟨h, runsInWords_of_utf16Size_le "a.js" h⟩

end Squeeze
