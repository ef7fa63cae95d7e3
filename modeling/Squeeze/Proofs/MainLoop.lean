import Squeeze.Proofs.CharacterStream
import Squeeze.Proofs.RegexOpening
import Squeeze.Proofs.ScanLoops

/-!
# The main loop

Each turn of the main loop ends with a refill of the window, and a refill takes a character or finds the end of
the script. So a script of `n` characters is through after `n + 1` turns: one turn for each character, of which
the first one was taken before the loop began, one that finds the end, and one for the character that is still
in view then.
-/

namespace Squeeze

namespace Window

/-- What comes out of the main loop if it ends within `k` turns. -/
def runWithin (k : Nat) (w : Window) : Option (Except ScanError Output) :=
  match w.current with
  | none => some (.ok w.output)
  | some c =>
    match k with
    | 0 => none
    | k + 1 =>
      match w.step c with
      | .error e => some (.error e)
      | .ok w => runWithin k w

section Turn

variable {v w w' : Window} {c : Placed}

theorem runWithin_none (k : Nat) (h : w.current = none) : w.runWithin k = some (.ok w.output) := by
  obtain ⟨r, o, current, next⟩ := w
  obtain rfl : current = none := h
  cases k <;> rfl

theorem runWithin_some (k : Nat) (h : w.current = some c) : w.runWithin (k + 1) =
    match w.step c with
    | .error e => some (.error e)
    | .ok w => w.runWithin k := by
  obtain ⟨r, o, current, next⟩ := w
  obtain rfl : current = some c := h
  rfl

theorem runWithin_error {e : ScanError} (k : Nat) (hc : w.current = some c)
    (hw : w.step c = .error e) : w.runWithin (k + 1) = some (.error e) := by
  rw [runWithin_some k hc, hw]

theorem runWithin_succ (k : Nat) (hc : w.current = some c) (hw : w.step c = .ok w') :
    w.runWithin (k + 1) = w'.runWithin k := by
  rw [runWithin_some k hc, hw]

/-! ## One turn -/

/-- A refill takes a character, or it finds the end of the script. -/
theorem refill_takes (h : v.refill = .ok w) :
    v.reader.Takes w.reader ∨ w.reader.stream = [] ∧ w.next = none := by
  unfold refill at h
  rcases hr : v.reader.nextLogical with ⟨_ | _ | c, r⟩ <;> rw [hr] at h <;> dsimp only at h
  · cases h
  · rw [Option.map_none, startsRegex_none] at h
    cases h
    exact Or.inr ⟨Reader.stream_nextLogical_none hr, rfl⟩
  have htakes := Reader.takes_nextLogical hr
  split at h
  · -- a regular expression is copied, and one more character is taken behind it
    unfold copyRegex at h
    dsimp only at h
    have hbody : (r.copyBody .regex).reader.stream <:+ r.stream := scan_suffix ..
    split at h
    · cases h
    split at h
    · cases h
    rename_i next r' hr'
    cases h
    rcases next with _ | d
    · exact Or.inr ⟨Reader.stream_nextLogical_none hr', rfl⟩
    · have hsuffix := (Reader.takes_nextLogical hr').suffix
      exact Or.inl (htakes.trans_suffix (hsuffix.trans hbody))
  · cases h
    exact Or.inl htakes

/-- A refill puts no character where none was current. -/
theorem current_refill (h : v.refill = .ok w) (hv : v.current = none) : w.current = none := by
  rcases refill_pending h with ⟨-, hlength⟩ | ⟨-, -, hcurrent⟩
  · rw [hv] at hlength
    exact Option.toList_eq_nil_iff.mp (List.eq_nil_of_length_eq_zero hlength)
  · rw [hcurrent, hv]

/-- Where no character is next, nothing is skipped, and none becomes current. -/
theorem exists_turn_of_next (c : Placed) (hw : w.next = none) :
    ∃ v, w.turn c = .ok v ∧ v.reader = w.reader ∧ v.current = none := by
  obtain ⟨r, o, current, next⟩ := w
  obtain rfl : next = none := hw
  unfold turn
  cases ha : action c.char none with
  | output =>
    refine ⟨⟨r, o.emit c, none, none⟩, ?_, rfl, rfl⟩
    rw [Option.map_none, ha]
    rfl
  | copy =>
    refine ⟨⟨r, o, none, none⟩, ?_, rfl, rfl⟩
    rw [Option.map_none, ha]
    rfl
  | skip => exact absurd ha (action_none_ne_skip c.char)

theorem exists_turn_of_step (h : w.step c = .ok w') :
    ∃ v, w.turn c = .ok v ∧ v.refill = .ok w' := by
  rw [step_eq] at h
  rcases hv : w.turn c with e | v <;> rw [hv] at h
  · cases h
  · exact ⟨v, rfl, h⟩

theorem step_takes (h : w.step c = .ok w') :
    w.reader.Takes w'.reader ∨ w'.reader.stream = [] ∧ w'.next = none := by
  obtain ⟨v, hv, hw'⟩ := exists_turn_of_step h
  exact (refill_takes hw').imp_left fun htakes => htakes.of_suffix (turn_suffix hv)

/-- A turn without a next character is the last one. -/
theorem current_step (h : w.step c = .ok w') (hw : w.next = none) : w'.current = none := by
  obtain ⟨v, hv, -, hcurrent⟩ := exists_turn_of_next c hw
  rw [step_eq, hv] at h
  exact current_refill h hcurrent

/-- At the end of the script nothing can be left open. -/
theorem exists_step_of_ended (c : Placed) (hs : w.reader.stream = []) (hn : w.next = none) :
    ∃ w', w.step c = .ok w' := by
  obtain ⟨v, hv, hreader, -⟩ := exists_turn_of_next c hn
  have hended : v.reader.nextLogical = (.ok none, v.reader.resume []) := by
    rw [hreader]
    exact Reader.nextLogical_ended (by rw [hs]; rfl)
  rw [step_eq, hv]
  show ∃ w', v.refill = .ok w'
  rw [refill, hended]
  dsimp only
  rw [Option.map_none, startsRegex_none]
  exact ⟨_, rfl⟩

end Turn

/-! ## All turns -/

/-- How many turns may be left. -/
def turnsLeft (w : Window) : Nat :=
  match w.current, w.next with
  | none, _ => 0
  | some _, none => 1
  | some _, some _ => w.reader.stream.length + 2

section Turns

variable {w w' : Window} {c : Placed}

theorem turnsLeft_le {n : Nat} (hn : w.reader.stream.length < n ∨ w.next = none) :
    w.turnsLeft ≤ n + 1 := by
  unfold turnsLeft
  rcases hc : w.current with _ | c
  · exact Nat.zero_le _
  · rcases hnext : w.next with _ | d
    · exact Nat.le_add_left 1 n
    · rw [hnext] at hn
      rcases hn with hn | hn
      · dsimp only
        omega
      · cases hn

theorem turnsLeft_step (hc : w.current = some c) (h : w.step c = .ok w') :
    w'.turnsLeft < w.turnsLeft := by
  rcases hn : w.next with _ | d
  · have hw' : w'.turnsLeft = 0 := by rw [turnsLeft, current_step h hn]
    have hw : w.turnsLeft = 1 := by rw [turnsLeft, hc, hn]
    omega
  · have hw : w.turnsLeft = w.reader.stream.length + 2 := by rw [turnsLeft, hc, hn]
    have hw' : w'.turnsLeft ≤ w.reader.stream.length + 1 := by
      apply turnsLeft_le
      rcases step_takes h with htakes | ⟨-, hnext⟩
      · exact Or.inl htakes.length_lt
      · exact Or.inr hnext
    omega

theorem run_eq (hc : w.current = some c) : w.run = w.step c >>= run := by
  rw [run_some hc, step_eq]
  rcases w.turn c with e | v <;> rfl

/-- The main loop ends within the turns that may be left, and comes out with what a run does. -/
theorem runWithin_eq {k : Nat} (hk : w.turnsLeft ≤ k) : w.runWithin k = some w.run := by
  induction k generalizing w with
  | zero =>
    have hc : w.current = none := by
      by_contra hc
      obtain ⟨c, hc⟩ := Option.ne_none_iff_exists'.mp hc
      unfold turnsLeft at hk
      rw [hc] at hk
      rcases hn : w.next with _ | d <;> rw [hn] at hk <;> exact Nat.not_succ_le_zero _ hk
    rw [runWithin_none 0 hc, run_none hc]
  | succ k ih =>
    rcases hc : w.current with _ | c
    · rw [runWithin_none _ hc, run_none hc]
    rw [run_eq hc]
    rcases hw : w.step c with e | w'
    · rw [runWithin_error k hc hw]
      rfl
    · have hlt := turnsLeft_step hc hw
      rw [runWithin_succ k hc hw]
      exact ih (by omega)

/-- After the end of the script has been found there is at most one turn, and it does not fail. -/
theorem exists_runWithin_one (hs : w.reader.stream = []) (hn : w.next = none) :
    ∃ o, w.runWithin 1 = some (.ok o) := by
  rcases hc : w.current with _ | c
  · exact ⟨_, runWithin_none 1 hc⟩
  · obtain ⟨w', hw⟩ := exists_step_of_ended c hs hn
    refine ⟨w'.output, ?_⟩
    rw [runWithin_succ 0 hc hw]
    exact runWithin_none 0 (current_step hw hn)

end Turns

end Window

/-! ## Whole scripts -/

/-- What comes out of a script if the main loop ends within `k` turns. -/
def squeezeWithin (k : Nat) (source text : String) : Option (Except ScanError Output) :=
  match Window.ofText source text with
  | .error e => some (.error e)
  | .ok w => w.runWithin k

/-- One turn for each character of the canonical text and one more are enough. -/
theorem squeezeWithin_eq (source text : String) :
    squeezeWithin ((canonical text.toList).length + 1) source text = some (squeeze source text) := by
  unfold squeezeWithin squeeze
  rcases hw : Window.ofText source text with e | w
  · rfl
  · have hlength : (Reader.ofText source text).stream.length = (canonical text.toList).length :=
      Reader.length_placedText text
    refine Window.runWithin_eq (Window.turnsLeft_le ?_)
    rw [← hlength]
    rcases Window.refill_takes hw with htakes | ⟨-, hnext⟩
    · exact Or.inl htakes.length_lt
    · exact Or.inr hnext

-- With one turn less the last character would still be in view.
example : squeezeWithin 2 "a.js" "ab" = none := rfl

/-- All loops end, from whatever state they begin in, and every turn takes a character or finds the end. -/
structure LoopsEnd : Prop where
  /-- The main loop ends within one turn more than the script has characters. -/
  main : ∀ source text,
    squeezeWithin ((canonical text.toList).length + 1) source text = some (squeeze source text)
  /-- Each of its turns takes a character, or finds the end, and then at most one turn follows. -/
  main_turn : ∀ (w w' : Window) (c : Placed), w.current = some c → w.step c = .ok w' →
    w.reader.Takes w'.reader ∨
      w'.reader.stream = [] ∧ w'.next = none ∧ ∃ o, w'.runWithin 1 = some (.ok o)
  /-- At the end nothing is skipped. -/
  action_ne_skip : ∀ c, action c none ≠ .skip
  /-- The loops over comments end. -/
  comment : ∀ r : Reader, r.nextLogicalWithin (r.stream.length + 1) = some r.nextLogical
  line_turn : ∀ r : Reader, GetsOn Reader.afterLine id Prod.snd r r.lineTurn
  block_turn : ∀ r : Reader, GetsOn Reader.afterBlock id Prod.snd r r.blockTurn
  /-- The loops over strings, regular expressions and character classes end. -/
  literal : ∀ s : Copying,
    within Copying.turn (s.reader.stream.length + 1) s = some s.outcome
  literal_turn : ∀ s : Copying, GetsOn Copying.outcome Copying.reader (fun x => x.2.1) s s.turn

theorem loopsEnd : LoopsEnd where
  main := squeezeWithin_eq
  main_turn w w' c hc hw := by
    rcases Window.step_takes hw with htakes | ⟨hs, hn⟩
    · exact Or.inl htakes
    · exact Or.inr ⟨hs, hn, Window.exists_runWithin_one hs hn⟩
  action_ne_skip := action_none_ne_skip
  comment _ := Reader.nextLogicalWithin_eq (Nat.lt_succ_self _)
  line_turn := Reader.lineTurn_getsOn
  block_turn := Reader.blockTurn_getsOn
  literal _ := Copying.within_turn (Nat.lt_succ_self _)
  literal_turn := Copying.turn_getsOn

end Squeeze
