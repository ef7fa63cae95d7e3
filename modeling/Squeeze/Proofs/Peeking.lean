import Squeeze.Proofs.SessionStates
import Squeeze.Proofs.WindowStep

/-!
# Looking ahead

A session may look at the next character between any two of its calls. To look parks the character and
moves the reader on in the text, so afterwards the session is in another state, and may even have reached
another line. But nothing is taken, and no later answer shows it: two sessions that differ at most in
what is parked (`Alike`) answer every call alike, and stay alike.

A report that something was left open names the line of a character, or the last line when the text ran
out. Neither depends on how far the reader has come, which is why a parked character cannot show up in it
either.
-/

namespace Squeeze

namespace Reader

/-- Readers of one script that have the same ahead take the same literal. -/
theorem Ahead.copyBody_eq {r r' : Reader} (h : r.Ahead r.stream r') (b : Body) :
    r'.copyBody b = r.copyBody b := by
  simp only [copyBody, h.stream_eq, h.resume_eq]

/-- They take the same character, and have the same ahead then. -/
theorem Ahead.get {r r' : Reader} (h : r.Ahead r.stream r') :
    r'.get.1 = r.get.1 ∧ r.get.2.Ahead r.get.2.stream r'.get.2 := by
  refine ⟨by rw [fst_get, fst_get, h.stream_eq], ?_⟩
  exact ⟨by rw [stream_get, stream_get, h.stream_eq],
    by rw [source_get, source_get, h.source_eq], by rw [stop_get, stop_get, h.stop_eq]⟩

end Reader

namespace Session

/-! ## Calls -/

/-- An operation that takes characters or writes them. -/
inductive Call where
  | get
  | nextLogical
  | scanString (quote : Placed)
  | scanRegex
  | emit (c : Placed)

/-- The step that does it. -/
def Call.step : Call → Step
  | get => .get
  | nextLogical => .nextLogical
  | scanString quote => .scanString (.given (some quote))
  | scanRegex => .scanRegex
  | emit c => .emit (.given (some c))

/-- The steps that do the given calls and look ahead where there is none. -/
def looking (xs : List (Option Call)) : List Step := xs.map fun x => x.elim .peek Call.step

/-- The steps that do the calls alone. -/
def plainly (xs : List (Option Call)) : List Step := xs.filterMap fun x => x.map Call.step

/-- The answers to some steps. -/
def answers (s : Session) (xs : List Step) : List Answer := (s.run xs).1.map Prod.fst

/-- Those of the answers that are answers to calls. -/
def callAnswers (xs : List (Option Call)) (as : List Answer) : List Answer :=
  (xs.zip as).filterMap fun (x, a) => x.map fun _ => a

theorem answers_cons (s : Session) (x : Step) (xs : List Step) :
    s.answers (x :: xs) = (s.step x).1 :: (s.step x).2.answers xs := rfl

/-- Each answer is given by the state that the steps before it lead to. -/
theorem getElem?_answers (s : Session) (xs : List Step) (n : Nat) :
    (s.answers xs)[n]? = (xs[n]?).map fun x => ((s.run (xs.take n)).2.step x).1 := by
  induction xs generalizing s n with
  | nil => rfl
  | cons x xs ih =>
    rw [answers_cons]
    cases n with
    | zero => rfl
    | succ n => exact ih (s.step x).2 n

/-- None of these steps reads past a parked character. -/
theorem ne_read_of_mem_looking {xs : List (Option Call)} {x : Step} (hx : x ∈ looking xs) :
    x ≠ .read := by
  obtain ⟨y, -, rfl⟩ := List.mem_map.mp hx
  rcases y with _ | y
  · exact Step.noConfusion
  · cases y <;> exact Step.noConfusion

/-! ## Sessions that are alike -/

/-- The sessions have the same ahead and have written the same. They may differ in what is parked, and in
what was handed out last. -/
structure Alike (s s' : Session) : Prop where
  ahead : s.reader.Ahead s.reader.stream s'.reader
  output_eq : s'.output = s.output

theorem Alike.refl (s : Session) : s.Alike s := ⟨⟨rfl, rfl, rfl⟩, rfl⟩

variable {s s' : Session}

/-- To look ahead takes nothing. -/
theorem Alike.peek (h : s.Alike s') : s.Alike (s'.step .peek).2 := ⟨h.ahead.peek, h.output_eq⟩

theorem Alike.copyLiteral (h : s.Alike s') (opening : List Placed) (b : Body) :
    (s'.copyLiteral opening b).1 = (s.copyLiteral opening b).1 ∧
      (s.copyLiteral opening b).2.Alike (s'.copyLiteral opening b).2 := by
  simp only [Session.copyLiteral, h.ahead.copyBody_eq, h.output_eq]
  rcases (s.reader.copyBody b).closing with e | c
  · exact ⟨rfl, ⟨⟨rfl, rfl, rfl⟩, rfl⟩⟩
  · exact ⟨rfl, ⟨⟨rfl, rfl, rfl⟩, rfl⟩⟩

/-- Alike sessions answer a call alike, and stay alike. -/
theorem Alike.step (h : s.Alike s') (x : Call) :
    (s'.step x.step).1 = (s.step x.step).1 ∧ (s.step x.step).2.Alike (s'.step x.step).2 := by
  cases x with
  | get =>
    obtain ⟨hchar, hahead⟩ := h.ahead.get
    exact ⟨congrArg Answer.char hchar, ⟨hahead, h.output_eq⟩⟩
  | nextLogical =>
    have hnext := h.ahead.nextLogical_eq rfl
    simp only [Call.step, Session.step, hnext]
    rcases s.reader.nextLogical with ⟨e | c, r⟩
    · exact ⟨rfl, ⟨⟨rfl, rfl, rfl⟩, h.output_eq⟩⟩
    · exact ⟨rfl, ⟨⟨rfl, rfl, rfl⟩, h.output_eq⟩⟩
  | scanString quote => exact h.copyLiteral [quote] (.string quote.char)
  | scanRegex => exact h.copyLiteral [] .regex
  | emit c =>
    have hout : s'.output.emitAll [c] = s.output.emitAll [c] := by rw [h.output_eq]
    exact ⟨congrArg (fun o : Output => Answer.code o.code) hout, ⟨h.ahead, hout⟩⟩

/-- Of two alike sessions one does some calls, and the other one does the same calls and looks ahead
between them. The calls are answered alike, and in the end the sessions are alike again. -/
theorem Alike.run (h : s.Alike s') (xs : List (Option Call)) :
    callAnswers xs (s'.answers (looking xs)) = s.answers (plainly xs) ∧
      (s.run (plainly xs)).2.Alike (s'.run (looking xs)).2 := by
  induction xs generalizing s s' with
  | nil => exact ⟨rfl, h⟩
  | cons x xs ih =>
    rcases x with _ | x
    · exact ih h.peek
    · obtain ⟨hanswer, hstep⟩ := h.step x
      obtain ⟨hanswers, hrun⟩ := ih hstep
      refine ⟨?_, hrun⟩
      have hplain : s.answers (plainly (some x :: xs)) =
          (s.step x.step).1 :: (s.step x.step).2.answers (plainly xs) := rfl
      rw [hplain, ← hanswer, ← hanswers]
      rfl

/-! ## Sessions on a text -/

/-- A session on a text does the calls `xs` and looks ahead where there is none. It is compared with the
session that does the calls alone. -/
structure LooksUnseen (source text : String) (xs : List (Option Call)) : Prop where
  /-- All calls have the same answers: the characters, the reports and the code that is written. -/
  answers_eq : callAnswers xs ((ofText source text).answers (looking xs)) =
    (ofText source text).answers (plainly xs)
  /-- In the end the output is the same. -/
  output_eq : ((ofText source text).run (looking xs)).2.output =
    ((ofText source text).run (plainly xs)).2.output
  /-- To look ahead shows what `get` would take at this point, in the one session as in the other. -/
  look_eq : ∀ n, xs[n]? = some none →
    ((ofText source text).answers (looking xs))[n]? =
        some (((ofText source text).run (looking (xs.take n))).2.step .get).1 ∧
      ((ofText source text).answers (looking xs))[n]? =
        some (((ofText source text).run (plainly (xs.take n))).2.step .get).1
  /-- The parked character and the unread ones are the end of the text. -/
  stream_suffix : ((ofText source text).run (looking xs)).2.reader.stream <:+ placedText text

/-- Wherever a session looks ahead, it is not seen in anything else that the session does. -/
theorem looksUnseen (source text : String) (xs : List (Option Call)) :
    LooksUnseen source text xs := by
  have hrun := (Alike.refl (ofText source text)).run
  refine ⟨(hrun xs).1, (hrun xs).2.output_eq, ?_, ?_⟩
  · intro n hn
    have hlook : ((ofText source text).answers (looking xs))[n]? =
        some (((ofText source text).run (looking (xs.take n))).2.step .get).1 := by
      rw [getElem?_answers, looking, ← List.map_take, List.getElem?_map, hn]
      rfl
    have hget := ((hrun (xs.take n)).2.step .get).1
    exact ⟨hlook, hlook.trans (congrArg some hget)⟩
  · have hcan : IsCanonical (ofText source text).reader.stream := isCanonical_placedText text
    exact stream_run_suffix hcan fun x => ne_read_of_mem_looking

end Session

end Squeeze
