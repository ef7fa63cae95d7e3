import Squeeze.Minify
import Squeeze.Proofs.Division

/-!
# One step of the window

What a step does depends on the characters in view and on the stream ahead, and on nothing else about
the reader. A step has two parts: what is in view is written or dropped (`turn`), and then the next
logical character is let into view (`look`). Here each kind of part is an equation between two windows,
one with the character or literal still ahead and one with it behind.

A run is followed from one logical character to the next (`Leads`). Wherever one is in this, going on to
the end of the script gives the same (`Leads.proceed_eq`).
-/

namespace Squeeze

/-! ## Reports -/

/-- The report on a script that breaks off as `b` says. -/
def reportOn (source : String) (stop : Position) (b : Broken) : ScanError where
  what := b.1
  line := ((b.2.bind Placed.origin).getD stop).line
  source := source

theorem scan_broken {body : Body} {cs copied rest : List Placed} {what : Unterminated}
    {d : Option Placed} (h : scan body cs = ⟨copied, .broken what d, rest⟩) :
    (d = none → rest = []) ∧ ∀ c ∈ d, c ∈ cs := by
  fun_induction scan body cs generalizing copied with
  | case1 => cases h; simp
  | case2 => cases h; simp
  | case3 => cases h
  | case4 body c cs hc next hr ih =>
    obtain ⟨copied', -, h⟩ := Scan.copying_eq_iff.mp h
    exact ⟨(ih h).1, fun e he => List.mem_cons_of_mem _ ((ih h).2 e he)⟩
  | case5 => cases h; simp
  | case6 => cases h; simp
  | case7 body c hc hr e cs he ih =>
    obtain ⟨copied', -, h⟩ := Scan.copying_eq_iff.mp h
    exact ⟨(ih h).1, fun e he => List.mem_cons_of_mem _ (List.mem_cons_of_mem _ ((ih h).2 e he))⟩

theorem char_of_scan_closed {body : Body} {cs copied rest : List Placed} {d : Placed}
    (h : scan body cs = ⟨copied, .closed d, rest⟩) : d.char = body.closer := by
  fun_induction scan body cs generalizing copied with
  | case1 | case2 | case5 | case6 => cases h
  | case3 body c cs hc hr =>
    cases h
    exact Body.char_of_closing hr
  | case4 body c cs hc next hr ih =>
    obtain ⟨copied', -, h⟩ := Scan.copying_eq_iff.mp h
    rw [ih h, Body.closer_of_plain hr]
  | case7 body c hc hr e cs he ih =>
    obtain ⟨copied', -, h⟩ := Scan.copying_eq_iff.mp h
    exact ih h

namespace Reader

theorem fault_resume {r : Reader} {body : Body} {cs copied rest : List Placed}
    {what : Unterminated} {d : Option Placed} (hp : IsPlaced cs)
    (h : scan body cs = ⟨copied, .broken what d, rest⟩) :
    (r.resume rest).fault what d = reportOn r.source r.stop (what, d) := by
  obtain ⟨hend, hmem⟩ := scan_broken h
  rcases d with _ | d
  · rw [hend rfl]
    rfl
  · obtain ⟨p, hd⟩ := Option.isSome_iff_exists.mp (hp d (hmem d rfl))
    simp [fault, reportOn, hd, resume]

/-! ## The reader -/

/-- The reader `r'` reads the same script as `r`, and has `cs` ahead. -/
structure Ahead (r : Reader) (cs : List Placed) (r' : Reader) : Prop where
  stream_eq : r'.stream = cs
  source_eq : r'.source = r.source
  stop_eq : r'.stop = r.stop

theorem ahead_resume (r : Reader) (cs : List Placed) : r.Ahead cs (r.resume cs) := ⟨rfl, rfl, rfl⟩

theorem Ahead.peek {r r' : Reader} {cs : List Placed} (h : r.Ahead cs r') :
    r.Ahead cs r'.peek.2 := by
  refine ⟨by rw [stream_peek, h.stream_eq], ?_, ?_⟩
  · exact r'.source_get.trans h.source_eq
  · exact r'.stop_get.trans h.stop_eq

theorem Ahead.resume_eq {r r' : Reader} {cs : List Placed} (h : r.Ahead cs r')
    (rest : List Placed) : r'.resume rest = r.resume rest := by
  simp only [resume, h.source_eq, h.stop_eq]

/-- Two readers of one script hand out the same if the same stands at the front of what they have
ahead, and it makes no difference whether a character is parked. -/
theorem Ahead.nextLogical_eq {r r' : Reader} {cs : List Placed} (h : r.Ahead cs r')
    (hf : front r.stream = front cs) : r'.nextLogical = r.nextLogical := by
  simp only [nextLogical, h.stream_eq, hf, h.resume_eq]

theorem nextLogical_ended {r : Reader} (h : front r.stream = .ended) :
    r.nextLogical = (.ok none, r.resume []) := by
  rw [nextLogical, h]

theorem nextLogical_piece {r : Reader} {x : Piece} {rest : List Placed}
    (h : front r.stream = .piece x rest) :
    ∃ r', r.nextLogical = (.ok (some x.placed), r') ∧ r.Ahead rest r' := by
  rw [nextLogical, h]
  refine ⟨_, rfl, ?_⟩
  split
  · exact (ahead_resume r rest).peek
  · exact ahead_resume r rest

theorem nextLogical_openComment {r : Reader} (h : front r.stream = .openComment) :
    r.nextLogical = (.error (reportOn r.source r.stop (.comment, none)), r.resume []) := by
  rw [nextLogical, h]
  rfl

end Reader

/-! ## The parts of a step -/

namespace Window

/-- Makes the next character current and lets none into view in its place. If it opens a string, that
is copied. -/
def shift (w : Window) : Except ScanError Window :=
  match w.next with
  | none => .ok { w with current := none }
  | some c => if isQuote c.char then w.copyString c else .ok { w with current := some c }

/-- Writes or drops one of the characters in view, of which `c` is the current one, and lets none into
view in its place. -/
def turn (w : Window) (c : Placed) : Except ScanError Window :=
  match action c.char (w.next.map Placed.char) with
  | .output => shift { w with output := w.output.emit c }
  | .copy => w.shift
  | .skip => .ok w

/-- Lets the next logical character into view. -/
def look (w : Window) : Except ScanError Window :=
  match w.reader.nextLogical with
  | (.error e, _) => .error e
  | (.ok next, reader) => .ok { w with reader, next }

/-- Whether the next character opens a regular expression. -/
def opensRegex (w : Window) : Bool :=
  startsRegex (w.current.map Placed.char) (w.next.map Placed.char)

/-- Copies a regular expression up to the slash that closes it, and lets none into view behind that. -/
def passRegex (w : Window) : Except ScanError Window :=
  let body := w.reader.copyBody .regex
  match body.closing with
  | .error e => .error e
  | .ok slash =>
    .ok ⟨body.reader, w.output.emitAll (w.current.toList ++ w.next.toList ++ body.chars),
      some slash, none⟩

theorem advance_eq (w : Window) : w.advance = w.shift >>= refill := by
  unfold advance shift
  rcases w.next with _ | d
  · rfl
  · by_cases hd : isQuote d.char = true
    · simp only [if_pos hd]
      rcases w.copyString d with e | w' <;> rfl
    · simp only [if_neg hd]
      rfl

theorem step_eq (w : Window) (c : Placed) : w.step c = w.turn c >>= refill := by
  unfold step turn
  cases action c.char (w.next.map Placed.char) with
  | output => exact advance_eq _
  | copy => exact advance_eq w
  | skip => rfl

theorem refill_eq (w : Window) :
    w.refill = w.look >>= fun v => if v.opensRegex then v.copyRegex else .ok v := by
  unfold refill look
  rcases w.reader.nextLogical with ⟨_ | next, r⟩ <;> rfl

/-- No regular expression begins right behind another one, so the window goes on there as anywhere. -/
theorem copyRegex_eq (w : Window) : w.copyRegex = w.passRegex >>= refill := by
  unfold copyRegex passRegex Reader.copyBody
  rcases hs : scan .regex w.reader.stream with ⟨copied, d | ⟨what, d⟩, after⟩
  · have hd : d.char = '/' := char_of_scan_closed hs
    show _ = refill _
    rw [refill_eq, look]
    dsimp only
    rcases (w.reader.resume after).nextLogical with ⟨_ | next, r⟩
    · rfl
    · have ho : opensRegex ⟨r, w.output.emitAll (w.current.toList ++ w.next.toList ++ copied),
          some d, next⟩ = false := startsRegex_slash (congrArg some hd) _
      show _ = ite _ _ _
      rw [if_neg (Bool.eq_false_iff.mp ho)]
  · rfl

/-! ## Going on to the end -/

/-- Lets the next logical character into view, and goes on from there to the end. -/
def proceed (w : Window) : Except ScanError Output := w.refill >>= run

theorem run_none {w : Window} (h : w.current = none) : w.run = .ok w.output := by
  rw [run]
  split
  · rfl
  · rename_i hc
    rw [h] at hc
    cases hc

theorem run_some {w : Window} {c : Placed} (h : w.current = some c) :
    w.run = w.turn c >>= proceed := by
  have hstep : w.run = w.step c >>= run := by
    rw [run]
    split
    · rename_i hc
      rw [h] at hc
      cases hc
    · rename_i d hc
      rw [h] at hc
      cases hc
      split <;> rename_i hs <;> rw [hs] <;> rfl
  rw [hstep, step_eq]
  rcases w.turn c with e | v <;> rfl

theorem proceed_eq (w : Window) : w.proceed =
    w.look >>= fun v => if v.opensRegex then v.passRegex >>= proceed else v.run := by
  rw [proceed, refill_eq]
  rcases w.look with e | v
  · rfl
  · show (ite _ _ _ >>= run) = ite _ _ _
    split
    · rw [copyRegex_eq]
      rcases v.passRegex with e | v' <;> rfl
    · rfl

theorem proceed_of_look {v w : Window} (hw : v.look = .ok w) (ho : w.opensRegex = false) :
    v.proceed = w.run := by
  rw [proceed_eq, hw]
  exact if_neg (Bool.eq_false_iff.mp ho)

theorem proceed_of_regex {v w : Window} (hw : v.look = .ok w) (ho : w.opensRegex = true) :
    v.proceed = w.passRegex >>= proceed := by
  rw [proceed_eq, hw]
  exact if_pos ho

/-- From one logical character to the next: `v` is about to let one into view, and when that one has
been dealt with, `v'` is about to let in the next one. -/
inductive Leads (v v' : Window) : Prop
  /-- Whatever comes into view, one of the two characters there is written or dropped. -/
  | turn {w : Window} {c : Placed} (hw : v.look = .ok w) (ho : w.opensRegex = false)
      (hc : w.current = some c) (ht : w.turn c = .ok v')
  /-- A regular expression is copied. -/
  | regex {w : Window} (hw : v.look = .ok w) (ho : w.opensRegex = true)
      (hr : w.passRegex = .ok v')

theorem Leads.proceed_eq {v v' : Window} (h : v.Leads v') : v.proceed = v'.proceed := by
  cases h with
  | turn hw ho hc ht =>
    rw [proceed_of_look hw ho, run_some hc, ht]
    rfl
  | regex hw ho hr =>
    rw [proceed_of_regex hw ho, hr]
    rfl

variable {r : Reader} {o : Output} {c : Placed} {current next : Option Placed}

/-! ### The decision -/

theorem turn_output (h : action c.char (next.map Placed.char) = .output) :
    turn ⟨r, o, some c, next⟩ c = shift ⟨r, o.emit c, some c, next⟩ := by
  rw [turn, h]

theorem turn_copy (h : action c.char (next.map Placed.char) = .copy) :
    turn ⟨r, o, some c, next⟩ c = shift ⟨r, o, some c, next⟩ := by
  rw [turn, h]

theorem turn_skip (h : action c.char (next.map Placed.char) = .skip) :
    turn ⟨r, o, some c, next⟩ c = .ok ⟨r, o, some c, next⟩ := by
  rw [turn, h]

/-! ### The next character becomes current -/

theorem shift_none : shift ⟨r, o, current, none⟩ = .ok ⟨r, o, none, none⟩ := rfl

theorem shift_char {d : Placed} (hd : isQuote d.char = false) :
    shift ⟨r, o, current, some d⟩ = .ok ⟨r, o, some d, some d⟩ := by
  simp [shift, hd]

theorem shift_string {d close : Placed} {copied after : List Placed} (hd : isQuote d.char = true)
    (hs : scan (.string d.char) r.stream = ⟨copied, .closed close, after⟩) :
    shift ⟨r, o, current, some d⟩ =
      .ok ⟨r.resume after, o.emitAll (d :: copied), some close, none⟩ := by
  simp [shift, hd, copyString, Reader.copyBody, hs]

theorem shift_openString {d : Placed} {copied after : List Placed} {what : Unterminated}
    {e : Option Placed} (hp : IsPlaced r.stream) (hd : isQuote d.char = true)
    (hs : scan (.string d.char) r.stream = ⟨copied, .broken what e, after⟩) :
    shift ⟨r, o, current, some d⟩ = .error (reportOn r.source r.stop (what, e)) := by
  rw [← Reader.fault_resume hp hs]
  simp [shift, hd, copyString, Reader.copyBody, hs]

/-! ### The next logical character comes into view -/

variable {x : Piece} {rest : List Placed}

theorem look_ended (h : front r.stream = .ended) :
    look ⟨r, o, current, next⟩ = .ok ⟨r.resume [], o, current, none⟩ := by
  rw [look, Reader.nextLogical_ended h]

theorem look_openComment (h : front r.stream = .openComment) :
    look ⟨r, o, current, next⟩ = .error (reportOn r.source r.stop (.comment, none)) := by
  rw [look, Reader.nextLogical_openComment h]

theorem look_piece (h : front r.stream = .piece x rest) :
    ∃ r', r.Ahead rest r' ∧
      look ⟨r, o, current, next⟩ = .ok ⟨r', o, current, some x.placed⟩ := by
  obtain ⟨r', hr, ha⟩ := Reader.nextLogical_piece h
  refine ⟨r', ha, ?_⟩
  rw [look, hr]

/-! ### A regular expression is copied -/

theorem passRegex_closed {slash d : Placed} {copied after : List Placed}
    (hs : scan .regex r.stream = ⟨copied, .closed d, after⟩) :
    passRegex ⟨r, o, some c, some slash⟩ =
      .ok ⟨r.resume after, o.emitAll (c :: slash :: copied), some d, none⟩ := by
  simp [passRegex, Reader.copyBody, hs]

theorem passRegex_open {copied after : List Placed} {what : Unterminated} {e : Option Placed}
    (hp : IsPlaced r.stream) (hs : scan .regex r.stream = ⟨copied, .broken what e, after⟩) :
    passRegex ⟨r, o, current, next⟩ = .error (reportOn r.source r.stop (what, e)) := by
  rw [← Reader.fault_resume hp hs]
  simp [passRegex, Reader.copyBody, hs]

end Window

end Squeeze
