import Squeeze.Proofs.WindowStep

/-!
# The loops of the scanners

What a scanner finds was told as a function on the characters ahead. The scanners proper are loops, each turn
of which takes one or two characters from the reader and decides whether there is another turn. Here they are
as loops. A loop is run for a given number of turns at most (`within`), so it is not taken for granted that it
ends. That it does, and with what the function says, follows from what one turn does: if the loop goes on after
it, the turn has taken a character (`GetsOn`). So there is no more than one turn for each character ahead, and
one more to find the end (`within_eq_some`).
-/

namespace Squeeze

/-! ## Taking characters -/

namespace Reader

/-- What `r'` has ahead is the end of what `r` has ahead, without at least one character. -/
structure Takes (r r' : Reader) : Prop where
  suffix : r'.stream <:+ r.stream
  length_lt : r'.stream.length < r.stream.length

section Takes

variable {r r' r'' : Reader} {c : Placed} {cs : List Placed}

theorem Takes.trans_suffix (h : r.Takes r') (hs : r''.stream <:+ r'.stream) : r.Takes r'' where
  suffix := hs.trans h.suffix
  length_lt := Nat.lt_of_le_of_lt hs.length_le h.length_lt

theorem Takes.of_suffix (h : r'.Takes r'') (hs : r'.stream <:+ r.stream) : r.Takes r'' where
  suffix := h.suffix.trans hs
  length_lt := Nat.lt_of_lt_of_le h.length_lt hs.length_le

theorem takes_of_stream_eq (h : r.stream = c :: r'.stream) : r.Takes r' := by
  constructor
  · rw [h]
    exact List.suffix_cons ..
  · rw [h]
    exact Nat.lt_succ_self _

theorem get_nil (h : r.stream = []) : r.get = (none, r.resume []) := by
  obtain ⟨source, _ | d, _ | ⟨e, rest⟩, stop⟩ := r
  · rfl
  all_goals cases h

theorem get_cons (h : r.stream = c :: cs) : r.get = (some c, r.resume cs) := by
  obtain ⟨source, _ | d, _ | ⟨e, rest⟩, stop⟩ := r <;> cases h <;> rfl

theorem peek_eq (r : Reader) : ∃ r', r.peek = (r.stream.head?, r') ∧ r.Ahead r.stream r' := by
  have hself : r.Ahead r.stream r := ⟨rfl, rfl, rfl⟩
  exact ⟨r.peek.2, Prod.ext r.fst_peek rfl, hself.peek⟩

/-- The next logical character is taken from the front of the stream, with the comment before it. -/
theorem takes_nextLogical (h : r.nextLogical = (.ok (some c), r')) : r.Takes r' := by
  refine ⟨?_, length_stream_nextLogical h⟩
  rcases hf : front r.stream with _ | ⟨x, rest⟩ | _
  · rw [nextLogical_ended hf] at h
    cases h
  · obtain ⟨r'', hr, ha⟩ := nextLogical_piece hf
    rw [hr] at h
    cases h
    rw [ha.stream_eq]
    exact (List.suffix_append ..).trans (front_suffix hf).2
  · rw [nextLogical_openComment hf] at h
    cases h

end Takes

end Reader

/-! ## Loops -/

/-- What one turn of a loop leads to: the next turn, or the end of the loop with what has come out. -/
inductive Turn (σ ρ : Type) where
  | again (s : σ)
  | done (x : ρ)

section Loops

variable {σ ρ : Type}

/-- What comes out of a loop if it ends within `k` turns. -/
def within (turn : σ → Turn σ ρ) : Nat → σ → Option ρ
  | 0, _ => none
  | k + 1, s =>
    match turn s with
    | .again s => within turn k s
    | .done x => some x

/-- A turn gets on towards what `f` says will come out. If the loop goes on after it, it has taken a character;
the last turn has, too, or has found that there is none. -/
inductive GetsOn (f : σ → ρ) (before : σ → Reader) (after : ρ → Reader) (s : σ) : Turn σ ρ → Prop
  | again {s' : σ} (hf : f s = f s') (ht : (before s).Takes (before s')) :
    GetsOn f before after s (.again s')
  | done {x : ρ} (hf : f s = x) (ht : (before s).Takes (after x) ∨ (before s).stream = []) :
    GetsOn f before after s (.done x)

/-- A loop that gets on with each turn ends, and with what `f` says. -/
theorem within_eq_some {turn : σ → Turn σ ρ} {f : σ → ρ} {before : σ → Reader} {after : ρ → Reader}
    (h : ∀ s, GetsOn f before after s (turn s)) {k : Nat} {s : σ}
    (hk : (before s).stream.length < k) : within turn k s = some (f s) := by
  induction k generalizing s with
  | zero => exact absurd hk (Nat.not_lt_zero _)
  | succ k ih =>
    have hs := h s
    rw [within]
    cases ht : turn s with
    | again s' =>
      rw [ht] at hs
      cases hs with
      | again hf htakes =>
        have hlt := htakes.length_lt
        rw [hf]
        exact ih (by omega)
    | done x =>
      rw [ht] at hs
      cases hs with
      | done hf _ =>
        dsimp only
        rw [hf]

end Loops

/-! ## Comments -/

namespace Reader

/-- A turn in a line comment. -/
def lineTurn (r : Reader) : Turn Reader (Except ScanError (Option Placed) × Reader) :=
  match r.get with
  | (none, r) => .done (.ok none, r)
  | (some c, r) => if c.isTerminator then .done (.ok (some c), r) else .again r

/-- A turn in a block comment. After a star it looks at the next character, and takes it if it is the slash. -/
def blockTurn (r : Reader) : Turn Reader (Except ScanError (Option Placed) × Reader) :=
  match r.get with
  | (none, r) => .done (.error (r.fault .comment none), r)
  | (some c, r) =>
    if c.char = '*' then
      match r.peek with
      | (none, r) => .again r
      | (some d, r) =>
        if d.char = '/' then .done (.ok (some (.synthetic ' ')), r.get.2) else .again r
    else .again r

/-- The next logical character, if a comment before it ends within `k` turns. -/
def nextLogicalWithin (k : Nat) (r : Reader) : Option (Except ScanError (Option Placed) × Reader) :=
  match r.get with
  | (none, r) => some (.ok none, r)
  | (some c, r) =>
    if c.char ≠ '/' then some (.ok (some c), r)
    else
      match r.peek with
      | (none, r) => some (.ok (some c), r)
      | (some d, r) =>
        if d.char = '/' then within lineTurn k r
        else if d.char = '*' then within blockTurn k r.get.2
        else some (.ok (some c), r)

/-- What comes after a line comment. -/
def afterLine (r : Reader) : Except ScanError (Option Placed) × Reader :=
  match fromTerminator r.stream with
  | [] => (.ok none, r.resume [])
  | c :: rest => (.ok (some c), r.resume rest)

/-- What a block comment counts as, if it ends. -/
def afterBlock (r : Reader) : Except ScanError (Option Placed) × Reader :=
  match throughBlock r.stream with
  | none => (.error ((r.resume []).fault .comment none), r.resume [])
  | some (_, after) => (.ok (some (.synthetic ' ')), r.resume after)

section Comments

variable {r r' : Reader} {c : Placed} {cs : List Placed}

theorem lineTurn_getsOn (r : Reader) : GetsOn afterLine id Prod.snd r r.lineTurn := by
  rcases hr : r.stream with _ | ⟨c, cs⟩
  · rw [lineTurn, get_nil hr]
    refine .done ?_ (.inr hr)
    rw [afterLine, hr]
    rfl
  have htakes : r.Takes (r.resume cs) := takes_of_stream_eq hr
  rw [lineTurn, get_cons hr]
  dsimp only
  cases hc : c.isTerminator with
  | true =>
    rw [if_pos rfl]
    refine .done ?_ (.inl htakes)
    rw [afterLine, hr, fromTerminator, List.dropWhile_cons_of_neg (by simp [hc])]
  | false =>
    rw [if_neg Bool.false_ne_true]
    refine .again ?_ htakes
    rw [afterLine, afterLine, hr, fromTerminator, List.dropWhile_cons_of_pos (by simp [hc])]
    rfl

/-- Inside a block comment a turn takes one character. A star may have to be looked behind. -/
theorem blockTurn_inside (hr : r.stream = c :: cs)
    (hin : ¬ (c.char = '*' ∧ cs.head?.map Placed.char = some '/')) :
    ∃ r', r.blockTurn = .again r' ∧ r.Ahead cs r' := by
  rw [blockTurn, get_cons hr]
  dsimp only
  by_cases hc : c.char = '*'
  · obtain ⟨r', hpeek, ha⟩ := (r.resume cs).peek_eq
    refine ⟨r', ?_, ha.stream_eq, ha.source_eq, ha.stop_eq⟩
    rw [if_pos hc, hpeek]
    rcases cs with _ | ⟨d, cs⟩
    · rfl
    · have hd : d.char ≠ '/' := fun hd => hin ⟨hc, congrArg some hd⟩
      show (if d.char = '/' then _ else _) = _
      rw [if_neg hd]
  · rw [if_neg hc]
    exact ⟨_, rfl, r.ahead_resume cs⟩

theorem blockTurn_closed {d : Placed} (hr : r.stream = c :: d :: cs) (hc : c.char = '*')
    (hd : d.char = '/') :
    r.blockTurn = .done (.ok (some (.synthetic ' ')), r.resume cs) := by
  obtain ⟨r', hpeek, ha⟩ := (r.resume (d :: cs)).peek_eq
  rw [blockTurn, get_cons hr]
  dsimp only
  rw [if_pos hc, hpeek]
  show (if d.char = '/' then _ else _) = _
  rw [if_pos hd, get_cons ha.stream_eq, ha.resume_eq]
  rfl

theorem blockTurn_getsOn (r : Reader) : GetsOn afterBlock id Prod.snd r r.blockTurn := by
  rcases hr : r.stream with _ | ⟨c, cs⟩
  · rw [blockTurn, get_nil hr]
    refine .done ?_ (.inr hr)
    rw [afterBlock, hr]
    rfl
  have htakes : r.Takes (r.resume cs) := takes_of_stream_eq hr
  by_cases hend : c.char = '*' ∧ cs.head?.map Placed.char = some '/'
  · obtain ⟨hc, hhead⟩ := hend
    rcases cs with _ | ⟨d, cs⟩
    · cases hhead
    rw [blockTurn_closed hr hc (Option.some.inj hhead)]
    refine .done ?_ (.inl (htakes.trans_suffix (List.suffix_cons d cs)))
    rw [afterBlock, hr, throughBlock, if_pos ⟨hc, hhead⟩]
    rfl
  · obtain ⟨r', hturn, ha⟩ := blockTurn_inside hr hend
    have hsuffix : r'.stream <:+ (r.resume cs).stream := by
      rw [ha.stream_eq]
      exact List.suffix_rfl
    rw [hturn]
    refine .again ?_ (htakes.trans_suffix hsuffix)
    rw [afterBlock, afterBlock, hr, throughBlock, if_neg hend, ha.stream_eq, ha.resume_eq]
    rcases throughBlock cs with _ | ⟨inside, after⟩
    · rfl
    · show (Except.ok _, r.resume after) = (_, r'.resume after)
      rw [ha.resume_eq]

/-- A character that opens no comment is taken, and if it is a slash, the next one has been looked at. -/
theorem nextLogical_read (hr : r.stream = c :: cs) (hn : opensComment (spelling (c :: cs)) = false) :
    r.nextLogical = (.ok (some c), if c.char = '/' then (r.resume cs).peek.2 else r.resume cs) := by
  rw [nextLogical, hr, front_cons hn]
  rfl

theorem nextLogical_line {a b : Placed} (hr : r.stream = a :: b :: cs) (ha : a.char = '/')
    (hb : b.char = '/') : r.nextLogical = (r.resume (b :: cs)).afterLine := by
  obtain ⟨-, -, -, hend⟩ := exists_line (b :: cs)
  rw [nextLogical, hr, front_line ha hb, afterLine, stream_resume]
  rcases hrest : fromTerminator (b :: cs) with _ | ⟨c, rest⟩
  · rfl
  · have hne : c.char ≠ '/' := by
      intro hc
      have hterm := hend c (by rw [hrest]; rfl)
      simp [Placed.isTerminator, hc] at hterm
    show (_, if c.char = '/' then _ else _) = _
    rw [if_neg hne]
    rfl

theorem nextLogical_block {a b : Placed} (hr : r.stream = a :: b :: cs) (ha : a.char = '/')
    (hb : b.char = '*') : r.nextLogical = (r.resume cs).afterBlock := by
  rw [nextLogical, hr, afterBlock, stream_resume]
  rcases ht : throughBlock cs with _ | ⟨inside, after⟩
  · rw [front_openBlock ha hb ht]
    rfl
  · rw [front_block ha hb ht]
    rfl

/-- Comments end, and no more turns are needed than there are characters. -/
theorem nextLogicalWithin_eq {k : Nat} (hk : r.stream.length < k) :
    r.nextLogicalWithin k = some r.nextLogical := by
  rcases opening_cases r.stream with hr | ⟨c, cs, hr, hn⟩ | ⟨a, b, cs, hr, ha, hb⟩ |
    ⟨a, b, cs, hr, ha, hb⟩
  · rw [nextLogicalWithin, get_nil hr, nextLogical_ended (by rw [hr]; rfl)]
  · rw [hr] at hn
    rw [nextLogicalWithin, get_cons hr, nextLogical_read hr hn]
    dsimp only
    by_cases hc : c.char = '/'
    · obtain ⟨r', hpeek, -⟩ := (r.resume cs).peek_eq
      rw [if_neg (not_not_intro hc), if_pos hc, hpeek]
      rcases cs with _ | ⟨d, cs⟩
      · rfl
      · have hd : d.char ≠ '/' ∧ d.char ≠ '*' := by simpa [opensComment, hc] using hn
        show (if d.char = '/' then _ else if d.char = '*' then _ else _) = _
        rw [if_neg hd.1, if_neg hd.2]
    · rw [if_pos hc, if_neg hc]
  · obtain ⟨r', hpeek, hahead⟩ := (r.resume (b :: cs)).peek_eq
    have hlt : r'.stream.length < k := by
      rw [hr] at hk
      rw [hahead.stream_eq]
      exact Nat.lt_of_succ_lt hk
    have hloop : within lineTurn k r' = some r'.afterLine := within_eq_some lineTurn_getsOn hlt
    rw [nextLogicalWithin, get_cons hr, nextLogical_line hr ha hb]
    dsimp only
    rw [if_neg (not_not_intro ha), hpeek]
    show (if b.char = '/' then _ else _) = _
    rw [if_pos hb, hloop, afterLine, afterLine, hahead.stream_eq]
    simp only [hahead.resume_eq]
  · obtain ⟨r', hpeek, hahead⟩ := (r.resume (b :: cs)).peek_eq
    have hlt : (r.resume cs).stream.length < k := by
      rw [hr] at hk
      exact Nat.lt_of_succ_lt (Nat.lt_of_succ_lt hk)
    have hloop : within blockTurn k (r.resume cs) = some (r.resume cs).afterBlock :=
      within_eq_some blockTurn_getsOn hlt
    have hne : b.char ≠ '/' := by simp [hb]
    rw [nextLogicalWithin, get_cons hr, nextLogical_block hr ha hb]
    dsimp only
    rw [if_neg (not_not_intro ha), hpeek]
    show (if b.char = '/' then _ else if b.char = '*' then _ else _) = _
    rw [if_neg hne, if_pos hb, get_cons hahead.stream_eq, hahead.resume_eq]
    exact hloop

end Comments

end Reader

/-! ## Literals -/

/-- A literal that is being copied. -/
structure Copying where
  /-- The kind of body that the loop is in. -/
  body : Body
  reader : Reader
  output : Output

namespace Copying

/-- A turn in a literal. After an escape it takes the next character, too. A bracket leads into the loop over
the character class and another one back from it. -/
def turn (s : Copying) : Turn Copying (Except ScanError Placed × Reader × Output) :=
  match s.reader.get with
  | (none, r) => .done (.error (r.fault s.body.unterminated none), r, s.output)
  | (some c, r) =>
    if c.isTerminator then .done (.error (r.fault s.body.unterminated (some c)), r, s.output)
    else
      match s.body.role c.char with
      | .closing => .done (.ok c, r, s.output)
      | .plain next => .again ⟨next, r, s.output.emit c⟩
      | .escape =>
        match r.get with
        | (none, r) => .done (.error (r.fault s.body.unterminated none), r, s.output.emit c)
        | (some d, r) =>
          if d.isTerminator then
            .done (.error (r.fault s.body.unterminated (some d)), r, s.output.emit c)
          else .again ⟨s.body, r, (s.output.emit c).emit d⟩

/-- What closes the literal, the reader behind it, and the output with the literal. -/
def outcome (s : Copying) : Except ScanError Placed × Reader × Output :=
  let copied := s.reader.copyBody s.body
  (copied.closing, copied.reader, s.output.emitAll copied.chars)

section Turn

variable {b : Body} {r : Reader} {o : Output} {c : Placed} {cs : List Placed}

theorem outcome_broken {what : Unterminated} {copied : List Placed} {d : Option Placed}
    (h : scan b r.stream = ⟨copied, .broken what d, cs⟩) :
    outcome ⟨b, r, o⟩ = (.error ((r.resume cs).fault what d), r.resume cs, o.emitAll copied) := by
  simp only [outcome, Reader.copyBody, h]

theorem outcome_closed {copied : List Placed} (h : scan b r.stream = ⟨copied, .closed c, cs⟩) :
    outcome ⟨b, r, o⟩ = (.ok c, r.resume cs, o.emitAll copied) := by
  simp only [outcome, Reader.copyBody, h]

/-- What has been copied stands in the output already when the rest is copied. -/
theorem outcome_copying {b' : Body} {copied : List Placed}
    (h : scan b r.stream = (scan b' cs).copying copied) :
    outcome ⟨b, r, o⟩ = outcome ⟨b', r.resume cs, o.emitAll copied⟩ := by
  simp only [outcome, Reader.copyBody, h, Reader.stream_resume, Scan.copying, Output.emitAll_append]
  rfl

end Turn

theorem turn_getsOn (s : Copying) : GetsOn outcome reader (fun x => x.2.1) s s.turn := by
  obtain ⟨b, r, o⟩ := s
  rcases hr : r.stream with _ | ⟨c, cs⟩
  · have hscan : scan b r.stream = ⟨[], .broken b.unterminated none, []⟩ := by rw [hr, scan]
    rw [turn, Reader.get_nil hr]
    exact .done (outcome_broken hscan) (.inr hr)
  have htakes : r.Takes (r.resume cs) := Reader.takes_of_stream_eq hr
  rw [turn, Reader.get_cons hr]
  dsimp only
  by_cases hc : c.isTerminator = true
  · have hscan : scan b r.stream = ⟨[], .broken b.unterminated (some c), cs⟩ := by
      simp [hr, scan.eq_def b, hc]
    rw [if_pos hc]
    exact .done (outcome_broken hscan) (.inl htakes)
  rw [if_neg hc]
  cases hrole : b.role c.char with
  | closing =>
    have hscan : scan b r.stream = ⟨[], .closed c, cs⟩ := by
      simp [hr, scan.eq_def b, hc, hrole]
    exact .done (outcome_closed hscan) (.inl htakes)
  | plain next =>
    have hscan : scan b r.stream = (scan next cs).copying [c] := by
      simp [hr, scan.eq_def b, hc, hrole]
    exact .again (outcome_copying hscan) htakes
  | escape =>
    -- the escaped character is taken in the same turn
    rcases cs with _ | ⟨d, cs⟩
    · have hscan : scan b r.stream = ⟨[c], .broken b.unterminated none, []⟩ := by
        simp [hr, scan.eq_def b, hc, hrole]
      dsimp only
      rw [Reader.get_nil (r.stream_resume [])]
      exact .done (outcome_broken hscan) (.inl htakes)
    have htakes : r.Takes (r.resume cs) := htakes.trans_suffix (List.suffix_cons d cs)
    dsimp only
    rw [Reader.get_cons (r.stream_resume (d :: cs))]
    dsimp only
    by_cases hd : d.isTerminator = true
    · have hscan : scan b r.stream = ⟨[c], .broken b.unterminated (some d), cs⟩ := by
        simp [hr, scan.eq_def b, hc, hrole, hd]
      rw [if_pos hd]
      exact .done (outcome_broken hscan) (.inl htakes)
    · have hscan : scan b r.stream = (scan b cs).copying [c, d] := by
        rw [hr, scan.eq_def]
        dsimp only
        rw [if_neg hc, hrole]
        exact if_neg hd
      rw [if_neg hd]
      exact .again (outcome_copying hscan) htakes

/-- Literals end, and no more turns are needed than there are characters. -/
theorem within_turn {k : Nat} {s : Copying} (hk : s.reader.stream.length < k) :
    within turn k s = some s.outcome := within_eq_some turn_getsOn hk

end Copying

end Squeeze
