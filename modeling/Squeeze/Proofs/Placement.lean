import Squeeze.Proofs.Reading
import Squeeze.Text.Lines

/-!
# A script in another place

How a script is read depends little on where it stands. Other lines may come before it, and its
characters then stand further down (`Point.below`). Other text may come behind it, if a line ends in
between (`Point.followedBy`). And tokens may come before it, if a regular expression can open behind
them as it can at the beginning of a script (`Point.after`). In each of these places the same parts are
passed, and what is open there is open here.
-/

namespace Squeeze

/-! ## Below other lines -/

section Below

variable {k : Nat}

/-- The piece as it stands when `k` lines have come before. -/
def Piece.below (k : Nat) : Piece → Piece
  | .read c => .read (c.below k)
  | .comment cs => .comment (cs.map (Placed.below k))

/-- The token as it stands when `k` lines have come before. -/
def Token.below (k : Nat) (t : Token) : Token where
  gap := t.gap.map (Piece.below k)
  kind := t.kind
  first := t.first.below k
  others := t.others.map (Placed.below k)

/-- The point in the script when `k` lines come before it. -/
def Point.below (k : Nat) (s : Point) : Point where
  previous := s.previous
  gap := s.gap.map (Piece.below k)
  ahead := s.ahead.map (Placed.below k)

@[simp] theorem Piece.placed_below (k : Nat) (x : Piece) :
    (x.below k).placed = x.placed.below k := by
  cases x <;> rfl

@[simp] theorem Placed.isTerminator_below (k : Nat) (c : Placed) :
    (c.below k).isTerminator = c.isTerminator := rfl

@[simp] theorem spelling_below (k : Nat) (cs : List Placed) :
    spelling (cs.map (Placed.below k)) = spelling cs := by
  simp [spelling, Function.comp_def]

@[simp] theorem hasBreak_below (k : Nat) (gap : List Piece) :
    hasBreak (gap.map (Piece.below k)) = hasBreak gap := by
  simp [hasBreak, Function.comp_def]

@[simp] theorem regexOpens_below (k : Nat) (previous : Option Char) (gap : List Piece) :
    regexOpens previous (gap.map (Piece.below k)) = regexOpens previous gap := by
  simp [regexOpens]

theorem forall_head?_below {cs : List Placed} (h : ∀ c ∈ cs.head?, c.char = '\n') :
    ∀ c ∈ (cs.map (Placed.below k)).head?, c.char = '\n' := by
  cases cs with
  | nil => exact h
  | cons d cs => simpa using h

/-- The goal is brought into the form of the rules, which then apply to what has been moved down. -/
theorem Point.passes_below {s s' : Point} {t : Option Token} (h : s.Passes t s') (k : Nat) :
    (s.below k).Passes (t.map (Token.below k)) (s'.below k) := by
  cases h <;> simp only [Point.below, Token.below, Piece.below, Option.map_none, Option.map_some,
    List.map_append, List.map_cons, List.map_nil]
  case blank c hc => exact .blank (c.below k) hc
  case lineComment comment hc hend =>
    exact .lineComment _ (by rwa [spelling_below]) (forall_head?_below hend)
  case blockComment comment hc => exact .blockComment _ (by rwa [spelling_below])
  case string quote body close hq hb hc =>
    exact .string (quote.below k) _ (close.below k) hq (by rwa [spelling_below]) hc
  case regex slash body close hs hr hn hb hc =>
    exact .regex (slash.below k) _ (close.below k) hs (by rwa [regexOpens_below])
      (by simpa using hn) (by rwa [spelling_below]) hc
  case single c hblank hquote hr hn =>
    exact .single (c.below k) hblank hquote (by rwa [regexOpens_below]) (by simpa using hn)

theorem Point.reads_below {s s' : Point} {ts : List Token} (h : s.Reads ts s') (k : Nat) :
    (s.below k).Reads (ts.map (Token.below k)) (s'.below k) := by
  induction h with
  | here s => exact .here _
  | @onward s s' s'' t ts h _ ih =>
    have hmap : (t.toList ++ ts).map (Token.below k) =
        (t.map (Token.below k)).toList ++ ts.map (Token.below k) := by
      cases t <;> rfl
    rw [hmap]
    exact .onward (passes_below h k) ih

theorem Point.unclosed_below {s : Point} {what : Unterminated} {opener : Placed}
    (h : s.Unclosed what opener) (k : Nat) : (s.below k).Unclosed what (opener.below k) := by
  cases h with
  | comment _ star body hs ht hb =>
    exact .comment (opener.below k) (star.below k) _ hs ht (by rwa [spelling_below])
  | string _ inside rest hq hb hend =>
    simp only [Point.below, List.map_append, List.map_cons]
    exact .string (opener.below k) _ _ hq (by rwa [spelling_below]) (forall_head?_below hend)
  | regex _ inside rest hs hr hn hb hend =>
    simp only [Point.below, List.map_append, List.map_cons]
    exact .regex (opener.below k) _ _ hs (by rwa [regexOpens_below]) (by simpa using hn)
      (by rwa [spelling_below]) (forall_head?_below hend)
  | regexClass _ before bracket inside rest hs hr hn hbefore hbracket hb hend =>
    simp only [Point.below, List.map_append, List.map_cons]
    exact .regexClass (opener.below k) _ (bracket.below k) _ _ hs (by rwa [regexOpens_below])
      (by simpa using hn) (by rwa [spelling_below]) hbracket (by rwa [spelling_below])
      (forall_head?_below hend)

end Below

/-! ## Before other text -/

section FollowedBy

variable {s s' : Point} {t : Option Token} {ts : List Token} {cs ds : List Placed}

/-- Whether a line ends where `cs` ends and `ds` begins. -/
def LineEndsBetween (cs ds : List Placed) : Prop :=
  (∀ d ∈ ds.head?, d.char = '\n') ∨ ∀ c ∈ cs.getLast?, c.char = '\n'

theorem LineEndsBetween.suffix {cs' : List Placed} (h : LineEndsBetween cs ds) (hs : cs' <:+ cs) :
    LineEndsBetween cs' ds := by
  obtain ⟨before, rfl⟩ := hs
  refine h.imp_right fun h c hc => h c ?_
  rw [Option.mem_def] at hc ⊢
  rw [List.getLast?_append, hc]
  rfl

/-- The point in the script when `ds` comes behind it. -/
def Point.followedBy (ds : List Placed) (s : Point) : Point := { s with ahead := s.ahead ++ ds }

theorem IsLineComment.newline_not_mem {cs : List Char} (h : IsLineComment cs) : '\n' ∉ cs := by
  obtain ⟨body, rfl, h⟩ := h
  simpa using h

/-- Whether a part of a script may be another one when text comes behind it: a line comment goes on, and
a slash may open a comment. -/
def IsOpenEnded (part : List Char) : Prop := IsLineComment part ∨ part = ['/']

/-- A line comment still ends where it did. -/
theorem head?_append_of_isLineComment {comment : List Placed}
    (hc : IsLineComment (spelling comment)) (hend : ∀ c ∈ cs.head?, c.char = '\n')
    (hcut : cs = [] → LineEndsBetween comment ds) : ∀ c ∈ (cs ++ ds).head?, c.char = '\n' := by
  rcases cs with _ | ⟨c, cs⟩
  · rcases hcut rfl with h | h
    · exact h
    · -- a comment has no line end in it
      have hne : comment ≠ [] := by
        rintro rfl
        obtain ⟨body, he, -⟩ := hc
        cases he
      have hlast := h _ (List.getLast?_eq_some_getLast hne)
      exact absurd (hlast ▸ List.mem_map_of_mem (List.getLast_mem hne)) hc.newline_not_mem
  · exact hend

/-- A slash still opens no comment. -/
theorem opensComment_cons_append {c : Placed} (hn : opensComment (spelling (c :: cs)) = false)
    (hcut : cs = [] → c.char = '/' → LineEndsBetween [c] ds) :
    opensComment (spelling (c :: (cs ++ ds))) = false := by
  rcases cs with _ | ⟨d, cs⟩
  · by_cases hc : c.char = '/'
    · rcases hcut rfl hc with h | h
      · rcases ds with _ | ⟨d, ds⟩
        · exact hn
        · have hd : d.char = '\n' := h d rfl
          simp [opensComment, hd]
      · have hnewline : c.char = '\n' := h c rfl
        simp [hc] at hnewline
    · exact opensComment_of_ne hc _
  · exact hn

/-- It matters what comes behind a part of the script only if nothing else does, and only for a line
comment and a slash. -/
theorem Point.Passes.followedBy_of (h : s.Passes t s')
    (hcut : s'.ahead = [] → IsOpenEnded (spelling s.ahead) → LineEndsBetween s.ahead ds) :
    (s.followedBy ds).Passes t (s'.followedBy ds) := by
  cases h with
  | blank c hc => exact .blank c hc
  | @lineComment _ _ cs comment hc hend =>
    have hcut' : cs = [] → LineEndsBetween comment ds := by
      rintro rfl
      rw [List.append_nil] at hcut
      exact hcut rfl (Or.inl hc)
    simp only [Point.followedBy, List.append_assoc]
    exact .lineComment comment hc (head?_append_of_isLineComment hc hend hcut')
  | blockComment comment hc =>
    simp only [Point.followedBy, List.append_assoc]
    exact .blockComment comment hc
  | string quote body close hq hb hc =>
    simp only [Point.followedBy, List.cons_append, List.append_assoc]
    exact .string quote body close hq hb hc
  | regex slash body close hs hr hn hb hc =>
    simp only [Point.followedBy, List.cons_append, List.append_assoc]
    exact .regex slash body close hs hr hn hb hc
  | @single _ _ cs c hblank hquote hr hn =>
    have hcut' : cs = [] → c.char = '/' → LineEndsBetween [c] ds := by
      rintro rfl hc
      exact hcut rfl (Or.inr (by simp [hc]))
    exact .single c hblank hquote hr (opensComment_cons_append hn hcut')

theorem Point.Passes.followedBy (h : s.Passes t s') (hcut : LineEndsBetween s.ahead ds) :
    (s.followedBy ds).Passes t (s'.followedBy ds) := h.followedBy_of fun _ _ => hcut

theorem Point.Reads.followedBy (h : s.Reads ts s') (hcut : LineEndsBetween s.ahead ds) :
    (s.followedBy ds).Reads ts (s'.followedBy ds) := by
  induction h with
  | here s => exact .here _
  | onward h _ ih => exact .onward (h.followedBy hcut) (ih (hcut.suffix h.suffix))

end FollowedBy

/-! ## After other tokens -/

section After

variable {s s' : Point} {t : Option Token} {ts : List Token} {what : Unterminated} {opener : Placed}
  {previous : Option Char} {gap : List Piece}

/-- The token when the blanks `gap` come before those that it has. -/
def Token.after (gap : List Piece) (t : Token) : Token := { t with gap := gap ++ t.gap }

/-- A point before the first token, when a token that ends in `previous` and the blanks `gap` come
before the script. -/
def Point.after (previous : Option Char) (gap : List Piece) (s : Point) : Point :=
  ⟨previous, gap ++ s.gap, s.ahead⟩

/-- What is before the script matters up to its first token. -/
theorem Point.Passes.after (h : s.Passes t s') (hs : s.previous = none)
    (hopen : ∀ gap, regexOpens previous gap = true) (gap : List Piece) :
    (t = none ∧ s'.previous = none ∧ (s.after previous gap).Passes none (s'.after previous gap)) ∨
      ∃ u, t = some u ∧ (s.after previous gap).Passes (some (u.after gap)) s' := by
  cases h with
  | blank c hc =>
    refine Or.inl ⟨rfl, hs, ?_⟩
    simp only [Point.after, ← List.append_assoc]
    exact .blank c hc
  | lineComment comment hc hend => exact Or.inl ⟨rfl, hs, .lineComment comment hc hend⟩
  | blockComment comment hc =>
    refine Or.inl ⟨rfl, hs, ?_⟩
    simp only [Point.after, ← List.append_assoc]
    exact .blockComment comment hc
  | string quote body close hq hb hc => exact Or.inr ⟨_, rfl, .string quote body close hq hb hc⟩
  | regex slash body close hslash _ hn hb hc =>
    exact Or.inr ⟨_, rfl, .regex slash body close hslash (hopen _) hn hb hc⟩
  | single c hblank hquote hr hn =>
    -- a slash would have opened a regular expression at the beginning of the script
    obtain rfl : _ = none := hs
    refine Or.inr ⟨_, rfl, .single c hblank hquote (fun hslash => ?_) hn⟩
    cases hr hslash

theorem Point.Unclosed.after (h : s.Unclosed what opener)
    (hopen : ∀ gap, regexOpens previous gap = true) (gap : List Piece) :
    (s.after previous gap).Unclosed what opener := by
  cases h with
  | comment slash star body hs ht hb => exact .comment _ star body hs ht hb
  | string quote inside rest hq hb hend => exact .string _ inside rest hq hb hend
  | regex slash inside rest hs _ hn hb hend =>
    exact .regex _ inside rest hs (hopen _) hn hb hend
  | regexClass slash before bracket inside rest hs _ hn hbefore hbracket hb hend =>
    exact .regexClass _ before bracket inside rest hs (hopen _) hn hbefore hbracket hb hend

theorem Point.Reads.after (h : s.Reads ts s') (hs : s.previous = none)
    (hopen : ∀ gap, regexOpens previous gap = true) (gap : List Piece) :
    ∃ s'', (s.after previous gap).Reads (ts.modifyHead (Token.after gap)) s'' ∧
      s''.ahead = s'.ahead ∧
      ∀ what opener, s'.Unclosed what opener → s''.Unclosed what opener := by
  induction h with
  | here s => exact ⟨_, .here _, rfl, fun what opener h => h.after hopen gap⟩
  | @onward s s' s'' t ts h hr ih =>
    rcases h.after hs hopen gap with ⟨rfl, hs', h'⟩ | ⟨u, rfl, h'⟩
    · obtain ⟨q, hq, hahead, hunclosed⟩ := ih hs'
      exact ⟨q, .onward h' hq, hahead, hunclosed⟩
    · exact ⟨s'', .onward h' hr, rfl, fun _ _ h => h⟩

end After

end Squeeze
