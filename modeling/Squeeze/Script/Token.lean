import Squeeze.Script.Comment
import Squeeze.Script.Literal
import Squeeze.Script.Spacing

/-!
# Tokens

A script divided into tokens: string literals, regular expression literals and single characters,
each with the blanks in front of it. A block comment is one of those blanks, a line comment is none.
The tokens are what has to survive when a script is made short, and the blanks are what may go.

A slash is read as a division or as the opening of a regular expression, depending on what comes
before it (`regexOpens`). That is the only place where one token depends on another.

This view is not used to make a script short. It says what the short form is, all at once, where
`Squeeze.Window` finds it character by character.
-/

namespace Squeeze

/-- What a token is: a single character outside literals, or a literal. -/
inductive TokenKind where
  | single
  | string
  | regex
  deriving DecidableEq, Repr

/-- A token of a script. -/
structure Token where
  /-- The blanks between the token before it and this one. -/
  gap : List Piece
  /-- What it is. -/
  kind : TokenKind
  /-- Its first character. -/
  first : Placed
  /-- Its other characters; for a literal the last of them is the one that closes it. -/
  others : List Placed
  deriving DecidableEq, Repr

/-- The characters of a token. -/
def Token.chars (t : Token) : List Placed := t.first :: t.others

/-- The last character of a token. -/
def Token.last (t : Token) : Placed := t.others.getLastD t.first

/-- Whether blanks contain a line end. -/
def hasBreak (gap : List Piece) : Bool := gap.any fun x => x.placed.isTerminator

theorem hasBreak_append (gap : List Piece) (x : Piece) :
    hasBreak (gap ++ [x]) = (hasBreak gap || x.placed.isTerminator) := by
  simp [hasBreak]

/-- Whether an operand has to come after a character, so that a slash has nothing to divide. A line
feed is not among them, as no token ends in one. -/
def awaitsOperand (c : Char) : Bool :=
  ['(', ',', '=', ':', '[', '!', '&', '|', '?', '{', '}', ';'].contains c

theorem opensRegexAfter_eq {c : Char} (hc : c ≠ '\n') : opensRegexAfter c = awaitsOperand c := by
  simp [opensRegexAfter, awaitsOperand, hc, Bool.or_assoc]

/-- A word is an operand itself. -/
theorem awaitsOperand_of_isWord {c : Char} (h : isWord c = true) : awaitsOperand c = false := by
  have hall : (['(', ',', '=', ':', '[', '!', '&', '|', '?', '{', '}', ';'].all
      fun d => !isWord d) = true := by decide
  rw [Bool.eq_false_iff]
  intro hc
  have hno := List.all_eq_true.mp hall c (List.contains_iff_mem.mp hc)
  rw [h] at hno
  cases hno

/-- Whether a slash opens a regular expression that comes after a token ending in `previous`, if
there is one, and the blanks `gap`. -/
def regexOpens (previous : Option Char) (gap : List Piece) : Bool :=
  match previous with
  | none => true
  | some p => awaitsOperand p || (hasBreak gap && endsStatement p)

/-- The literal that the character `c` opens, if it opens one. -/
def opensLiteral (previous : Option Char) (gap : List Piece) (c : Char) :
    Option (TokenKind × Body) :=
  if isQuote c then some (.string, .string c)
  else if c = '/' ∧ regexOpens previous gap then some (.regex, .regex)
  else none

/-- Why a script cannot be divided into tokens: what was left open, and the character that should
not have come, if it was not the end of the script. -/
abbrev Broken := Unterminated × Option Placed

/-- The tokens of a script from some point on. Before it stands a token ending in `previous`, if there
is one, and the blanks `gap`. -/
def tokensFrom (previous : Option Char) (gap : List Piece) (cs : List Placed) :
    Except Broken (List Token) :=
  match _hf : front cs with
  | .ended => .ok []
  | .openComment => .error (.comment, none)
  | .piece x rest =>
    if x.placed.isBlank then tokensFrom previous (gap ++ [x]) rest
    else
      match opensLiteral previous gap x.placed.char with
      | none => (tokensFrom (some x.placed.char) [] rest).map (⟨gap, .single, x.placed, []⟩ :: ·)
      | some (kind, body) =>
        match (scan body rest).ending with
        | .broken what d => .error (what, d)
        | .closed d =>
          (tokensFrom (some d.char) [] (scan body rest).rest).map
            (⟨gap, kind, x.placed, (scan body rest).copied ++ [d]⟩ :: ·)
termination_by cs.length
decreasing_by
  · exact length_front _hf
  · exact length_front _hf
  · exact Nat.lt_of_le_of_lt (length_rest_scan body rest) (length_front _hf)

/-- The tokens of a script. -/
def tokens (cs : List Placed) : Except Broken (List Token) := tokensFrom none [] cs

/-! ## What stands at the front decides -/

section Front

variable {previous : Option Char} {gap : List Piece} {cs rest : List Placed} {x : Piece}

theorem tokensFrom_ended (h : front cs = .ended) : tokensFrom previous gap cs = .ok [] := by
  rw [tokensFrom]
  split <;> rename_i hf <;> rw [h] at hf <;> cases hf

theorem tokensFrom_openComment (h : front cs = .openComment) :
    tokensFrom previous gap cs = .error (.comment, none) := by
  rw [tokensFrom]
  split <;> rename_i hf <;> rw [h] at hf <;> cases hf

theorem tokensFrom_blank (h : front cs = .piece x rest) (hx : x.placed.isBlank = true) :
    tokensFrom previous gap cs = tokensFrom previous (gap ++ [x]) rest := by
  rw [tokensFrom]
  split <;> rename_i hf <;> rw [h] at hf <;> cases hf
  rw [if_pos hx]

theorem tokensFrom_single (h : front cs = .piece x rest) (hx : x.placed.isBlank = false)
    (hl : opensLiteral previous gap x.placed.char = none) :
    tokensFrom previous gap cs =
      (tokensFrom (some x.placed.char) [] rest).map (⟨gap, .single, x.placed, []⟩ :: ·) := by
  rw [tokensFrom]
  split <;> rename_i hf <;> rw [h] at hf <;> cases hf
  simp only [hx, hl, Bool.false_eq_true, if_false]

variable {copied after : List Placed} {kind : TokenKind} {body : Body}

theorem tokensFrom_closed {d : Placed} (h : front cs = .piece x rest)
    (hx : x.placed.isBlank = false) (hl : opensLiteral previous gap x.placed.char = some (kind, body))
    (hs : scan body rest = ⟨copied, .closed d, after⟩) :
    tokensFrom previous gap cs =
      (tokensFrom (some d.char) [] after).map (⟨gap, kind, x.placed, copied ++ [d]⟩ :: ·) := by
  rw [tokensFrom]
  split <;> rename_i hf <;> rw [h] at hf <;> cases hf
  simp only [hx, hl, hs, Bool.false_eq_true, if_false]

theorem tokensFrom_broken {what : Unterminated} {d : Option Placed} (h : front cs = .piece x rest)
    (hx : x.placed.isBlank = false)
    (hl : opensLiteral previous gap x.placed.char = some (kind, body))
    (hs : scan body rest = ⟨copied, .broken what d, after⟩) :
    tokensFrom previous gap cs = .error (what, d) := by
  rw [tokensFrom]
  split <;> rename_i hf <;> rw [h] at hf <;> cases hf
  simp only [hx, hl, hs, Bool.false_eq_true, if_false]

/-- The tokens depend on a stream only through what stands at its front. -/
theorem tokensFrom_congr {ds : List Placed} (h : front cs = front ds) :
    tokensFrom previous gap cs = tokensFrom previous gap ds := by
  rcases hf : front ds with _ | ⟨x, rest⟩ | _ <;> rw [hf] at h
  · rw [tokensFrom_ended h, tokensFrom_ended hf]
  · by_cases hx : x.placed.isBlank = true
    · rw [tokensFrom_blank h hx, tokensFrom_blank hf hx]
    rw [Bool.not_eq_true] at hx
    rcases hl : opensLiteral previous gap x.placed.char with _ | ⟨kind, body⟩
    · rw [tokensFrom_single h hx hl, tokensFrom_single hf hx hl]
    rcases hs : scan body rest with ⟨copied, d | ⟨what, d⟩, after⟩
    · rw [tokensFrom_closed h hx hl hs, tokensFrom_closed hf hx hl hs]
    · rw [tokensFrom_broken h hx hl hs, tokensFrom_broken hf hx hl hs]
  · rw [tokensFrom_openComment h, tokensFrom_openComment hf]

end Front

end Squeeze
