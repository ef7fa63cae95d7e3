import Mathlib.Data.List.Chain
import Squeeze.Script.Grammar

/-!
# Lexemes

The tokens of a script as someone sees them who reads it: without the blanks, and with the characters
of a word put together. Tokens keep a word apart character by character, and a space that is lost in
between would show in no token; in the lexemes it does.
-/

namespace Squeeze

/-- A word, a literal, or any other single character. -/
inductive Lexeme where
  /-- A string literal. -/
  | string (text : List Char)
  /-- A regular expression literal. -/
  | regex (text : List Char)
  /-- A run of word characters, as long as it goes. -/
  | word (text : List Char)
  /-- A character that is part of none of these. -/
  | mark (c : Char)
  deriving DecidableEq, Repr

/-- Puts the word character `c` in front; `joined` says whether it touches what comes after it. -/
def consWord (c : Char) (joined : Bool) : List Lexeme → List Lexeme
  | .word cs :: ls => if joined then .word (c :: cs) :: ls else .word [c] :: .word cs :: ls
  | ls => .word [c] :: ls

/-- The lexemes that some tokens make up. -/
def lexemes : List Token → List Lexeme
  | [] => []
  | t :: ts =>
    match t.kind with
    | .string => .string (spelling t.chars) :: lexemes ts
    | .regex => .regex (spelling t.chars) :: lexemes ts
    | .single =>
      if isWord t.first.char then
        consWord t.first.char (ts.head?.any fun u => u.gap.isEmpty) (lexemes ts)
      else .mark t.first.char :: lexemes ts

/-- The lexemes of a text that is canonical. -/
def lexemesOf (cs : List Char) : Except Broken (List Lexeme) :=
  (tokens (place .start cs)).map lexemes

/-- Whether a token is the character `c`, outside literals. -/
def Token.isOperator (t : Token) (c : Char) : Bool := t.kind = .single && t.first.char = c

theorem Token.isOperator_iff {t : Token} {c : Char} :
    t.isOperator c = true ↔ t.kind = .single ∧ t.first.char = c := by
  simp [isOperator]

/-- No slash outside literals has a slash or an asterisk as its next token. The two would open a
comment if the blanks between them were gone. -/
def SlashesApart (ts : List Token) : Prop :=
  ts.IsChain fun t u => t.isOperator '/' → ¬ u.isOperator '/' ∧ ¬ u.isOperator '*'

instance (ts : List Token) : Decidable (SlashesApart ts) :=
  inferInstanceAs (Decidable (ts.IsChain _))

/-- The same of the tokens of a text, if it has any. -/
def SlashesApartIn (text : String) : Prop :=
  ∀ ts, tokens (placedText text) = .ok ts → SlashesApart ts

theorem slashesApartIn_iff {text : String} {ts : List Token}
    (h : tokens (placedText text) = .ok ts) : SlashesApartIn text ↔ SlashesApart ts := by
  constructor
  · intro hs
    exact hs ts h
  · intro hs us hu
    rw [h] at hu
    cases hu
    exact hs

instance (text : String) : Decidable (SlashesApartIn text) :=
  match h : tokens (placedText text) with
  | .ok _ => decidable_of_iff _ (slashesApartIn_iff h).symm
  | .error _ => .isTrue fun ts ht => by rw [h] at ht; cases ht

/-! ## Words -/

/-- Lexemes begin with a word only where the tokens begin with a character of one. -/
theorem exists_of_lexemes_eq_word {ts : List Token} {cs : List Char} {ls : List Lexeme}
    (h : lexemes ts = .word cs :: ls) :
    ∃ t us, ts = t :: us ∧ t.kind = .single ∧ isWord t.first.char = true := by
  cases ts with
  | nil => cases h
  | cons t ts =>
    refine ⟨t, ts, rfl, ?_⟩
    rw [lexemes] at h
    cases hk : t.kind <;> rw [hk] at h <;> simp only at h
    · split at h
      · rename_i hw
        exact ⟨rfl, hw⟩
      · cases h
    · cases h
    · cases h

/-- It matters only in front of a word whether a word character touches what comes after it. -/
theorem consWord_congr {c : Char} {i j : Bool} {ls : List Lexeme}
    (h : ∀ cs ls', ls = .word cs :: ls' → i = j) : consWord c i ls = consWord c j ls := by
  rcases ls with _ | ⟨l, ls⟩
  · rfl
  · cases l with
    | word cs => rw [h cs ls rfl]
    | string | regex | mark => rfl

end Squeeze
