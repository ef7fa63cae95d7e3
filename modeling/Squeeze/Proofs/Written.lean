import Squeeze.Minify
import Squeeze.Proofs.Division
import Squeeze.Proofs.WindowRun

/-!
# What is written

An output that has begun takes every character it is given, so what a run writes can be read off the
characters that go to the output: the code is their text, and the mappings say of each one that was
read where it was read and where it stands now (`mappingsAlong`). A script begins with a token, and a
token begins with no blank, so the rule on blanks that come first never applies to a layout.

With that a short form is known as soon as the tokens are (`minify_eq_ok_iff`).
-/

namespace Squeeze

/-- The mappings of a run of characters, the first of which is written at `p`. -/
def mappingsAlong (p : Position) : List Placed → List Mapping
  | [] => []
  | c :: cs => c.origin.toList.map (⟨p, ·⟩) ++ mappingsAlong (p.advance c.char) cs

/-- An output with some more characters, each with its mapping if it was read. -/
def Output.append (o : Output) (cs : List Placed) : Output where
  code := o.code ++ String.ofList (spelling cs)
  mappings := o.mappings ++ (mappingsAlong o.position cs).toArray
  position := o.position.advanceAll (spelling cs)

/-- What is written after a first character is written whole. -/
theorem Output.emitAll_eq_append {o : Output} {cs : List Placed}
    (h : o.code.isEmpty = false ∨ ∀ c ∈ cs.head?, c.isBlank = false) :
    o.emitAll cs = o.append cs := by
  induction cs generalizing o with
  | nil => simp [append, mappingsAlong]
  | cons c cs ih =>
    have hw : o.code.isEmpty = false ∨ c.isBlank = false := h.imp_right fun h => h c rfl
    rw [emitAll_cons, ih (Or.inl (isEmpty_emit hw)), emit_eq hw]
    simp [append, mappingsAlong, String.ofList_cons, ← String.append_singleton,
      String.append_assoc]

/-- Blanks at the beginning are not written. -/
theorem Output.emitAll_dropWhile (cs : List Placed) :
    Output.empty.emitAll cs = Output.empty.emitAll (cs.dropWhile Placed.isBlank) := by
  induction cs with
  | nil => rfl
  | cons c cs ih =>
    by_cases hc : c.isBlank = true
    · rw [emitAll_cons, emit_eq_self rfl hc, ih, List.dropWhile_cons_of_pos hc]
    · rw [List.dropWhile_cons_of_neg hc]

/-- Everything else is. -/
theorem Output.emitAll_empty_eq_append (cs : List Placed) :
    Output.empty.emitAll cs = Output.empty.append (cs.dropWhile Placed.isBlank) := by
  have hhead : ∀ c ∈ (cs.dropWhile Placed.isBlank).head?, c.isBlank = false := by
    intro c hc
    have hdrop := List.head?_dropWhile_not Placed.isBlank cs
    rw [Option.mem_def] at hc
    simpa [hc] using hdrop
  rw [emitAll_dropWhile, emitAll_eq_append (Or.inr hhead)]

/-! ## The first token -/

/-- What the grammar says of a token: how it begins, and that a slash before it was rightly read. -/
theorem Divided.head {previous : Option Char} {gap : List Piece} {cs : List Placed} {t : Token}
    {ts : List Token} (h : Divided previous gap cs (t :: ts)) :
    t.first.isBlank = false ∧
      (t.kind = .string → t.first.char ≠ '/' ∧ t.first.char ≠ '*') ∧
      (t.kind = .regex → regexOpens previous t.gap = true) := by
  generalize he : t :: ts = us at h
  induction h with
  | done => cases he
  | blank _ _ _ ih => exact ih he
  | lineComment _ _ _ _ ih => exact ih he
  | blockComment _ _ _ ih => exact ih he
  | string quote body close hq =>
    cases he
    refine ⟨Placed.isBlank_of_quote hq, ?_, ?_⟩
    · intro _
      rcases hq with hq | hq <;> simp [hq]
    · intro hk
      cases hk
  | regex slash body close hs hr =>
    cases he
    refine ⟨?_, ?_, fun _ => hr⟩
    · simp [Placed.isBlank_eq_false_iff, hs]
    · intro hk
      cases hk
  | single c hblank =>
    cases he
    refine ⟨Placed.isBlank_eq_false_iff.mpr hblank, ?_, ?_⟩ <;> intro hk <;> cases hk

theorem Divided.head_layout {cs : List Placed} {ts : List Token} (h : Divided none [] cs ts) :
    ∀ c ∈ ((layout ts).map Piece.placed).head?, c.isBlank = false := by
  cases ts with
  | nil =>
    intro c hc
    cases hc
  | cons t ts =>
    intro c hc
    obtain rfl : t.first = c := by simpa [layout, layoutFrom, Token.chars] using hc
    exact h.head.1

/-! ## Short forms -/

/-- The short form of a script that consists of the given tokens. -/
def Minified.ofTokens (config : Config) (source : String) (ts : List Token) : Minified where
  code := String.ofList (spelling ((layout ts).map Piece.placed))
  mappings := mappingsAlong .start ((layout ts).map Piece.placed)
  source := source
  file := config.outputName
  sourceRoot := config.sourceRoot

@[simp] theorem Minified.toList_code_ofTokens (config : Config) (source : String)
    (ts : List Token) :
    (Minified.ofTokens config source ts).code.toList = spelling ((layout ts).map Piece.placed) :=
  String.toList_ofList

theorem finish_empty {cs : List Placed} {ts : List Token} (h : Divided none [] cs ts)
    (config : Config) (source : String) :
    (Output.empty.emitAll ((layout ts).map Piece.placed)).finish source config.outputName
      config.sourceRoot = Minified.ofTokens config source ts := by
  rw [Output.emitAll_eq_append (Or.inr h.head_layout)]
  simp [Output.finish, Output.append, Output.empty, Minified.ofTokens]

/-- There is a short form exactly if the script has a name and the grammar divides it into tokens,
and it is the one of these tokens. -/
theorem minify_eq_ok_iff {config : Config} {text : String} {m : Minified} :
    minify config text = .ok m ↔
      ∃ source ts, config.inputName = some source ∧ Divided none [] (placedText text) ts ∧
        m = .ofTokens config source ts := by
  unfold minify
  rcases config.inputName with _ | source
  · simp
  have hdiv : ∀ ts, tokens (placedText text) = .ok ts ↔ Divided none [] (placedText text) ts :=
    fun ts => tokensFrom_eq_ok_iff (isCanonical_placedText text)
  dsimp only
  rw [squeeze_eq]
  rcases ht : tokens (placedText text) with b | ts
  · constructor
    · intro h
      cases h
    · rintro ⟨_, ts, -, h, -⟩
      rw [← hdiv, ht] at h
      cases h
  · have h : Divided none [] (placedText text) ts := (hdiv ts).mp ht
    constructor
    · intro hm
      refine ⟨source, ts, rfl, h, ?_⟩
      rw [← finish_empty h]
      exact (Except.ok.inj hm).symm
    · rintro ⟨_, us, hsource, hu, rfl⟩
      cases hsource
      rw [← hdiv, ht] at hu
      cases hu
      rw [← finish_empty h]
      rfl

/-- The window writes what the grammar says. Whatever else is known about the files, a script with a
name has a short form exactly if it can be divided into tokens, and the code is then the tokens in
their order with nothing between two of them but what `Token.separator` keeps. -/
theorem code_eq_iff_divided (config : Config) (source text code : String) :
    (∃ m, minify { config with inputName := some source } text = .ok m ∧ m.code = code) ↔
      ∃ ts, Divided none [] (placedText text) ts ∧
        code.toList = spelling ((layout ts).map Piece.placed) := by
  constructor
  · rintro ⟨m, hm, rfl⟩
    obtain ⟨_, ts, -, h, rfl⟩ := minify_eq_ok_iff.mp hm
    exact ⟨ts, h, Minified.toList_code_ofTokens ..⟩
  · rintro ⟨ts, h, hcode⟩
    refine ⟨_, minify_eq_ok_iff.mpr ⟨source, ts, rfl, h, rfl⟩, ?_⟩
    rw [← String.toList_inj, hcode, Minified.toList_code_ofTokens]

end Squeeze
