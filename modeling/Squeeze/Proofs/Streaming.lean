import Squeeze.Proofs.Joining
import Squeeze.Script.Lexeme

/-!
# What is written for the beginning of a script

A script may come in pieces. As soon as a token is complete, what is written for it is settled: more text
behind it can only make the output longer. One character is not complete by itself. An operator slash
at the very end may still turn out to be the beginning of a comment.

The script may break off anywhere else, in the middle of a line end, of a gap or of a line comment. It is
then read as before, up to a point where all its tokens have been passed (`Point.Reads.exists_followedBy`).
-/

namespace Squeeze

/-- Whether the last character of a text is a slash outside literals and comments. -/
def EndsInSlash (text : String) : Prop :=
  ∃ ts, tokens (placedText text) = .ok ts ∧
    ∃ t ∈ ts.getLast?, t.isOperator '/' ∧ (placedText text).getLast? = some t.first

instance (text : String) : Decidable (EndsInSlash text) :=
  match h : tokens (placedText text) with
  | .ok ts => decidable_of_iff
    (∃ t ∈ ts.getLast?, t.isOperator '/' ∧ (placedText text).getLast? = some t.first)
    ⟨fun hs => ⟨ts, h, hs⟩, fun ⟨us, hus, hs⟩ => by rw [h] at hus; cases hus; exact hs⟩
  | .error _ => .isFalse fun ⟨ts, hts, _⟩ => by rw [h] at hts; cases hts

namespace Point

variable {s s' : Point} {t : Option Token} {ts us : List Token} {ds : List Placed}

/-- Of the parts that may be others when text comes behind them, only a slash is a token. -/
theorem Passes.of_isOpenEnded (h : s.Passes t s') (ho : IsOpenEnded (spelling s.ahead)) :
    ∀ u ∈ t, u.isOperator '/' ∧ s.ahead = [u.first] := by
  rintro u rfl
  have hn := h.opensComment_eq_false
  rcases ho with ⟨body, hline, -⟩ | hslash
  · rw [hline] at hn
    cases hn
  · have hlen : s.ahead.length = 1 := by simpa [spelling] using congrArg List.length hslash
    cases h with
    | string | regex => simp at hlen
    | @single _ _ cs c =>
      obtain rfl : cs = [] := List.length_eq_zero_iff.mp (Nat.succ.inj hlen)
      have hc : c.char = '/' := by simpa using hslash
      exact ⟨by simp [Token.isOperator, hc], rfl⟩

/-- A part is passed again when text comes behind the script, or it is a line comment that goes on there;
then there is nothing to read yet. -/
theorem Passes.exists_followedBy (h : s.Passes t s')
    (hslash : ∀ u ∈ t, u.isOperator '/' → s.ahead.getLast? ≠ some u.first) :
    ∃ q, (s.followedBy ds).Reads t.toList q := by
  by_cases ho : IsOpenEnded (spelling s.ahead)
  · rcases t with _ | u
    · exact ⟨_, .here _⟩
    · obtain ⟨hop, he⟩ := h.of_isOpenEnded ho u rfl
      exact absurd (by rw [he]; rfl) (hslash u rfl hop)
  · have h' : (s.followedBy ds).Passes t (s'.followedBy ds) :=
      h.followedBy_of fun _ ho' => absurd ho' ho
    have hreads := Reads.onward h' (.here _)
    rw [List.append_nil] at hreads
    exact ⟨_, hreads⟩

/-- The tokens of a script are read again when text comes behind it, unless an operator slash stands at
its end. -/
theorem Reads.exists_followedBy (h : s.Reads ts s') (hend : s'.ahead = [])
    (hslash : ∀ u ∈ ts.getLast?, u.isOperator '/' → s.ahead.getLast? ≠ some u.first) :
    ∃ q, (s.followedBy ds).Reads ts q := by
  induction h with
  | here s => exact ⟨_, .here _⟩
  | @onward s s₁ s' t ts h hr ih =>
    by_cases hne : s₁.ahead = []
    · -- the part is the last one, and nothing is read behind it
      have hts : ts = [] := by
        cases hr with
        | here => rfl
        | onward h' _ => exact absurd hne h'.ahead_ne_nil
      subst hts
      rw [List.append_nil] at hslash ⊢
      refine h.exists_followedBy fun u hu => hslash u ?_
      rw [Option.mem_def] at hu
      rw [hu]
      rfl
    · have hlast : s.ahead.getLast? = s₁.ahead.getLast? := by
        obtain ⟨part, -, he⟩ := h.exists_append
        rw [he, List.getLast?_append, List.getLast?_eq_some_getLast hne]
        rfl
      obtain ⟨q, hq⟩ := ih hend fun u hu => by
        rw [← hlast]
        apply hslash u
        rw [Option.mem_def] at hu ⊢
        rw [List.getLast?_append, hu]
        rfl
      exact ⟨q, .onward (h.followedBy_of fun he _ => absurd he hne) hq⟩

end Point

/-- A division of a script goes on with the tokens that are read first. -/
theorem Divided.prefix_of_reads {s s' : Point} {ts us : List Token} (hcan : IsCanonical s.ahead)
    (hr : s.Reads ts s') (h : Divided s.previous s.gap s.ahead us) : ts <+: us := by
  have htokens : s.tokens = .ok us := h.tokensFrom_eq hcan
  rw [hr.tokens_eq hcan] at htokens
  rcases hs' : s'.tokens with b | vs <;> rw [hs'] at htokens <;> cases htokens
  exact List.prefix_append ..

theorem Divided.prefix_append {x y : String} {ts us : List Token}
    (hx : Divided none [] (placedText x) ts) (hxy : Divided none [] (placedText (x ++ y)) us)
    (hslash : ¬ EndsInSlash x) : ts <+: us := by
  obtain ⟨s, hr, hend⟩ := hx.readsAll
  obtain ⟨ds, hds⟩ := placedText_prefix x y
  have hlast : ∀ t ∈ ts.getLast?, t.isOperator '/' → (placedText x).getLast? ≠ some t.first := by
    intro t ht hop he
    exact hslash ⟨ts, hx.tokensFrom_eq (isCanonical_placedText x), t, ht, hop, he⟩
  obtain ⟨q, hq⟩ : ∃ q, (Point.start (placedText x ++ ds)).Reads ts q :=
    hr.exists_followedBy hend hlast
  rw [← hds] at hxy
  have hcan : IsCanonical (placedText x ++ ds) := hds ▸ isCanonical_placedText (x ++ y)
  exact hxy.prefix_of_reads hcan hq

theorem Minified.ofTokens_prefix (config : Config) (source : String) {ts us : List Token}
    (h : ts <+: us) :
    (Minified.ofTokens config source ts).code.toList <+:
        (Minified.ofTokens config source us).code.toList ∧
      (Minified.ofTokens config source ts).mappings <+:
        (Minified.ofTokens config source us).mappings := by
  obtain ⟨vs, rfl⟩ := h
  have hlayout : (layout (ts ++ vs)).map Piece.placed = (layout ts).map Piece.placed ++
      (layoutFrom (lastChar none ts) vs).map Piece.placed := by
    rw [layout, layoutFrom_append, List.map_append]
    rfl
  constructor
  · rw [toList_code_ofTokens, toList_code_ofTokens, hlayout, spelling_append]
    exact List.prefix_append ..
  · show mappingsAlong _ _ <+: mappingsAlong _ _
    rw [hlayout, mappingsAlong_append]
    exact List.prefix_append ..

/-- Text that comes behind a script does not change what is written for the script, if both can be made
short and the script does not end in an operator slash. -/
theorem prefix_of_minify_append {config : Config} {x y : String} {m n : Minified}
    (hx : minify config x = .ok m) (hxy : minify config (x ++ y) = .ok n)
    (hslash : ¬ EndsInSlash x) : m.code.toList <+: n.code.toList ∧ m.mappings <+: n.mappings := by
  obtain ⟨source, ts, hname, hdiv, rfl⟩ := minify_eq_ok_iff.mp hx
  obtain ⟨source', us, hname', hdiv', rfl⟩ := minify_eq_ok_iff.mp hxy
  obtain rfl : source = source' := Option.some.inj (hname.symm.trans hname')
  exact Minified.ofTokens_prefix config source (hdiv.prefix_append hdiv' hslash)

/-- The script breaks off in a line comment, behind a slash that is part of it, and the comment goes on
up to the end of the line. -/
theorem prefix_of_minify_comment :
    ∃ m n, minify ⟨some "a.js", none, none⟩ "a = /b/ // c/" = .ok m ∧
      minify ⟨some "a.js", none, none⟩ ("a = /b/ // c/" ++ "/d\r\n.e") = .ok n ∧
      m.code = "a=/b/" ∧ n.code = "a=/b/.e" ∧
      m.code.toList <+: n.code.toList ∧ m.mappings <+: n.mappings := by
  have hx : (minify ⟨some "a.js", none, none⟩ "a = /b/ // c/").toOption.map Minified.code =
      some "a=/b/" := by decide +kernel
  have hxy : (minify ⟨some "a.js", none, none⟩ ("a = /b/ // c/" ++ "/d\r\n.e")).toOption.map
      Minified.code = some "a=/b/.e" := by decide +kernel
  have hslash : ¬ EndsInSlash "a = /b/ // c/" := by decide +kernel
  obtain ⟨m, hm, hcode⟩ := exists_of_toOption_eq_some hx
  obtain ⟨n, hn, hcode'⟩ := exists_of_toOption_eq_some hxy
  exact ⟨m, n, hm, hn, hcode, hcode', prefix_of_minify_append hm hn hslash⟩

/-- An operator slash at the end is taken back when another one comes behind it. -/
example : EndsInSlash "a /" ∧
    (minify ⟨some "a.js", none, none⟩ "a /").toOption.map Minified.code = some "a/" ∧
    (minify ⟨some "a.js", none, none⟩ ("a /" ++ "/b")).toOption.map Minified.code = some "a" := by
  decide +kernel

end Squeeze
