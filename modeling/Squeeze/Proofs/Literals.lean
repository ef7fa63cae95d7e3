import Squeeze.Script.Grammar

/-!
# Literals end where the grammar has their end

`scan` passes over a literal one or two characters at a time and keeps in mind the kind of body it is
in. `Body.Fits` says of each kind which texts may still come before the end, and it changes from one
character to the next as `Body.role` says, so a scan ends with the closing character exactly where
the grammar has a literal end.
-/

namespace Squeeze

theorem Enclosed.cons_iff {close c : Char} {cs : List Char} :
    Enclosed close (c :: cs) ↔
      (c ≠ close ∧ c ≠ '\\' ∧ c ≠ '\n' ∧ Enclosed close cs) ∨
        (c = '\\' ∧ ∃ d ds, cs = d :: ds ∧ d ≠ '\n' ∧ Enclosed close ds) := by
  constructor
  · intro h
    cases h with
    | plain h1 h2 h3 h => exact Or.inl ⟨h1, h2, h3, h⟩
    | escaped h1 h => exact Or.inr ⟨rfl, _, _, rfl, h1, h⟩
  · rintro (⟨h1, h2, h3, h⟩ | ⟨rfl, d, ds, rfl, h1, h⟩)
    · exact .plain h1 h2 h3 h
    · exact .escaped h1 h

namespace Body

/-- The character that closes a literal of which this is the inside. -/
def closer : Body → Char
  | .string quote => quote
  | .regex | .regexClass => '/'

/-- The rest of the inside of a literal, when a part of it has been passed over. -/
def Fits : Body → List Char → Prop
  | .string quote, cs => Enclosed quote cs
  | .regex, cs => RegexBody cs
  | .regexClass, cs =>
    ∃ inside body, cs = inside ++ ']' :: body ∧ Enclosed ']' inside ∧ RegexBody body

/-- Whether a literal can be closed at all: what closes it has no meaning that comes before. -/
def Closable (b : Body) : Prop := b.closer ≠ '\\' ∧ b.closer ≠ '\n'

theorem closable_regex : Closable .regex := by simp [Closable, closer]

theorem closable_string {quote : Char} (h : isQuote quote) : Closable (.string quote) := by
  have h : quote = '\'' ∨ quote = '"' := by simpa [isQuote] using h
  rcases h with rfl | rfl <;> simp [Closable, closer]

theorem not_fits_newline (b : Body) (cs : List Char) : ¬ b.Fits ('\n' :: cs) := by
  intro h
  cases b with
  | string quote => simp [Fits, Enclosed.cons_iff] at h
  | regex =>
    cases h with
    | plain _ _ _ h => exact h rfl
  | regexClass =>
    obtain ⟨inside, body, he, hi, -⟩ := h
    rcases inside with _ | ⟨c, inside⟩
    · simp at he
    · obtain ⟨rfl, -⟩ : '\n' = c ∧ _ := by simpa using he
      simp [Enclosed.cons_iff] at hi

theorem closer_of_plain {b next : Body} {c : Char} (h : b.role c = .plain next) :
    next.closer = b.closer := by
  cases b <;> grind [role, closer]

theorem char_of_closing {b : Body} {c : Char} (h : b.role c = .closing) : c = b.closer := by
  cases b <;> grind [role, closer]

theorem char_of_escape {b : Body} {c : Char} (h : b.role c = .escape) : c = '\\' := by
  cases b <;> grind [role]

theorem role_closer {b : Body} (h : b ≠ .regexClass) : b.role b.closer = .closing := by
  cases b <;> simp_all [role, closer]

theorem not_fits_of_closing {b : Body} (hb : b.Closable) {c : Char} (h : b.role c = .closing)
    (cs : List Char) : ¬ b.Fits (c :: cs) := by
  intro hf
  have hc := char_of_closing h
  cases b with
  | string quote =>
    rcases Enclosed.cons_iff.mp hf with ⟨h1, -⟩ | ⟨h1, -⟩
    · exact h1 hc
    · exact hb.1 (hc ▸ h1)
  | regex =>
    subst hc
    cases hf with
    | plain h _ _ _ => exact h rfl
  | regexClass => grind [role]

theorem fits_nil_iff {b : Body} : b.Fits [] ↔ b ≠ .regexClass := by
  cases b with
  | string quote => simp [Fits, Enclosed.nil]
  | regex => simp [Fits, RegexBody.nil]
  | regexClass => simp [Fits]

theorem fits_of_plain {b next : Body} {c : Char} (h : b.role c = .plain next) (hc : c ≠ '\n')
    (cs : List Char) : b.Fits (c :: cs) ↔ next.Fits cs := by
  cases b with
  | string quote =>
    obtain ⟨h1, h2, rfl⟩ : c ≠ quote ∧ c ≠ '\\' ∧ next = .string quote := by grind [role]
    simp [Fits, Enclosed.cons_iff, h1, h2, hc]
  | regex =>
    by_cases hclass : c = '['
    · subst hclass
      obtain rfl : next = .regexClass := by grind [role]
      constructor
      · intro hf
        cases hf with
        | plain _ h _ _ => exact absurd rfl h
        | characterClass hin h => exact ⟨_, _, rfl, hin, h⟩
      · rintro ⟨inside, body, rfl, hin, h⟩
        exact .characterClass hin h
    · obtain ⟨h1, h2, rfl⟩ : c ≠ '/' ∧ c ≠ '\\' ∧ next = .regex := by grind [role]
      constructor
      · intro hf
        cases hf with
        | plain _ _ _ _ h => exact h
        | escaped => exact absurd rfl h2
        | characterClass => exact absurd rfl hclass
      · exact .plain h1 hclass h2 hc
  | regexClass =>
    by_cases hclose : c = ']'
    · subst hclose
      obtain rfl : next = .regex := by grind [role]
      constructor
      · rintro ⟨inside, body, he, hin, h⟩
        rcases inside with _ | ⟨d, inside⟩
        · obtain rfl : cs = body := by simpa using he
          exact h
        · obtain ⟨rfl, -⟩ : ']' = d ∧ cs = inside ++ ']' :: body := by simpa using he
          simp [Enclosed.cons_iff] at hin
      · intro h
        exact ⟨[], cs, rfl, .nil, h⟩
    · obtain ⟨h2, rfl⟩ : c ≠ '\\' ∧ next = .regexClass := by grind [role]
      constructor
      · rintro ⟨inside, body, he, hin, h⟩
        rcases inside with _ | ⟨d, inside⟩
        · exact absurd (by simpa using congrArg List.head? he) hclose
        · obtain ⟨rfl, rfl⟩ : c = d ∧ cs = inside ++ ']' :: body := by simpa using he
          simp only [Enclosed.cons_iff, h2, false_and, or_false] at hin
          exact ⟨inside, body, rfl, hin.2.2.2, h⟩
      · rintro ⟨inside, body, rfl, hin, h⟩
        exact ⟨c :: inside, body, rfl, .plain hclose h2 hc hin, h⟩

theorem fits_of_escape {b : Body} (hb : b.Closable) {c : Char} (h : b.role c = .escape)
    (cs : List Char) : b.Fits (c :: cs) ↔ ∃ d ds, cs = d :: ds ∧ d ≠ '\n' ∧ b.Fits ds := by
  obtain rfl := char_of_escape h
  cases b with
  | string quote => simp [Fits, Enclosed.cons_iff]
  | regex =>
    constructor
    · intro hf
      cases hf with
      | plain _ _ h _ => exact absurd rfl h
      | escaped hd h => exact ⟨_, _, rfl, hd, h⟩
    · rintro ⟨d, ds, rfl, hd, h⟩
      exact .escaped hd h
  | regexClass =>
    constructor
    · rintro ⟨inside, body, he, hin, h⟩
      rcases inside with _ | ⟨c, inside⟩
      · simp at he
      · obtain ⟨rfl, rfl⟩ : '\\' = c ∧ cs = inside ++ ']' :: body := by simpa using he
        simp only [Enclosed.cons_iff, ne_eq, not_true, false_and, and_false, true_and,
          false_or] at hin
        obtain ⟨d, ds, rfl, hd, hin⟩ := hin
        exact ⟨d, ds ++ ']' :: body, rfl, hd, ds, body, rfl, hin, h⟩
    · rintro ⟨d, ds, rfl, hd, inside, body, rfl, hin, h⟩
      exact ⟨'\\' :: d :: inside, body, rfl, .escaped hd hin, h⟩
end Body

/-- A character that does not close a literal is inside it. -/
theorem inside_of_not_closing {b : Body} {c d : Placed} {cs copied rest : List Placed}
    (hr : b.role c.char ≠ .closing) (he : c :: cs = copied ++ d :: rest)
    (hf : b.Fits (spelling copied)) (hd : d.char = b.closer) :
    ∃ inside, copied = c :: inside ∧ cs = inside ++ d :: rest := by
  rcases copied with _ | ⟨c', inside⟩
  · cases he
    rw [spelling_nil, Body.fits_nil_iff] at hf
    exact absurd (hd ▸ Body.role_closer hf) hr
  · cases he
    exact ⟨inside, rfl, rfl⟩

/-- A scan ends with the closing character exactly where the grammar has a literal end. -/
theorem scan_eq_closed_iff {b : Body} {cs copied rest : List Placed} {d : Placed} (hb : b.Closable)
    (hcan : ∀ c ∈ cs, c.isTerminator → c.char = '\n') :
    scan b cs = ⟨copied, .closed d, rest⟩ ↔
      cs = copied ++ d :: rest ∧ b.Fits (spelling copied) ∧ d.char = b.closer := by
  fun_induction scan b cs generalizing copied with
  | case1 => simp
  | case2 b c cs hc =>
    have hc : c.char = '\n' := hcan c (List.mem_cons_self ..) hc
    simp only [Scan.mk.injEq, reduceCtorEq, false_and, and_false, false_iff]
    rintro ⟨he, hf, hd⟩
    rcases copied with _ | ⟨c', copied⟩
    · obtain rfl : c = d := by simpa using congrArg List.head? he
      exact hb.2 (hd ▸ hc)
    · obtain rfl : c = c' := by simpa using congrArg List.head? he
      rw [spelling_cons, hc] at hf
      exact b.not_fits_newline _ hf
  | case3 b c cs hc hr =>
    have hclose := Body.char_of_closing hr
    constructor
    · intro h
      cases h
      refine ⟨rfl, ?_, hclose⟩
      rw [spelling_nil, Body.fits_nil_iff]
      rintro rfl
      grind [Body.role]
    · rintro ⟨he, hf, hd⟩
      rcases copied with _ | ⟨c', copied⟩
      · cases he
        rfl
      · cases he
        exact absurd hf (Body.not_fits_of_closing hb hr _)
  | case4 b c cs hc next hr ih =>
    have hnl : c.char ≠ '\n' := fun h => hc (by simp [Placed.isTerminator, h])
    have hcl : next.closer = b.closer := Body.closer_of_plain hr
    have ih := @ih
    rw [Body.Closable, hcl] at ih
    rw [Scan.copying_eq_iff]
    constructor
    · rintro ⟨inside, rfl, h⟩
      obtain ⟨rfl, hf, hd⟩ := (ih hb fun x hx => hcan x (List.mem_cons_of_mem _ hx)).mp h
      exact ⟨rfl, (Body.fits_of_plain hr hnl _).mpr hf, hd⟩
    · rintro ⟨he, hf, hd⟩
      obtain ⟨inside, rfl, hcs⟩ := inside_of_not_closing (by simp [hr]) he hf hd
      have hf := (Body.fits_of_plain hr hnl _).mp hf
      exact ⟨inside, rfl, (ih hb fun x hx => hcan x (List.mem_cons_of_mem _ hx)).mpr ⟨hcs, hf, hd⟩⟩
  | case5 b c hc hr =>
    simp only [Scan.mk.injEq, reduceCtorEq, false_and, and_false, false_iff]
    rintro ⟨he, hf, hd⟩
    obtain ⟨inside, rfl, he⟩ := inside_of_not_closing (by simp [hr]) he hf hd
    simp at he
  | case6 b c hc hr e cs he =>
    have he : e.char = '\n' := hcan e (by simp) he
    simp only [Scan.mk.injEq, reduceCtorEq, false_and, and_false, false_iff]
    rintro ⟨heq, hf, hd⟩
    obtain ⟨inside, rfl, heq⟩ := inside_of_not_closing (by simp [hr]) heq hf hd
    obtain ⟨e', ds, hin, hne, -⟩ := (Body.fits_of_escape hb hr _).mp hf
    rcases inside with _ | ⟨e'', inside⟩
    · simp at hin
    · cases heq
      cases hin
      exact hne he
  | case7 b c hc hr e cs he ih =>
    have he : e.char ≠ '\n' := fun h => he (by simp [Placed.isTerminator, h])
    have hcan : ∀ x ∈ cs, x.isTerminator → x.char = '\n' := fun x hx =>
      hcan x (List.mem_cons_of_mem _ (List.mem_cons_of_mem _ hx))
    rw [Scan.copying_eq_iff]
    constructor
    · rintro ⟨inside, rfl, h⟩
      obtain ⟨rfl, hf, hd⟩ := (ih hb hcan).mp h
      exact ⟨rfl, (Body.fits_of_escape hb hr _).mpr ⟨_, _, rfl, he, hf⟩, hd⟩
    · rintro ⟨heq, hf, hd⟩
      obtain ⟨inside, rfl, heq⟩ := inside_of_not_closing (by simp [hr]) heq hf hd
      obtain ⟨e', ds, hin, -, hf⟩ := (Body.fits_of_escape hb hr _).mp hf
      rcases inside with _ | ⟨e'', inside⟩
      · simp at hin
      · cases heq
        cases hin
        exact ⟨inside, rfl, (ih hb hcan).mpr ⟨rfl, hf, hd⟩⟩

end Squeeze
