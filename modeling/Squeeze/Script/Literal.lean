import Squeeze.Script.Unterminated

/-!
# Scanning literals

The body of a string or a regular expression is passed over character by character and copied as it
is. Inside it a character closes it, or escapes the next one, or is plain; which of these it is
depends on the kind of body one is in (`Body.role`), and a plain character may lead into another
kind: a bracket opens a character class, in which a slash closes nothing, and a bracket ends it.

No line end may come before the closing character, not even an escaped one. `scan` is one recursion
over the characters ahead; it says which were copied, how it ended, and which are still ahead.
-/

namespace Squeeze

/-- The kind of literal body that is being passed over. -/
inductive Body where
  /-- A string, which the given character closes. -/
  | string (quote : Char)
  /-- A regular expression, outside its character classes. -/
  | regex
  /-- A character class of a regular expression. -/
  | regexClass
  deriving DecidableEq, Repr

/-- What a character of a literal body does. -/
inductive Role where
  /-- It ends the literal. -/
  | closing
  /-- It takes the special meaning from the next character. -/
  | escape
  /-- It is part of the literal, which goes on as the given kind of body. -/
  | plain (next : Body)
  deriving DecidableEq, Repr

namespace Body

/-- What the character `c` does in a body. -/
def role : Body → Char → Role
  | .string quote, c =>
    if c = quote then .closing else if c = '\\' then .escape else .plain (.string quote)
  | .regex, c =>
    if c = '/' then .closing else if c = '\\' then .escape
    else if c = '[' then .plain .regexClass else .plain .regex
  | .regexClass, c =>
    if c = '\\' then .escape else if c = ']' then .plain .regex else .plain .regexClass

/-- What is left open when the text breaks off in a body. -/
def unterminated : Body → Unterminated
  | .string _ => .string
  | .regex => .regex
  | .regexClass => .regexClass

end Body

/-- How the scan of a literal ended. -/
inductive Ending where
  /-- With its closing character, which is not copied. -/
  | closed (c : Placed)
  /-- Without it: at a line end, or at the end of the text if there is none. -/
  | broken (what : Unterminated) (c : Option Placed)
  deriving DecidableEq, Repr

/-- What the scan of a literal found. -/
structure Scan where
  /-- The characters that were passed over and belong to the literal. -/
  copied : List Placed
  /-- How the literal ended. -/
  ending : Ending
  /-- The characters after the one at which it ended. -/
  rest : List Placed
  deriving DecidableEq, Repr

/-- The same with more characters passed over in front. -/
def Scan.copying (cs : List Placed) (s : Scan) : Scan :=
  { s with copied := cs ++ s.copied }

/-- Passes over the rest of a literal. -/
def scan (body : Body) : List Placed → Scan
  | [] => ⟨[], .broken body.unterminated none, []⟩
  | c :: rest =>
    if c.isTerminator then ⟨[], .broken body.unterminated (some c), rest⟩
    else
      match body.role c.char with
      | .closing => ⟨[], .closed c, rest⟩
      | .plain next => (scan next rest).copying [c]
      | .escape =>
        match rest with
        | [] => ⟨[c], .broken body.unterminated none, []⟩
        | d :: rest =>
          if d.isTerminator then ⟨[c], .broken body.unterminated (some d), rest⟩
          else (scan body rest).copying [c, d]

/-- What a reader hands out for the rest of a literal. -/
structure Copied where
  /-- The characters to copy, up to the closing one or to where the literal broke off. -/
  chars : List Placed
  /-- The closing character, or the report that there is none. -/
  closing : Except ScanError Placed
  /-- The reader, after the character at which the literal ended. -/
  reader : Reader

/-- Takes the rest of a literal. -/
def Reader.copyBody (r : Reader) (body : Body) : Copied :=
  let s := scan body r.stream
  let r := r.resume s.rest
  { chars := s.copied
    closing :=
      match s.ending with
      | .closed c => .ok c
      | .broken what c => .error (r.fault what c)
    reader := r }

theorem Scan.copying_eq_iff {cs copied rest : List Placed} {s : Scan} {e : Ending} :
    s.copying cs = ⟨copied, e, rest⟩ ↔
      ∃ copied', copied = cs ++ copied' ∧ s = ⟨copied', e, rest⟩ := by
  obtain ⟨copied', e', rest'⟩ := s
  constructor
  · intro h
    cases h
    exact ⟨copied', rfl, rfl⟩
  · rintro ⟨_, rfl, h⟩
    cases h
    rfl

/-! ## What comes after is the end of the text -/

theorem scan_suffix (body : Body) (cs : List Placed) : (scan body cs).rest <:+ cs := by
  fun_induction scan body cs with
  | case1 => exact List.suffix_rfl
  | case2 => exact List.suffix_cons ..
  | case3 => exact List.suffix_cons ..
  | case4 body c cs _ next _ ih => exact ih.trans (List.suffix_cons ..)
  | case5 => exact List.nil_suffix
  | case6 => exact (List.suffix_cons ..).trans (List.suffix_cons ..)
  | case7 body c _ _ d cs _ ih => exact ih.trans ((List.suffix_cons ..).trans (List.suffix_cons ..))

theorem length_rest_scan (body : Body) (cs : List Placed) :
    (scan body cs).rest.length ≤ cs.length := (scan_suffix body cs).length_le

/-- A literal takes characters and adds none. -/
theorem Reader.length_stream_copyBody (r : Reader) (body : Body) :
    (r.copyBody body).reader.stream.length ≤ r.stream.length :=
  length_rest_scan body r.stream

end Squeeze
