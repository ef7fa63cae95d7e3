import Squeeze.Json.Value
import Squeeze.Json.Quoted

/-!
# Reading JSON

A reader for JSON texts: blanks may stand between the parts of a value, a string may use any escape,
and a number has no superfluous zeros in front. Of numbers only the natural ones are read, and an
escaped character must be a character of its own, not half of a surrogate pair.

The number of calls that may wait for each other is bounded by twice the length of the text, which
is enough: of two such calls in a row at least one has taken a character.
-/

namespace Squeeze.Json

/-- Leaves out the blanks in front. -/
def skipBlanks (cs : List Char) : List Char :=
  cs.dropWhile fun c => c = ' ' || c = '\n' || c = '\r' || c = '\t'

/-- The number that a hexadecimal digit stands for. -/
def ofHexDigit (c : Char) : Option Nat :=
  if '0' ≤ c ∧ c ≤ '9' then some (c.toNat - '0'.toNat)
  else if 'a' ≤ c ∧ c ≤ 'f' then some (c.toNat - 'a'.toNat + 10)
  else if 'A' ≤ c ∧ c ≤ 'F' then some (c.toNat - 'A'.toNat + 10)
  else none

/-- The character with a given code, if there is one. -/
def ofCode (n : Nat) : Option Char :=
  if n.isValidChar then some (Char.ofNat n) else none

/-- The character that four hexadecimal digits stand for. -/
def ofHexDigits (a b c d : Char) : Option Char := do
  ofCode (((← ofHexDigit a) * 16 + (← ofHexDigit b)) * 256 + (← ofHexDigit c) * 16 + (← ofHexDigit d))

/-- The character that a letter after a backslash stands for. -/
def ofEscape (c : Char) : Option Char :=
  if c = '"' ∨ c = '\\' ∨ c = '/' then some c
  else if c = 'b' then some '\x08'
  else if c = 'f' then some '\x0c'
  else if c = 'n' then some '\n'
  else if c = 'r' then some '\r'
  else if c = 't' then some '\t'
  else none

/-- Reads a string after its opening quote, and gives what comes after the closing one. -/
def unquote : List Char → Option (List Char × List Char)
  | [] => none
  | '\\' :: 'u' :: a :: b :: c :: d :: rest => do
    let e ← ofHexDigits a b c d
    let (s, rest) ← unquote rest
    return (e :: s, rest)
  | '\\' :: c :: rest => do
    let e ← ofEscape c
    let (s, rest) ← unquote rest
    return (e :: s, rest)
  | c :: rest =>
    if c = '"' then some ([], rest)
    else if c < ' ' ∨ c = '\\' then none
    else do
      let (s, rest) ← unquote rest
      return (c :: s, rest)

/-- The number that some decimal digits stand for. -/
def ofDigits (ds : List Char) : Nat :=
  ds.foldl (fun n d => 10 * n + (d.toNat - '0'.toNat)) 0

/-- Reads a natural number. -/
def parseNumber (cs : List Char) : Option (Value × List Char) :=
  let digits := cs.takeWhile Char.isDigit
  if digits = [] ∨ (digits.head? = some '0' ∧ 1 < digits.length) then none
  else some (.number (ofDigits digits), cs.dropWhile Char.isDigit)

/-- Reads the name of a member, and the colon after it. -/
def parseName (cs : List Char) : Option (String × List Char) :=
  match skipBlanks cs with
  | '"' :: cs =>
    match unquote cs with
    | none => none
    | some (name, cs) =>
      match skipBlanks cs with
      | ':' :: cs => some (String.ofList name, cs)
      | _ => none
  | _ => none

mutual

/-- Reads a value. The number bounds the calls that wait for each other. -/
def parseValue : Nat → List Char → Option (Value × List Char)
  | 0, _ => none
  | n + 1, cs =>
    match skipBlanks cs with
    | 'n' :: 'u' :: 'l' :: 'l' :: cs => some (.null, cs)
    | 't' :: 'r' :: 'u' :: 'e' :: cs => some (.bool true, cs)
    | 'f' :: 'a' :: 'l' :: 's' :: 'e' :: cs => some (.bool false, cs)
    | '"' :: cs => (unquote cs).map fun (s, cs) => (.string (String.ofList s), cs)
    | '[' :: cs =>
      match skipBlanks cs with
      | ']' :: cs => some (.array [], cs)
      | cs => (parseItems n cs).map fun (vs, cs) => (.array vs, cs)
    | '{' :: cs =>
      match skipBlanks cs with
      | '}' :: cs => some (.object [], cs)
      | cs => (parseMembers n cs).map fun (ms, cs) => (.object ms, cs)
    | cs => parseNumber cs

/-- Reads the items of an array up to its end. -/
def parseItems : Nat → List Char → Option (List Value × List Char)
  | 0, _ => none
  | n + 1, cs => do
    let (v, cs) ← parseValue n cs
    match skipBlanks cs with
    | ']' :: cs => return ([v], cs)
    | ',' :: cs =>
      let (vs, cs) ← parseItems n cs
      return (v :: vs, cs)
    | _ => none

/-- Reads the members of an object up to its end. -/
def parseMembers : Nat → List Char → Option (List (String × Value) × List Char)
  | 0, _ => none
  | n + 1, cs => do
    let (name, cs) ← parseName cs
    let (v, cs) ← parseValue n cs
    match skipBlanks cs with
    | '}' :: cs => return ([(name, v)], cs)
    | ',' :: cs =>
      let (ms, cs) ← parseMembers n cs
      return ((name, v) :: ms, cs)
    | _ => none

end

/-! ## One call

What one call does with the calls that it makes. The proofs about the reader use these equations and
unfold none of the three functions.
-/

section Calls

variable (n : Nat) (cs : List Char)

theorem parseValue_succ : parseValue (n + 1) cs =
    match skipBlanks cs with
    | 'n' :: 'u' :: 'l' :: 'l' :: cs => some (.null, cs)
    | 't' :: 'r' :: 'u' :: 'e' :: cs => some (.bool true, cs)
    | 'f' :: 'a' :: 'l' :: 's' :: 'e' :: cs => some (.bool false, cs)
    | '"' :: cs => (unquote cs).map fun (s, cs) => (.string (String.ofList s), cs)
    | '[' :: cs =>
      match skipBlanks cs with
      | ']' :: cs => some (.array [], cs)
      | cs => (parseItems n cs).map fun (vs, cs) => (.array vs, cs)
    | '{' :: cs =>
      match skipBlanks cs with
      | '}' :: cs => some (.object [], cs)
      | cs => (parseMembers n cs).map fun (ms, cs) => (.object ms, cs)
    | cs => parseNumber cs := rfl

theorem parseValue_bracket : parseValue (n + 1) ('[' :: cs) =
    match skipBlanks cs with
    | ']' :: cs => some (.array [], cs)
    | cs => (parseItems n cs).map fun (vs, cs) => (.array vs, cs) := rfl

theorem parseValue_brace : parseValue (n + 1) ('{' :: cs) =
    match skipBlanks cs with
    | '}' :: cs => some (.object [], cs)
    | cs => (parseMembers n cs).map fun (ms, cs) => (.object ms, cs) := rfl

theorem parseItems_succ : parseItems (n + 1) cs = (do
    let (v, cs) ← parseValue n cs
    match skipBlanks cs with
    | ']' :: cs => return ([v], cs)
    | ',' :: cs =>
      let (vs, cs) ← parseItems n cs
      return (v :: vs, cs)
    | _ => none) := rfl

theorem parseMembers_succ : parseMembers (n + 1) cs = (do
    let (name, cs) ← parseName cs
    let (v, cs) ← parseValue n cs
    match skipBlanks cs with
    | '}' :: cs => return ([(name, v)], cs)
    | ',' :: cs =>
      let (ms, cs) ← parseMembers n cs
      return ((name, v) :: ms, cs)
    | _ => none) := rfl

end Calls

/-- The value that a text stands for. -/
def parse (text : String) : Option Value :=
  match parseValue (2 * text.length + 1) text.toList with
  | some (v, cs) => if skipBlanks cs = [] then some v else none
  | none => none

end Squeeze.Json
