/-!
# Numbers as letters

A source map writes a signed number with the 64 letters of the Base64 alphabet. The number is first
made natural, with its sign as the lowest bit, and then cut into groups of five bits, the lowest
group first. Each group is one letter; the sixth bit of a letter says that more letters follow.

Since every number says where it ends, a row of numbers needs no separators. `decode` reads such a
row, and refuses a letter that is none and a row that breaks off inside a number.
-/

namespace Squeeze.Vlq

/-! ## Integers and natural numbers -/

/-- The natural number that stands for an integer: twice its size, and one more if it is negative. -/
def ofInt (n : Int) : Nat :=
  if n < 0 then 2 * n.natAbs + 1 else 2 * n.natAbs

/-- The integer that a natural number stands for. -/
def toInt (n : Nat) : Int :=
  if n % 2 = 1 then -(n / 2 : Nat) else (n / 2 : Nat)

/-! ## Groups of bits -/

/-- The groups of five bits of a number, lowest first, all but the last with the sixth bit set. -/
def groups (n : Nat) : List Nat :=
  if n < 32 then [n] else (n % 32 + 32) :: groups (n / 32)
termination_by n

/-- The numbers that a row of groups stands for. -/
def ungroup : List Nat → Option (List Nat)
  | [] => some []
  | d :: ds =>
    match ungroup ds with
    | none => none
    | some ns =>
      if d < 32 then some (d :: ns)
      else
        match ns with
        | [] => none
        | n :: ns => some ((d - 32 + 32 * n) :: ns)

/-! ## Letters -/

/-- The letter for a number below 64. -/
def letter (d : Nat) : Char :=
  if d < 26 then Char.ofNat ('A'.toNat + d)
  else if d < 52 then Char.ofNat ('a'.toNat + (d - 26))
  else if d < 62 then Char.ofNat ('0'.toNat + (d - 52))
  else if d = 62 then '+'
  else '/'

/-- The number that a letter stands for. -/
def ofLetter (c : Char) : Option Nat :=
  if 'A' ≤ c ∧ c ≤ 'Z' then some (c.toNat - 'A'.toNat)
  else if 'a' ≤ c ∧ c ≤ 'z' then some (c.toNat - 'a'.toNat + 26)
  else if '0' ≤ c ∧ c ≤ '9' then some (c.toNat - '0'.toNat + 52)
  else if c = '+' then some 62
  else if c = '/' then some 63
  else none

/-- The letters for an integer. -/
def encode (n : Int) : List Char := (groups (ofInt n)).map letter

/-- The integers that a row of letters stands for. -/
def decode (cs : List Char) : Option (List Int) :=
  match cs.mapM ofLetter with
  | none => none
  | some ds => (ungroup ds).map (List.map toInt)

end Squeeze.Vlq
