import Squeeze.Json.Value
import Squeeze.Json.Quoted

/-!
# Printing JSON

The compact form: no blanks anywhere, items and members in order with commas between them.
-/

namespace Squeeze.Json.Value

mutual

/-- The text of a value. -/
def print : Value → List Char
  | .null => ['n', 'u', 'l', 'l']
  | .bool true => ['t', 'r', 'u', 'e']
  | .bool false => ['f', 'a', 'l', 's', 'e']
  | .number n => Nat.toDigits 10 n
  | .string s => quote s.toList
  | .array [] => ['[', ']']
  | .array (v :: vs) => '[' :: (v.print ++ printItems vs)
  | .object [] => ['{', '}']
  | .object (m :: ms) => '{' :: (printMember m ++ printMembers ms)

/-- The items of an array after the first one, each with a comma before it, and the end. -/
def printItems : List Value → List Char
  | [] => [']']
  | v :: vs => ',' :: (v.print ++ printItems vs)

/-- A member of an object. -/
def printMember : String × Value → List Char
  | (name, v) => quote name.toList ++ ':' :: v.print

/-- The members of an object after the first one, each with a comma before it, and the end. -/
def printMembers : List (String × Value) → List Char
  | [] => ['}']
  | m :: ms => ',' :: (printMember m ++ printMembers ms)

end

/-- The text of a value as a string. -/
def render (v : Value) : String := String.ofList v.print

end Squeeze.Json.Value
