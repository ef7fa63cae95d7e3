/-!
# JSON values

The values of which a source map is made. An object keeps its members in the order in which they are
written. Numbers are natural numbers, as a source map holds no others.
-/

namespace Squeeze.Json

/-- A JSON value. -/
inductive Value where
  | null
  | bool (b : Bool)
  | number (n : Nat)
  | string (s : String)
  | array (items : List Value)
  | object (members : List (String × Value))
  deriving Repr

/-- The string, or `null` where there is none. -/
def Value.ofOption : Option String → Value
  | some s => .string s
  | none => .null

end Squeeze.Json
