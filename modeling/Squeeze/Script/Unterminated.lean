import Squeeze.Text.Reader

/-!
# What can be wrong with a script

A script is not parsed, only divided into comments, literals and other characters, and so only one
thing can be wrong with it: something was opened and never closed. The four things that can be left
open are told apart because the message names them.
-/

namespace Squeeze

/-- A part of a script that was opened and not closed. -/
inductive Unterminated where
  | string
  | regex
  | regexClass
  | comment
  deriving DecidableEq, Repr

/-- What was left open, in words. -/
def Unterminated.text : Unterminated → String
  | .string => "unterminated string literal"
  | .regex => "unterminated regular expression literal"
  | .regexClass => "unterminated character class in regular expression literal"
  | .comment => "unterminated comment"

/-- The report on a script in which something was left open. -/
structure ScanError where
  /-- What was left open. -/
  what : Unterminated
  /-- The line on which it should have been closed. -/
  line : Nat
  /-- The name of the script. -/
  source : String
  deriving DecidableEq, Repr

/-- The report in words. -/
def ScanError.message (e : ScanError) : String :=
  e.what.text ++ " at line " ++ toString e.line ++ " of " ++ e.source

/-- The report that something was left open: on the line of the character `c` that should not have
come, or where the reader stands if the text ran out. -/
def Reader.fault (r : Reader) (what : Unterminated) (c : Option Placed) : ScanError where
  what := what
  line := ((c.bind Placed.origin).getD r.position).line
  source := r.source

end Squeeze
