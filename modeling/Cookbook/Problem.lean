import Cookbook.Text.Basic

/-!
Faults in the structure of a file: literals, blocks and brackets that are opened and never closed,
and closers with nothing to close. Each is reported at the offset of the opener, or of the stray
closer.
-/

namespace Cookbook

/-- What is wrong with the structure. -/
inductive Fault where
  /-- A string literal opened with `quote` has no end. -/
  | openString (quote : CodeUnit)
  /-- A heredoc whose terminator line is missing. -/
  | openHeredoc (name : Text)
  /-- A `do` without its `end`. -/
  | openDo
  /-- A block brace without its closing brace. -/
  | openBrace
  /-- A keyword such as `if` or `while` without its `end`. -/
  | openKeyword (word : Text)
  /-- A bracket that is never closed. -/
  | openBracket (bracket : Text)
  /-- A closer where nothing is open. -/
  | strayCloser (closer : Text)
deriving DecidableEq

def Fault.message : Fault → Text
  | openString quote => "string opened with " ++ [quote] ++ " is never closed"
  | openHeredoc name => "heredoc <<" ++ name ++ " is never terminated"
  | openDo => "block opened with 'do' is never closed with 'end'"
  | openBrace => "block opened with '\x7b' is never closed"
  | openKeyword word => word.quoted ++ " is never closed with 'end'"
  | openBracket bracket => bracket.quoted ++ " is never closed"
  | strayCloser closer => "unexpected " ++ closer.quoted ++ " with no open block"

/-- A fault and where it lies. -/
structure Problem where
  fault : Fault
  offset : Nat
deriving DecidableEq

end Cookbook
