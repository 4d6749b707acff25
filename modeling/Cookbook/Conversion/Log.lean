import Cookbook.Diagnostic.Basic

/-!
The log of a conversion, as data: lines in the order in which they are written, each with notes by
name.
-/

namespace Cookbook

/-- How loud a log line is. -/
inductive LogLevel where
  | debug | warn
deriving DecidableEq

def LogLevel.name : LogLevel → Text
  | debug => "DEBUG"
  | warn => "WARN"

inductive LogNote where
  | text (t : Text)
  | count (n : Nat)
deriving DecidableEq

structure LogLine where
  level : LogLevel
  message : Text
  notes : List (Text × LogNote)
deriving DecidableEq

namespace LogLine

def counts (message : Text) (counts : List (Text × Nat)) : LogLine :=
  ⟨.debug, message, counts.map fun (name, n) => (name, .count n)⟩

/-- The line about a diagnostic: its code and message, and where it is. -/
def ofDiagnostic (d : Diagnostic) : LogLine :=
  ⟨.warn, d.code.text ++ ": " ++ d.message,
    [("file", .text d.source), ("line", .count d.span.start.line),
     ("column", .count d.span.start.column)]⟩

/-- The lines about the errors among some diagnostics. -/
def ofErrors (ds : List Diagnostic) : List LogLine :=
  (ds.filter (·.severity == .error)).map ofDiagnostic

def note (line : LogLine) (name : Text) (value : LogNote) : LogLine :=
  { line with notes := line.notes ++ [(name, value)] }

end LogLine

end Cookbook
