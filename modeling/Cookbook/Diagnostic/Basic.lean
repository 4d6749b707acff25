import Cookbook.Diagnostic.Finding
import Cookbook.Position

/-!
Diagnostics: findings with the file and the stretch they concern, and the order in which they are
reported.
-/

namespace Cookbook

/-- A finding in a source file, perhaps about one resource. -/
structure Diagnostic where
  finding : Finding
  source : Text
  span : Span
  resourceRef : Option Text
deriving DecidableEq

namespace Diagnostic

def code (d : Diagnostic) : ReasonCode := d.finding.code

def kind (d : Diagnostic) : FindingKind := d.code.kind

def severity (d : Diagnostic) : Severity := d.kind.severity

def message (d : Diagnostic) : Text := d.finding.message

/-- The same diagnostic about a resource, unless it is about one already. -/
def about (d : Diagnostic) (ref : Text) : Diagnostic :=
  { d with resourceRef := some (d.resourceRef.getD ref) }

/-- The diagnostic of a problem in the file whose lines are given. -/
def ofProblem (source : Text) (lines : LineIndex) (p : Problem) : Diagnostic :=
  ⟨.broken p.fault, source, lines.spot p.offset, none⟩

/-- The number of diagnostics of a severity. -/
def count (severity : Severity) (ds : List Diagnostic) : Nat :=
  ds.countP (·.severity == severity)

end Diagnostic

/-! ### Report order -/

/-- The order of reports: by file, then by start, then by end. -/
def reportLe (a b : Text × Span) : Bool :=
  if a.1 ≠ b.1 then Text.le a.1 b.1
  else if a.2.start.offset ≠ b.2.start.offset then a.2.start.offset < b.2.start.offset
  else a.2.stop.offset ≤ b.2.stop.offset

/-- The items in report order; items of one file and stretch keep their order. -/
def sortReports {α : Type} (place : α → Text × Span) (items : List α) : List α :=
  items.mergeSort fun a b => reportLe (place a) (place b)

/-- Diagnostics in report order. -/
def Diagnostic.sort (ds : List Diagnostic) : List Diagnostic :=
  sortReports (fun d => (d.source, d.span)) ds

end Cookbook
