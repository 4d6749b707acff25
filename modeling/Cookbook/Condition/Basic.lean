import Cookbook.Inherited
import Cookbook.Value.Basic

/-!
Conditions: tests of the system, comparisons and truth of values, joined by negation, conjunction
and disjunction, and conditions kept as written.
-/

namespace Cookbook

/-- What a test asks of its subject. -/
inductive TestKind where
  | pathExists | fileExists | directoryExists | commandAvailable | serviceActive | serviceEnabled
  | processRunning | packageInstalled | userExists | groupExists | platform | platformFamily
  /-- A member of all records, found where a test was looked up. -/
  | inherited (m : Inherited)
deriving DecidableEq

/-- A comparison. -/
inductive CompareOp where
  | eq | ne | lt | gt | le | ge
deriving DecidableEq

namespace CompareOp

def all : List CompareOp := [eq, ne, lt, gt, le, ge]

def sign : CompareOp → Text
  | eq => "=="
  | ne => "!="
  | lt => "<"
  | gt => ">"
  | le => "<="
  | ge => ">="

def ofSign? (sign : Text) : Option CompareOp := all.find? (·.sign == sign)

end CompareOp

/-- A condition. -/
inductive Condition where
  /-- Always or never. -/
  | const (value : Bool)
  /-- A test of the system. -/
  | test (kind : TestKind) (subject : Value)
  /-- A comparison of two values. -/
  | compare (left : Value) (op : CompareOp) (right : Value)
  /-- A value that is neither false nor nil. -/
  | truthy (value : Value)
  /-- The negation. -/
  | not (c : Condition)
  /-- All hold. -/
  | all (cs : List Condition)
  /-- At least one holds. -/
  | any (cs : List Condition)
  /-- A condition kept as written. -/
  | verbatim (raw : Text)

namespace Condition

instance : Inhabited Condition := ⟨.const false⟩

/-- The conjunction of the members: none for no member, a single one itself. -/
def allOf? : List Condition → Option Condition
  | [] => none
  | [c] => some c
  | cs => some (.all cs)

end Condition

mutual

/-- Whether a part of the condition is kept as written. Values inside do not count. -/
def Condition.hasVerbatim : Condition → Bool
  | .verbatim _ => true
  | .not c => c.hasVerbatim
  | .all cs => anyVerbatim cs
  | .any cs => anyVerbatim cs
  | _ => false

/-- Whether a member is, or has a part, kept as written. -/
def anyVerbatim : List Condition → Bool
  | [] => false
  | c :: rest => c.hasVerbatim || anyVerbatim rest

end

end Cookbook
