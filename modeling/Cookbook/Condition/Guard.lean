import Cookbook.Condition.Parser
import Cookbook.Declaration.Basic

/-!
Guards and enclosing branches as conditions. What cannot be read is kept as written, with a warning;
a guard that forbids is the negation of the guard that allows.
-/

namespace Cookbook

/-- A condition with the warnings about it. -/
structure ConditionReading where
  condition : Condition
  diagnostics : List Diagnostic

namespace ConditionReading

/-- The condition that was read, or else the code as written with a warning; negated on demand. -/
def ofReading (read : Option Condition) (raw : Text) (finding : Finding) (source : Text)
    (span : Span)
    (negated : Bool) : ConditionReading :=
  let c := read.getD (.verbatim raw)
  let diagnostics := if read.isSome then [] else [⟨finding, source, span, none⟩]
  ⟨if negated then .not c else c, diagnostics⟩

end ConditionReading

namespace Guard

/-- The condition of the form of a guard. -/
def reading? (g : Guard) (constants : Bindings Value) : Option Condition :=
  match g.form with
  | .command v => if v.isClear then matchCommand? v else none
  | .block _ code => parseCondition? code constants

def raw (g : Guard) : Text :=
  match g.form with
  | .command v => v.render
  | .block _ code => code

/-- The condition under which the guard lets an action run. -/
def toCondition (g : Guard) (source : Text) (constants : Bindings Value) : ConditionReading :=
  .ofReading (g.reading? constants) g.raw (.unreadGuard g.kind g.raw) source g.span
    (g.kind == .notIf)

end Guard

namespace ContextCondition

/-- The condition of a branch, before negation. -/
def reading? (c : ContextCondition) (constants : Bindings Value) : Option Condition :=
  match c.form with
  | .test code => parseCondition? code constants
  | .oneOf subject values => parseMatch? subject values constants

def raw (c : ContextCondition) : Text :=
  match c.form with
  | .test code => code
  | .oneOf subject values => subject ++ " in [" ++ Text.join ", " values ++ "]"

/-- The condition under which the branch is taken. -/
def toCondition (c : ContextCondition) (source : Text) (constants : Bindings Value) :
    ConditionReading :=
  .ofReading (c.reading? constants) c.raw (.unreadContext c.raw) source c.span c.negated

end ContextCondition

end Cookbook
