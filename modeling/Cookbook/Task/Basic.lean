import Cookbook.Condition.Basic
import Cookbook.Declaration.Basic
import Cookbook.Text.Case

/-!
Tasks and handlers of a playbook, their names, and how much work their conversion leaves.
-/

namespace Cookbook

/-- How much of a task is left for a person to do. -/
inductive Complexity where
  | simple | moderate | complex
deriving DecidableEq

def Complexity.word : Complexity → Text
  | simple => "simple"
  | moderate => "moderate"
  | complex => "complex"

/-- An action that runs right after a task. -/
structure PostActionTask where
  targetRef : Text
  action : Text
  module : Text
  parameters : Fields TaskValue
  condition : Option Condition
  resolved : Bool

/-- A task, with where it comes from. -/
structure ConvertedTask where
  name : Text
  module : Text
  parameters : Fields TaskValue
  condition : Option Condition
  notifyRefs : List Text
  postActions : List PostActionTask
  keywords : Fields TaskValue
  rawWarnings : List Text
  notifyOnly : Bool
  complexity : Complexity
  file : Text
  span : Span
  ref : Text

/-- A handler, with the resources that trigger it. -/
structure Handler where
  name : Text
  targetRef : Text
  action : Text
  module : Text
  parameters : Fields TaskValue
  condition : Option Condition
  resolved : Bool
  triggeredBy : List Text
  span : Span

/-- The name of a task: its actions in words, its type and its name. One that only waits to be
notified is declared. -/
def taskName (type name : Text) (actions : List Text) : Text :=
  let verbs := (actions.filter fun (a : Text) => a != ("nothing" : Text)).map fun (a : Text) =>
    a.replaceUnit '_' " "
  let lead : Text := if verbs.isEmpty then "Declare" else (Text.join " and " verbs).capitalize
  lead ++ " " ++ type ++ " " ++ name

/-- How much work a declaration leaves. Code kept as written, loops, searches, placeholders and
broken blocks need a person; conditions, notifications and custom types need a look. -/
def Declaration.complexity (d : Declaration) (condition : Option Condition)
    (fallback custom : Bool) :
    Complexity :=
  let hasVerbatim := !d.name.isClear || d.properties.any (fun p => !p.value.isClear) ||
    condition.any Condition.hasVerbatim
  if hasVerbatim || fallback || d.inLoop || d.malformed || d.usesSearch then .complex
  else if condition.isSome || !d.notifications.isEmpty || custom then .moderate
  else .simple

end Cookbook
