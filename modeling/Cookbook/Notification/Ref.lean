import Cookbook.Text.Case
import Cookbook.Text.Class

/-!
References to resources, `type[name]`, as notifications write them, and the names of the handlers
made for them.
-/

namespace Cookbook

/-- The type and the name of a resource. -/
structure TargetRef where
  type : Text
  name : Text
deriving DecidableEq

namespace TargetRef

/-- A unit that may continue a type. -/
def isTypeUnit (c : CodeUnit) : Bool := c.isNameUnit || c == ':'

/-- The reference a text spells, white space around it apart: a type, and a name between the first
opening bracket and the last closing one. -/
def parse? (t : Text) : Option TargetRef :=
  let t := t.trim
  let type := t.takeWhile isTypeUnit
  if !type.head?.any CodeUnit.isNameStart then none
  else
    match t.drop type.length with
    | c :: rest =>
      if c = '[' ∧ rest.getLast? = some ']' then some ⟨type, rest.dropLast⟩ else none
    | [] => none

end TargetRef

/-- The name of the handler that runs an action on a target. -/
def handlerName (action ref : Text) : Text :=
  match TargetRef.parse? ref with
  | some target => action.capitalize ++ " " ++ target.type ++ " " ++ target.name
  | none => action.capitalize ++ " " ++ ref

end Cookbook
