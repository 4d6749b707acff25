import Cookbook.Declaration.Kind
import Cookbook.Position
import Cookbook.Value.Render

/-!
Resource declarations: a type, a name, actions, properties, guards and notifications, and the
conditions and loops around them.
-/

namespace Cookbook

/-- What a guard runs: a command, or a block of code. -/
inductive GuardForm where
  | command (command : Value)
  | block (body : Value) (code : Text)

/-- A guard of a resource. -/
structure Guard where
  kind : GuardKind
  form : GuardForm
  span : Span

/-- A notification of a resource. The timing as declared is kept beside the effective one. -/
structure Notification where
  action : Text
  target : Value
  timing : Timing
  declaredTiming : Text
  direction : Direction
  span : Span

/-- What a branch around a declaration asks: a test, or that a subject is one of some values. -/
inductive ContextForm where
  | test (code : Text)
  | oneOf (subject : Text) (values : List Text)

/-- A condition around a declaration; negated for the branches not taken. -/
structure ContextCondition where
  form : ContextForm
  negated : Bool
  span : Span

def ContextCondition.negate (c : ContextCondition) : ContextCondition :=
  { c with negated := !c.negated }

/-- A property of a resource. -/
structure Property where
  name : Text
  value : Value
  span : Span

/-- A resource declaration. Without actions it has the default action of its type; it is malformed
when its block was never closed. -/
structure Declaration where
  type : Text
  name : Value
  actions : List Text
  properties : List Property
  guards : List Guard
  notifications : List Notification
  context : List ContextCondition
  inLoop : Bool
  malformed : Bool
  usesSearch : Bool
  span : Span
  source : Text

/-- The reference to a resource: its type, and its name in brackets. -/
def resourceRef (type : Text) (name : Value) : Text := type ++ "[" ++ name.render ++ "]"

def Declaration.ref (d : Declaration) : Text := resourceRef d.type d.name

end Cookbook
