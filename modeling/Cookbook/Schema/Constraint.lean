import Cookbook.Inherited
import Cookbook.Value.Basic

/-!
Type constraints of properties, such as `String` or `[String, Integer, nil]`, and whether a value
satisfies one. Values known only at converge time, and constraints that are not plain class names,
decide nothing.
-/

namespace Cookbook

/-- The class that a written name stands for, or the text of the member that it names. -/
def classAlias (name : Text) : Text :=
  let aliases : List (Text × Text) :=
    [("true", "TrueClass"), ("false", "FalseClass"), ("nil", "NilClass"), ("Fixnum", "Integer"),
     ("Bignum", "Integer")]
  ((lookup? name aliases).or (Inherited.text? name)).getD name

/-- The classes a constraint lists. -/
def constraintClasses (constraint : Text) : List Text :=
  let body := if constraint.head? = some '[' then constraint.tail else constraint
  let body := (Text.dropTail? body "]").getD body
  let names := (Text.splitOn body ',').map fun part =>
    let name := part.trim
    if ("::" : Text).isPrefixOf name then name.drop 2 else name
  (names.filter (!·.isEmpty)).map classAlias

/-- The classes a value can have; none when only known at converge time. A file mode is written as a
number and kept as text, so it is both. -/
def Value.classes : Value → List Text
  | .literal .nil => ["NilClass"]
  | .literal (.bool b) => [if b then "TrueClass" else "FalseClass", "Boolean"]
  | .literal (.number n) => if n.isInteger then ["Integer", "Numeric"] else ["Float", "Numeric"]
  | .literal (.text t) => if t.isFileMode then ["String", "Integer", "Numeric"] else ["String"]
  | .symbol _ => ["Symbol"]
  | .interpolation _ => ["String"]
  | .list _ => ["Array"]
  | .map _ => ["Hash"]
  | .path _ _ => []
  | .verbatim _ => []

/-- Whether a name is a plain class name. -/
def isClassName : Text → Bool
  | [] => false
  | c :: rest => c.isUpper && rest.all fun u => u.isLetter || u == ':'

/-- Whether a value satisfies a constraint, when that can be decided. -/
def satisfies? (constraint : Text) (v : Value) : Option Bool :=
  let allowed := constraintClasses constraint
  let actual := v.classes
  if actual.isEmpty || allowed.isEmpty || !allowed.all isClassName then none
  else some (actual.any allowed.contains || allowed.contains "Object")

end Cookbook
