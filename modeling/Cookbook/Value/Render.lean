import Cookbook.Value.Basic

/-!
How values are written in a playbook: as an expression, as a template with the dynamic parts
between double braces, and as the data of a task parameter.
-/

namespace Cookbook

/-! ### Expressions -/

/-- A key of a path after the first: `.name`, or the key between brackets and quotes. -/
def keyAccess (key : Text) : Text := if key.isName then "." ++ key else "['" ++ key ++ "']"

/-- The variable that a path stands for. -/
def variableName : List Text → Text
  | [] => []
  | first :: rest =>
    (if first.isName then first else "vars['" ++ first ++ "']") ++ rest.flatMap keyAccess

/-- A text as a quoted string: backslashes and quotes get a backslash. -/
def quotedString (t : Text) : Text :=
  Text.quoted ((t.replaceUnit '\\' "\\\\").replaceUnit '\x27' "\\'")

def Scalar.expression : Scalar → Text
  | .text value => quotedString value
  | .nil => "none"
  | s => s.plain

mutual

/-- The value as an expression. -/
def Value.expression : Value → Text
  | .literal s => s.expression
  | .symbol name => quotedString name
  | .path _ keys => variableName keys
  | .interpolation segments => Text.join " ~ " (expressions segments)
  | .list items => "[" ++ Text.join ", " (expressions items) ++ "]"
  | .map entries => "\x7b" ++ Text.join ", " (entryExpressions entries) ++ "\x7d"
  | .verbatim raw => raw

def expressions : List Value → List Text
  | [] => []
  | v :: rest => v.expression :: expressions rest

def entryExpressions : List Entry → List Text
  | [] => []
  | ⟨key, v⟩ :: rest => (key.quoted ++ ": " ++ v.expression) :: entryExpressions rest

end

/-! ### Templates -/

/-- An expression to be substituted in a template. -/
def substitution (expression : Text) : Text := "\x7b\x7b " ++ expression ++ " \x7d\x7d"

mutual

/-- The value as a template: literals are text, dynamic parts are substitutions. -/
def Value.render : Value → Text
  | .literal s => s.plain
  | .symbol name => name
  | .path _ keys => substitution (variableName keys)
  | .interpolation segments => renderAll segments
  | .list items => substitution (Value.list items).expression
  | .map entries => substitution (Value.map entries).expression
  | .verbatim raw => raw

def renderAll : List Value → Text
  | [] => []
  | v :: rest => v.render ++ renderAll rest

end

/-! ### Task data -/

/-- The data of a task parameter. -/
inductive TaskValue where
  | scalar (s : Scalar)
  | list (items : List TaskValue)
  | map (fields : Fields TaskValue)

def TaskValue.ofText (t : Text) : TaskValue := .scalar (.text t)

instance : Inhabited TaskValue := ⟨.scalar .nil⟩

def TaskValue.ofBool (b : Bool) : TaskValue := .scalar (.bool b)

mutual

/-- The value as task data: literals, lists and hashes as such, anything else as a template. -/
def Value.task : Value → TaskValue
  | .literal s => .scalar s
  | .symbol name => .ofText name
  | .list items => .list (taskValues items)
  | .map entries => .map (.ofList (taskEntries entries))
  | v => .ofText v.render

def taskValues : List Value → List TaskValue
  | [] => []
  | v :: rest => v.task :: taskValues rest

def taskEntries : List Entry → List (Text × TaskValue)
  | [] => []
  | ⟨key, v⟩ :: rest => (key, v.task) :: taskEntries rest

end

end Cookbook
