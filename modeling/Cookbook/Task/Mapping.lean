import Cookbook.Declaration.Basic
import Cookbook.Diagnostic.Basic
import Cookbook.Inherited
import Cookbook.Schema.Constraint
import Cookbook.Schema.Definition
import Cookbook.Task.Table

/-!
A declaration as a module with parameters and task keywords. Built-in types follow the resource
table, custom types their definition, and any other type becomes a placeholder for manual
conversion. The tables of types, keywords, actions and properties are records, so a name that every
record has is found in them too.
-/

namespace Cookbook

/-- What a mapping needs to know: the file, the table, the custom definitions by type name, and the
names of the modules it makes up. -/
structure MappingContext where
  source : Text
  table : ResourceTable
  definitions : Bindings ResourceDefinition
  customNamespace : Text
  fallbackModule : Text

/-- A declaration as a task: `notifyOnly` when it only runs when notified, `custom` when it follows
a definition, `fallback` when it is a placeholder. -/
structure MappedResource where
  module : Text
  parameters : Fields TaskValue
  keywords : Fields TaskValue
  notifyOnly : Bool
  custom : Bool
  fallback : Bool
  diagnostics : List Diagnostic

/-- Why a declaration cannot be mapped. -/
inductive MappingError where
  /-- The mapping found for the type has no actions to look the first one up in. -/
  | noActions (action : Option Text)
  /-- The keywords found for the type may not be asked for a property. -/
  | refused
deriving DecidableEq

def MappingError.message : MappingError → Text
  | noActions action =>
    "Cannot read properties of undefined (reading '" ++ action.getD "undefined" ++ "')"
  | refused =>
    "'caller', 'callee', and 'arguments' properties may not be accessed on strict mode functions" ++
      " or the arguments objects for calls to them"

namespace Mapping

/-! ### Task keywords -/

/-- The keywords that properties of every type become. -/
def commonKeywords : List (Text × Text) :=
  [("ignore_failure", "ignore_errors"), ("sensitive", "no_log"), ("retries", "retries"),
   ("retry_delay", "delay")]

/-- The keywords that properties of one type become. For a type named like a member of all records
they are what that member has itself. -/
def typeKeywords (type : Text) : List (Text × Text) :=
  if type = ("execute" : Text) ∨ type = ("bash" : Text) ∨ type = ("script" : Text) then
    [("environment", "environment"), ("user", "become_user")]
  else if type = ("template" : Text) then [("variables", "vars")]
  else match Inherited.ofName? type with
    | some m => m.ownTexts
    | none => []

/-- The keyword that a property becomes: one of its type, one of all types, or else the text of the
member that it names. -/
def keywordFor? (type property : Text) : Option Text :=
  (lookup? property (typeKeywords type)).or
    ((lookup? property commonKeywords).or (Inherited.text? property))

/-- Whether the keywords of the type may not be asked for one of the properties. -/
def asksRefused (d : Declaration) : Bool :=
  (Inherited.ofName? d.type).any fun m => d.properties.any fun p => m.refuses p.name

/-- The keywords with one more property; running as a user also asks for becoming one. -/
def addKeyword (type : Text) (keywords : Fields TaskValue) (p : Property) : Fields TaskValue :=
  match keywordFor? type p.name with
  | none => keywords
  | some keyword =>
    let keywords := keywords.set keyword p.value.task
    if keyword = ("become_user" : Text) then keywords.set "become" (.ofBool true) else keywords

def keywordsOf (d : Declaration) : Fields TaskValue := d.properties.foldl (addKeyword d.type) .empty

/-- The properties that are no keywords. -/
def plainProperties (d : Declaration) : List Property :=
  d.properties.filter fun p => (keywordFor? d.type p.name).isNone

def warning (source : Text) (d : Declaration) (span : Span) (finding : Finding) : Diagnostic :=
  ⟨finding, source, span, some d.ref⟩

/-! ### Assigned parameters -/

/-- Whether a record stays ordinary when the value is assigned as the one its members come from: not
when there is none, nor when that is a record with an entry of the name. -/
def keepsOrdinary : TaskValue → Bool
  | .scalar .nil => false
  | .map fields => (fields.get? Inherited.prototype.name).isNone
  | _ => true

/-- The assignments that make a field. In an ordinary record, one under the name of the record that
its members come from replaces that record and makes none. -/
def landing {α : Type} (entry : α → Text × TaskValue) : (ordinary : Bool) → List α → List α
  | _, [] => []
  | ordinary, x :: rest =>
    if ordinary && (entry x).1 == Inherited.prototype.name then
      landing entry (keepsOrdinary (entry x).2) rest
    else x :: landing entry ordinary rest

/-- Parameters with more of them assigned, one after another. -/
def assignAll (f : Fields TaskValue) (pairs : List (Text × TaskValue)) : Fields TaskValue :=
  f.setAll (landing id (f.get? Inherited.prototype.name).isNone pairs)

/-! ### Built-in types -/

/-- The text before the first `::`, and the text after it when there is one. -/
def cutAtColons : Text → Text × Option Text
  | [] => ([], none)
  | c :: rest =>
    if c = ':' ∧ rest.head? = some ':' then ([], some rest.tail)
    else
      let (before, after) := cutAtColons rest
      (c :: before, after)

/-- The cookbook and the recipe that a name such as `web::ssl` gives. -/
def splitRecipe (name : Text) : Text × Option Text :=
  let (cookbook, rest) := cutAtColons name
  (cookbook, rest.map fun t => (cutAtColons t).1)

/-- The parameters of an included recipe: the cookbook, and the recipe unless it is the default. -/
def includeParameters (name : Value) : Fields TaskValue :=
  match name.literalText? with
  | none => .ofList [("name", .ofText name.render)]
  | some text =>
    match splitRecipe text with
    | (cookbook, some recipe) =>
      if recipe = ("default" : Text) then .ofList [("name", .ofText cookbook)]
      else .ofList [("name", .ofText cookbook), ("tasks_from", .ofText recipe)]
    | (cookbook, none) => .ofList [("name", .ofText cookbook)]

/-- The actions that are to run: those given, or else the default. -/
def effectiveActions (mapping : ResourceMapping) (actions : List Text) : List Text :=
  if actions.isEmpty then [mapping.defaultAction] else actions

/-- What an action asks of the module; a member of all records that it names asks nothing. -/
def effectOf? (mapping : ResourceMapping) (action : Text) : Option ActionEffect :=
  (mapping.actions.get? action).or
    ((Inherited.ofName? action).map fun _ => ⟨.empty, none, none⟩)

/-- A declaration of a built-in type: first the name, then what the actions ask, then the
properties, later values replacing earlier ones. Members of all records never count as renamed
properties, since every type has a keyword for them. -/
def builtin (source : Text) (mapping : ResourceMapping) (d : Declaration) (given : List Text) :
    MappedResource :=
  let actions := effectiveActions mapping given
  let effects := actions.filterMap (effectOf? mapping)
  let unsupported := actions.filter fun a => (effectOf? mapping a).isNone
  let module := ((effects.filterMap (·.module)).getLast?).getD mapping.module
  let nameParam := ((effects.filterMap (·.nameParam)).getLast?).or mapping.nameParam
  let start : Fields TaskValue :=
    if d.type = ("include_recipe" : Text) then includeParameters d.name
    else match nameParam with
      | some param => .ofList [(param, d.name.task)]
      | none => .empty
  let properties := plainProperties d
  let renamed := properties.filterMap fun p =>
    (mapping.properties.get? p.name).map fun param => (param, p.value.task)
  let dropped := properties.filter fun p => (mapping.properties.get? p.name).isNone
  { module
    parameters := assignAll start (effects.flatMap (·.params.entries) ++ renamed)
    keywords := keywordsOf d
    notifyOnly := actions.all fun (a : Text) => a == ("nothing" : Text)
    custom := false
    fallback := false
    diagnostics :=
      unsupported.map (fun a =>
        warning source d d.span (.unsupportedAction a d.type mapping.module)) ++
      dropped.map fun p => warning source d p.span (.droppedProperty p.name d.type module) }

/-! ### Custom types -/

def schemaOf? (definition : ResourceDefinition) (name : Text) : Option PropertySchema :=
  definition.properties.find? (·.name == name)

/-- The warning about a property that its resource does not declare, or declares otherwise. -/
def propertyFinding? (definition : ResourceDefinition) (d : Declaration) (p : Property) :
    Option Finding :=
  match schemaOf? definition p.name with
  | none => some (.unknownProperty p.name d.type)
  | some schema => do
    let expected ← schema.typeConstraint
    if satisfies? expected p.value = some false then
      return .typeMismatch p.name d.type expected
    else none

/-- The parameter that holds the actions: one by itself, several as a list. -/
def stateParameter (actions : List Text) : List (Text × TaskValue) :=
  match actions with
  | [] => []
  | [only] => [("state", .ofText only)]
  | several => [("state", .list (several.map TaskValue.ofText))]

/-- Whether actions are given and all are to wait. -/
def onlyNothing (actions : List Text) : Bool :=
  !actions.isEmpty && actions.all fun (a : Text) => a == ("nothing" : Text)

/-- A declaration of a custom type: the name, the actions, the properties as given, and the defaults
of those not given. A sensitive property hides the task's output. -/
def custom (ctx : MappingContext) (definition : ResourceDefinition) (d : Declaration)
    (actions : List Text) : MappedResource :=
  let nameProperty := nameProperty definition.properties
  let properties := plainProperties d
  let unknown := actions.filter fun (a : Text) =>
    a != ("nothing" : Text) && !definition.actions.contains a
  let missing := definition.properties.filter fun s =>
    s.name != nameProperty && !properties.any (·.name == s.name)
  let defaults := missing.filterMap fun s =>
    if s.required then none else s.default.map fun v => (s.name, v.task)
  let isSensitive := properties.any fun p => (schemaOf? definition p.name).any (·.sensitive)
  let keywords := keywordsOf d
  let warn := warning ctx.source d
  { module := ctx.customNamespace ++ "." ++ d.type
    parameters := assignAll
      (.ofList ((nameProperty, d.name.task) :: stateParameter actions ++
        properties.map fun p => (p.name, p.value.task)))
      defaults
    keywords := if isSensitive then keywords.set "no_log" (.ofBool true) else keywords
    notifyOnly := onlyNothing actions
    custom := true
    fallback := false
    diagnostics :=
      unknown.map (fun a => warn d.span (.unknownAction a d.type)) ++
      properties.filterMap (fun p => (propertyFinding? definition d p).map (warn p.span)) ++
      (missing.filter (·.required)).map fun s => warn d.span (.missingRequired s.name d.type) }

/-! ### Other types -/

/-- The parameters of a placeholder for a resource. -/
def placeholder (ref : Text) : Fields TaskValue :=
  .ofList [("cmd", .ofText ("echo 'manual conversion required: " ++ ref ++ "'"))]

/-- A declaration of an unknown type; its properties are kept as variables. -/
def fallback (ctx : MappingContext) (d : Declaration) (actions : List Text) : MappedResource :=
  let properties := plainProperties d
  let vars : TaskValue := .map (.ofList (properties.map fun p => (p.name, p.value.task)))
  let keywords := keywordsOf d
  { module := ctx.fallbackModule
    parameters := placeholder d.ref
    keywords := if properties.isEmpty then keywords else keywords.set "vars" vars
    notifyOnly := onlyNothing actions
    custom := false
    fallback := true
    diagnostics := [warning ctx.source d d.span (.unrecognizedType d.type ctx.fallbackModule)] }

end Mapping

/-- The declaration as a task that runs the given actions. A type without a mapping of its own that
names a member of all records has that member for its mapping, which has no actions. -/
def Declaration.map (d : Declaration) (ctx : MappingContext) (actions : List Text) :
    Except MappingError MappedResource :=
  if Mapping.asksRefused d then .error .refused
  else match ctx.table.get? d.type with
  | some mapping => .ok (Mapping.builtin ctx.source mapping d actions)
  | none =>
    if (Inherited.ofName? d.type).isSome then .error (.noActions actions.head?)
    else match ctx.definitions.get? d.type with
    | some definition => .ok (Mapping.custom ctx definition d actions)
    | none => .ok (Mapping.fallback ctx d actions)

end Cookbook
