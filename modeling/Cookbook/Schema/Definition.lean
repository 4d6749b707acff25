import Cookbook.Statement.Parser
import Cookbook.Value.Normalize

/-!
Definitions of custom resources: the names they provide, their properties and actions. Definitions
are read from the top level of a file and the bodies of its classes and modules; everything else in
the file is code and is passed over.
-/

namespace Cookbook

/-- What a resource says about one of its properties. -/
structure PropertySchema where
  name : Text
  typeConstraint : Option Text
  isNameProperty : Bool
  default : Option Value
  required : Bool
  sensitive : Bool

/-- The definition of a custom resource. -/
structure ResourceDefinition where
  typeNames : List Text
  properties : List PropertySchema
  actions : List Text
  defaultAction : Option Text
  diagnostics : List Diagnostic

/-- The property that the name of a declaration fills: the marked one, or `name`. -/
def nameProperty (properties : List PropertySchema) : Text :=
  ((properties.find? (·.isNameProperty)).map (·.name)).getD "name"

/-- The list with a new element last; one that is there already stays where it is. -/
def addNew (xs : List Text) (x : Text) : List Text := if xs.contains x then xs else xs ++ [x]

/-- What has been read of a definition. -/
structure DefinitionReader where
  typeNames : List Text
  properties : List PropertySchema
  actions : List Text
  defaultAction : Option Text
  diagnostics : List Diagnostic

namespace DefinitionReader

/-- The value of a run, with its warnings noted. -/
def value (source : Text) (p : Program) (run : List Token) (r : DefinitionReader) :
    Value × DefinitionReader :=
  let n := NormalizeContext.normalize ⟨source, p.lines, .empty⟩ run
  (n.value, { r with diagnostics := r.diagnostics ++ n.diagnostics })

def report (r : DefinitionReader) (source : Text) (span : Span) (finding : Finding) :
    DefinitionReader :=
  { r with diagnostics := r.diagnostics ++ [⟨finding, source, span, none⟩] }

/-- The names that a value gives: its own, or those of the items of a list. -/
def namesIn : Value → List Text
  | .list items => items.filterMap Value.literalText?
  | v => v.literalText?.toList

/-- The names that positional arguments give, one by one or in lists. -/
def names (source : Text) (p : Program) : List
    (List Token) → DefinitionReader → List Text × DefinitionReader
  | [], r => ([], r)
  | run :: rest, r =>
    let (v, r) := r.value source p run
    let (more, r) := names source p rest r
    (namesIn v ++ more, r)

/-- Whether an argument is given and asks for its property: true, or a list of actions. -/
def isSet (source : Text) (p : Program) (run : Option (List Token)) (r : DefinitionReader) :
    Bool × DefinitionReader :=
  match run with
  | none => (false, r)
  | some run =>
    match r.value source p run with
    | (.literal (.bool true), r) => (true, r)
    | (.list _, r) => (true, r)
    | (_, r) => (false, r)

/-- Whether one of the given flags is set; the flags after the first that is are not read. -/
def anySet (source : Text) (p : Program) : List
    (List Token) → DefinitionReader → Bool × DefinitionReader
  | [], r => (false, r)
  | run :: rest, r =>
    match isSet source p (some run) r with
    | (true, r) => (true, r)
    | (false, r) => anySet source p rest r

/-- A property declaration. The type stands second, or under a key in the legacy form. -/
def property (source : Text) (p : Program) (legacy : Bool) (c : Command) (r : DefinitionReader) :
    DefinitionReader :=
  let call := Call.ofRun? c.head
  let positional := (call.map Call.positional).getD []
  let keywords := (call.map Call.keywordArgs).getD []
  let span := p.spanOf c.extent
  let (name, r) := match positional.head? with
    | some run =>
      let (v, r) := r.value source p run
      (v.literalText?, r)
    | none => (none, r)
  match name with
  | none => r.report source span (.namelessProperty (p.sourceOf c.head))
  | some name =>
    let typeRun := if legacy then lookup? "kind_of" keywords
      else (positional[1]?).or (lookup? "kind_of" keywords)
    let flags := keywords.filterMap fun (key, run) =>
      if key = ("name_property" : Text) ∨ key = ("name_attribute" : Text) then some run else none
    let (wantsName, r) := anySet source p flags r
    let isSecond := wantsName && r.properties.any (·.isNameProperty)
    let r := if isSecond then r.report source span (.duplicateNameProperty name) else r
    let (default, r) := match lookup? "default" keywords with
      | some run =>
        let (v, r) := r.value source p run
        (some v, r)
      | none => (none, r)
    let (required, r) := isSet source p (lookup? "required" keywords) r
    let (sensitive, r) := isSet source p (lookup? "sensitive" keywords) r
    let schema : PropertySchema :=
      { name
        typeConstraint := (typeRun.filter (!·.isEmpty)).map p.sourceOf
        isNameProperty := wantsName && !isSecond
        default, required, sensitive }
    { r with properties := r.properties ++ [schema] }

def command (source : Text) (p : Program) (c : Command) (r : DefinitionReader) : DefinitionReader :=
  match c.head.head?.bind (·.valueOf? .ident) with
  | none => r
  | some word =>
    let runs := ((Call.ofRun? c.head).map Call.positional).getD []
    if word = ("property" : Text) then property source p false c r
    else if word = ("attribute" : Text) then property source p true c r
    else if word = ("actions" : Text) then
      let (names, r) := names source p runs r
      { r with actions := names.foldl addNew r.actions }
    else if word = ("action" : Text) then
      let (names, r) := names source p runs r
      match names.head? with
      | some name => if c.block.isSome then { r with actions := addNew r.actions name } else r
      | none => r
    else if word = ("default_action" : Text) then
      let (names, r) := names source p runs r
      match names.head? with
      | some name =>
        { r with defaultAction := r.defaultAction.or (some name), actions := addNew r.actions name }
      | none => r
    else if word = ("resource_name" : Text) ∨ word = ("provides" : Text) then
      let (names, r) := names source p runs r
      { r with typeNames := (names.head?.map (addNew r.typeNames)).getD r.typeNames }
    else r

end DefinitionReader

mutual

def Statement.readDefinition (source : Text) (p : Program) :
    Statement → DefinitionReader → DefinitionReader
  | .command c, r => r.command source p c
  | .conditional _, r => r
  | .compound ⟨_, _, body, opener, _⟩, r =>
    if opener.text = ("class" : Text) ∨ opener.text = ("module" : Text) then
      readDefinitionList source p body r
    else r

def readDefinitionList (source : Text) (p : Program) :
    List Statement → DefinitionReader → DefinitionReader
  | [], r => r
  | s :: rest, r => readDefinitionList source p rest (s.readDefinition source p r)

end

/-- The definition in a file; it also provides the given names. Without a declared default action
the first action is the default. -/
def ResourceDefinition.ofText (text source : Text) (typeNames : List Text) : ResourceDefinition :=
  let p := Program.ofText text
  let start : DefinitionReader :=
    ⟨[], [], [], none, p.problems.map (Diagnostic.ofProblem source p.lines)⟩
  let r := readDefinitionList source p p.statements start
  ⟨typeNames.foldl addNew r.typeNames, r.properties, r.actions, r.defaultAction.or r.actions.head?,
    r.diagnostics⟩

end Cookbook
