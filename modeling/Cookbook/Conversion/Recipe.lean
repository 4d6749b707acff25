import Cookbook.Condition.Render
import Cookbook.Condition.Guard
import Cookbook.Conversion.Prepared
import Cookbook.Conversion.Settings
import Cookbook.Declaration.Extract
import Cookbook.Declaration.Resolve
import Cookbook.Notification.Graph
import Cookbook.Task.Basic
import Cookbook.Task.Mapping

/-!
The conversion of one recipe: its declarations become tasks in the order declared, and its delayed
notifications become handlers. It fails when a declaration cannot be mapped, with the first error.
-/

namespace Cookbook

/-- What a recipe is converted against. -/
structure RecipeEnvironment where
  settings : Settings
  table : ResourceTable
  attributes : AttributeTable
  definitions : Bindings ResourceDefinition

namespace RecipeEnvironment

/-- The types that need no block to be declared. -/
def knownTypes (env : RecipeEnvironment) : List Text := env.table.keys ++ env.definitions.names

/-- What mapping needs to know about a recipe. -/
def mapping (env : RecipeEnvironment) (source : Text) : MappingContext :=
  ⟨source, env.table, env.definitions, env.settings.customNamespace, env.settings.fallbackModule⟩

def defaultAction? (env : RecipeEnvironment) (type : Text) : Option Text :=
  match env.table.get? type with
  | some mapping => some mapping.defaultAction
  | none => (env.definitions.get? type).bind (·.defaultAction)

end RecipeEnvironment

/-! ### Declarations made ready -/

/-- A declaration with its attributes replaced, the condition under which it acts, and the warnings
on the way. -/
structure ReadyDeclaration where
  declaration : Declaration
  condition : Option Condition
  diagnostics : List Diagnostic

namespace ReadyDeclaration

def ref (r : ReadyDeclaration) : Text := r.declaration.ref

/-- A declaration made ready. The conditions around it come before its own guards, and both are read
with the given names in force. -/
def ofDeclaration (env : RecipeEnvironment) (source : Text) (constants : Bindings Value)
    (d : Declaration) : ReadyDeclaration :=
  let resolved : Declaration × List Diagnostic :=
    if env.settings.resolveAttributes then
      let r := d.resolve env.attributes
      (r.declaration, r.diagnostics source)
    else (d, [])
  let (declaration, diagnostics) := resolved
  let readings := declaration.context.map (·.toCondition source constants) ++
    declaration.guards.map (·.toCondition source constants)
  { declaration
    condition := Condition.allOf? (readings.map (·.condition))
    diagnostics := diagnostics ++
      readings.flatMap fun t => t.diagnostics.map (·.about declaration.ref) }

/-- The declaration as the notification graph sees it. -/
def node (r : ReadyDeclaration) : GraphNode :=
  ⟨r.ref, r.declaration.notifications.map fun n =>
    ⟨n.action, n.target.render, n.timing, n.direction, n.span⟩⟩

end ReadyDeclaration

/-! ### Actions on targets -/

/-- What running an action on a target takes: a module with parameters, under the condition of the
target, and the warnings that the target's own task does not have already. -/
structure TargetRun where
  module : Text
  parameters : Fields TaskValue
  condition : Option Condition
  diagnostics : List Diagnostic

/-- The declaration that a reference to a resource elsewhere stands for. -/
def TargetRef.declaration (t : TargetRef) (action : Text) (span : Span) (source : Text) :
    Declaration :=
  { type := t.type, name := .ofText t.name, actions := [action], properties := [], guards := []
    notifications := [], context := [], inLoop := false, malformed := false, usesSearch := false
    span, source }

namespace TargetRun

def isAboutAction (d : Diagnostic) : Bool :=
  d.code == .mappingUnsupportedAction || d.code == .schemaUnknownAction

/-- An action on a target declared in the recipe; its warnings are put at `span`. -/
def onDeclared (ctx : MappingContext) (target : ReadyDeclaration) (action : Text) (span : Span) :
    Except MappingError TargetRun := do
  let mapped ← target.declaration.map ctx [action]
  return ⟨mapped.module, mapped.parameters, target.condition,
    (mapped.diagnostics.filter isAboutAction).map fun d => { d with span }⟩

/-- An action on a target that is not declared in the recipe; one that is no reference gets a
placeholder. -/
def onOther (ctx : MappingContext) (targetRef action : Text) (span : Span) :
    Except MappingError TargetRun :=
  match TargetRef.parse? targetRef with
  | none => return ⟨ctx.fallbackModule, Mapping.placeholder targetRef, none, []⟩
  | some t => do
    let mapped ← (t.declaration action span ctx.source).map ctx [action]
    return ⟨mapped.module, mapped.parameters, none, mapped.diagnostics⟩

/-- An action on the target with the given index, or else the one referred to. -/
def run (ctx : MappingContext) (ready : List ReadyDeclaration) (targetRef action : Text)
    (targetIndex : Option Nat) (span : Span) : Except MappingError TargetRun :=
  match targetIndex.bind (ready[·]?) with
  | some target => onDeclared ctx target action span
  | none => onOther ctx targetRef action span

end TargetRun

/-! ### Tasks and handlers -/

/-- A result with the warnings about it. -/
structure Reported (α : Type) where
  result : α
  diagnostics : List Diagnostic

structure RecipeProducts where
  tasks : List (Reported ConvertedTask)
  handlers : List (Reported Handler)

/-- What is known about a recipe when its tasks are made. -/
structure RecipeStage where
  env : RecipeEnvironment
  source : Text
  extraction : Extraction
  ready : List ReadyDeclaration
  graph : NotificationGraph

namespace RecipeStage

def ctx (s : RecipeStage) : MappingContext := s.env.mapping s.source

/-- The task of an action that runs right after another task. -/
def postAction (s : RecipeStage) (span : Span) (post : PostAction) :
    Except MappingError (Reported PostActionTask) := do
  let run ← TargetRun.run s.ctx s.ready post.targetRef post.action post.targetIndex span
  return ⟨⟨post.targetRef, post.action, run.module, run.parameters, run.condition,
    post.targetIndex.isSome⟩, run.diagnostics⟩

/-- The warning about a declaration that searches the server. -/
def searchWarnings (s : RecipeStage) (r : ReadyDeclaration) : List Diagnostic :=
  if r.declaration.usesSearch then [⟨.searchQuery, s.source, r.declaration.span, some r.ref⟩]
  else []

/-- The messages attached to the task of a declaration: those of the warnings within it, those
about its notifications, and its own. -/
def rawWarnings (s : RecipeStage) (r : ReadyDeclaration) (own : List Diagnostic) : List Text :=
  let extracted := s.extraction.diagnostics.filter (·.span.within r.declaration.span)
  let graph := s.graph.diagnostics.filter (·.resourceRef == some r.ref)
  ((extracted ++ graph ++ own).filter (·.severity == .warning)).map (·.message)

/-- The actions that name the task of a declaration. -/
def namingActions (s : RecipeStage) (d : Declaration) : List Text :=
  if d.actions.isEmpty then (s.env.defaultAction? d.type).toList else d.actions

/-- The task of the declaration with the given index, given how it is mapped and what runs right
after it. -/
def taskOf (s : RecipeStage) (r : ReadyDeclaration) (index : Nat) (mapped : MappedResource)
    (posts : List (Reported PostActionTask)) : Reported ConvertedTask :=
  let d := r.declaration
  let own := r.diagnostics ++ mapped.diagnostics ++ s.searchWarnings r
  let task : ConvertedTask :=
    { name := taskName d.type d.name.render (s.namingActions d)
      module := mapped.module
      parameters := mapped.parameters
      condition := r.condition
      notifyRefs := s.graph.notifyRefs.getD index []
      postActions := posts.map (·.result)
      keywords := mapped.keywords
      rawWarnings := s.rawWarnings r own
      notifyOnly := mapped.notifyOnly
      complexity := d.complexity r.condition mapped.fallback mapped.custom
      file := s.source
      span := d.span
      ref := r.ref }
  ⟨task, own ++ posts.flatMap (·.diagnostics)⟩

def task (s : RecipeStage) (r : ReadyDeclaration) (index : Nat) :
    Except MappingError (Reported ConvertedTask) := do
  let d := r.declaration
  let mapped ← d.map s.ctx d.actions
  let posts ← (s.graph.postActions.getD index []).mapM (s.postAction d.span)
  return s.taskOf r index mapped posts

def handler (s : RecipeStage) (h : HandlerSpec) : Except MappingError (Reported Handler) := do
  let run ← TargetRun.run s.ctx s.ready h.targetRef h.action h.targetIndex h.span
  return ⟨⟨h.name, h.targetRef, h.action, run.module, run.parameters, run.condition,
    h.targetIndex.isSome, h.triggeredBy, h.span⟩, run.diagnostics⟩

/-- The tasks and handlers of the recipe. -/
def products (s : RecipeStage) : Except MappingError RecipeProducts := do
  let tasks ← s.ready.zipIdx.mapM fun (r, index) => s.task r index
  let handlers ← s.graph.handlers.mapM s.handler
  return ⟨tasks, handlers⟩

def ofText (env : RecipeEnvironment) (source text : Text) : RecipeStage :=
  let extraction := extractDeclarations source text env.knownTypes .empty
  let ready := extraction.declarations.map
    (ReadyDeclaration.ofDeclaration env source extraction.constants)
  ⟨env, source, extraction, ready, NotificationGraph.ofNodes source (ready.map (·.node))⟩

end RecipeStage

/-! ### Phases -/

/-- The phases of a conversion, each with what there is to count on entering it. -/
inductive Phase where
  | unparsed (bytes : Nat)
  | extracted (declarations errors : Nat)
  | normalized (declarations verbatims : Nat)
  | resolved (declarations unresolved : Nat)
  | mapped (tasks handlers edges : Nat)
  | emitted (tasks handlers diagnostics : Nat)
deriving DecidableEq

namespace Phase

def name : Phase → Text
  | unparsed _ => "Unparsed"
  | extracted _ _ => "Extracted"
  | normalized _ _ => "Normalized"
  | resolved _ _ => "Resolved"
  | mapped _ _ _ => "Mapped"
  | emitted _ _ _ => "Emitted"

def counts : Phase → List (Text × Nat)
  | unparsed bytes => [("bytes", bytes)]
  | extracted declarations errors => [("declarations", declarations), ("errors", errors)]
  | normalized declarations verbatims =>
    [("declarations", declarations), ("opaqueValues", verbatims)]
  | resolved declarations unresolved =>
    [("declarations", declarations), ("unresolved", unresolved)]
  | mapped tasks handlers edges => [("tasks", tasks), ("handlers", handlers), ("edges", edges)]
  | emitted tasks handlers diagnostics =>
    [("tasks", tasks), ("handlers", handlers), ("diagnostics", diagnostics)]

def logLine (p : Phase) : LogLine := LogLine.counts ("phase " ++ p.name) p.counts

end Phase

/-! ### The conversion -/

structure ComplexityCounts where
  simple : Nat
  moderate : Nat
  complex : Nat
deriving DecidableEq

structure RecipeSummary where
  declarations : Nat
  tasks : Nat
  handlers : Nat
  errors : Nat
  warnings : Nat
  complexity : ComplexityCounts
deriving DecidableEq

/-- A converted recipe. -/
structure RecipeConversion where
  source : Text
  tasks : List ConvertedTask
  handlers : List Handler
  diagnostics : List Diagnostic
  summary : RecipeSummary

/-- A converted recipe with the phases it went through. -/
structure RecipeRun where
  conversion : RecipeConversion
  phases : List Phase

def ComplexityCounts.ofTasks (tasks : List ConvertedTask) : ComplexityCounts :=
  let count (c : Complexity) := tasks.countP (·.complexity == c)
  ⟨count .simple, count .moderate, count .complex⟩

/-- The pieces of code kept as written in the name and the properties of a declaration. -/
def Declaration.verbatims (d : Declaration) : List Text :=
  d.name.verbatims ++ d.properties.flatMap (·.value.verbatims)

namespace RecipeStage

/-- All diagnostics of the recipe, in the order of the stages that give them. -/
def diagnostics (s : RecipeStage) (made : RecipeProducts) : List Diagnostic :=
  s.extraction.diagnostics ++ s.graph.diagnostics ++
    (made.tasks.flatMap (·.diagnostics) ++ made.handlers.flatMap (·.diagnostics))

def conversion (s : RecipeStage) (made : RecipeProducts) : RecipeConversion :=
  let tasks := made.tasks.map (·.result)
  let handlers := made.handlers.map (·.result)
  let diagnostics := Diagnostic.sort (s.diagnostics made)
  { source := s.source, tasks, handlers, diagnostics
    summary :=
      { declarations := s.extraction.declarations.length
        tasks := tasks.length
        handlers := handlers.length
        errors := Diagnostic.count .error diagnostics
        warnings := Diagnostic.count .warning diagnostics
        complexity := .ofTasks tasks } }

/-- The phases of the recipe, whose text has the given length. -/
def phases (s : RecipeStage) (made : RecipeProducts) (length : Nat) : List Phase :=
  let declarations := s.extraction.declarations
  let unresolved := (s.ready.flatMap (·.diagnostics)).countP (·.kind == .unresolved)
  let c := s.conversion made
  [.unparsed length,
   .extracted declarations.length (Diagnostic.count .error s.extraction.diagnostics),
   .normalized declarations.length (declarations.flatMap Declaration.verbatims).length,
   .resolved s.ready.length unresolved,
   .mapped c.tasks.length c.handlers.length s.graph.edges.length,
   .emitted c.tasks.length c.handlers.length c.diagnostics.length]

end RecipeStage

namespace RecipeRun

def ofText (env : RecipeEnvironment) (file : SourceFile) : Except MappingError RecipeRun := do
  let stage := RecipeStage.ofText env file.source file.text
  let made ← stage.products
  return ⟨stage.conversion made, stage.phases made file.text.length⟩

/-- The log of the conversion: its phases, then its errors, all with the file. -/
def log (r : RecipeRun) : List LogLine :=
  (r.phases.map Phase.logLine ++ LogLine.ofErrors r.conversion.diagnostics).map
    (·.note "source" (.text r.conversion.source))

end RecipeRun

end Cookbook
