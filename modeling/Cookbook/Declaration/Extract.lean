import Cookbook.Declaration.Body
import Cookbook.Statement.Parser

/-!
The resource declarations of a recipe, in order, each with the conditions around it. Branches,
loops and blocks of other calls are entered; names set by plain assignments are followed from there
on; what declares nothing is reported.
-/

namespace Cookbook

/-- The words that take a name and a block and declare nothing. -/
def notResources : List Text :=
  ["action", "action_class", "attribute", "describe", "context", "it", "load_current_value",
   "property", "raise", "require", "require_relative", "puts", "p", "pp"].map Text.ofString

/-- The methods whose block is run for each of some items. -/
def iterators : List Text :=
  ["each", "each_with_index", "each_pair", "each_key", "each_value", "each_slice",
   "each_with_object", "map", "flat_map", "select", "times", "upto", "downto", "step",
   "loop"].map Text.ofString

/-- What surrounds a statement: the conditions, outermost first, and whether there is a loop. -/
structure Surroundings where
  context : List ContextCondition
  inLoop : Bool

/-- What extraction needs to know of a recipe: the file, and the types that need no block. -/
structure RecipeReader where
  source : Text
  program : Program
  knownTypes : List Text

/-- What has been extracted: names in force, declarations and diagnostics. -/
structure Extraction where
  constants : Bindings Value
  declarations : List Declaration
  diagnostics : List Diagnostic

namespace RecipeReader

def text (r : RecipeReader) : Text := r.program.text

def sourceOf (r : RecipeReader) (run : List Token) : Text := r.program.sourceOf run

/-- The reader of values with the names in force. -/
def ctx (r : RecipeReader) (e : Extraction) : NormalizeContext :=
  ⟨r.source, r.program.lines, e.constants⟩

/-- The stretch of a run, or the empty one at an offset for an empty run. -/
def runSpan (r : RecipeReader) (run : List Token) (fallback : Nat) : Span :=
  match run.head?, run.getLast? with
  | some first, some last => r.program.lines.span first.start last.stop
  | _, _ => r.program.lines.spot fallback

def report (r : RecipeReader) (e : Extraction) (span : Span) (finding : Finding) : Extraction :=
  { e with diagnostics := e.diagnostics ++ [⟨finding, r.source, span, none⟩] }

/-! ### Declarations -/

/-- Whether a text calls `search`: the word by itself, then blanks and a parenthesis. `inWord` when
the text continues a word. -/
def callsSearch (inWord : Bool) : Text → Bool
  | [] => false
  | c :: rest =>
    (!inWord && ("search" : Text).isPrefixOf (c :: rest) &&
      (Text.trimStart ((c :: rest).drop 6)).head? == some '(') ||
    callsSearch c.isNameUnit rest

/-- The warnings about a declaration in a loop. -/
def loopFindings (type : Text) (around : Surroundings) : List Finding :=
  if !around.inLoop then []
  else if around.context.isEmpty then [.inLoop type]
  else [.inLoop type, .conditionInLoop type]

/-- The declaration of a resource of the given type, whose name is the given run. -/
def declare (r : RecipeReader) (type : Text) (c : Command) (nameRun : List Token)
    (around : Surroundings) (e : Extraction) : Extraction :=
  let ctx := r.ctx e
  let name := ctx.normalize nameRun
  let span := r.program.spanOf c.extent
  let body := readBodyList ctx false ((c.block.map (·.body)).getD []) (.start name.diagnostics)
  let loops := (loopFindings type around).map fun f => (⟨f, r.source, span, none⟩ : Diagnostic)
  let declaration : Declaration :=
    { type, name := name.value, actions := body.actions, properties := body.properties
      guards := body.guards, notifications := body.notifications
      context := around.context, inLoop := around.inLoop
      malformed := c.block.any (·.closer.isNone)
      usesSearch := callsSearch false (r.text.slice c.extent.start c.extent.stop)
      span, source := r.source }
  { e with
    diagnostics := e.diagnostics ++ (body.diagnostics ++ loops).map (·.about declaration.ref)
    declarations := e.declarations ++ [declaration] }

/-! ### Commands -/

/-- The name that a command assigns. -/
def assignedName? (c : Command) : Option Text :=
  match c.head with
  | target :: eq :: _ =>
    if eq.isPunct ["="] then (target.valueOf? .const).or (target.valueOf? .ident) else none
  | _ => none

/-- The names in force after an assignment. A value that is kept as written or depends on a
condition makes the name unknown; a value with a block changes nothing. -/
def assign (r : RecipeReader) (c : Command) (name : Text) (e : Extraction) : Extraction :=
  if c.block.isSome then e
  else if c.modifier.isSome then { e with constants := e.constants.erase name }
  else
    let v := ((r.ctx e).normalize (c.head.drop 2)).value
    if v.isVerbatim then { e with constants := e.constants.erase name }
    else { e with constants := e.constants.set name v }

/-- The surroundings that a trailing modifier adds to: a condition, or a loop. -/
def modified (r : RecipeReader) (modifier : Option Modifier) (around : Surroundings) :
    Surroundings :=
  match modifier with
  | none => around
  | some m =>
    if m.word = .whileTrue ∨ m.word = .untilTrue then { around with inLoop := true }
    else
      let condition : ContextCondition :=
        ⟨.test (r.sourceOf m.condition), m.word == .unlessTrue, r.runSpan m.condition m.start⟩
      { around with context := around.context ++ [condition] }

/-- Whether the block of a command is run for each of some items. -/
def isIterator (c : Command) : Bool :=
  let calls := c.head.zip (c.head.drop 1)
  c.head.head?.any (·.isIdent ["loop"]) ||
    calls.any fun (dot, method) => dot.isPunct [".", "&."] && method.isIdent iterators

/-- The type and the name of the resource that a command declares. -/
def declared? (r : RecipeReader) (c : Command) : Option (Text × List Token) := do
  let (word, args) ← c.plainCall?
  let names := args.filterMap Argument.positional?
  if word = ("include_recipe" : Text) then return (word, ← names.head?)
  else
    match names with
    | [name] =>
      if notResources.contains word || c.head.tail.head?.any Token.continuesExpression then none
      else if c.block.isSome || r.knownTypes.contains word then return (word, name)
      else none
    | _ => none

/-- The surroundings and the condition of a branch, given the conditions of those before it. -/
def branchCondition? (r : RecipeReader) (subject : Text) (word : BranchWord)
    (condition : List Token)
    (start : Nat) : Option ContextCondition :=
  let span := r.runSpan condition start
  if word = .matching ∧ subject ≠ [] then
    let pieces := splitTopLevel "," condition
    let pieces := if pieces.getLast?.any (·.isEmpty) then pieces.dropLast else pieces
    some ⟨.oneOf subject (pieces.map r.sourceOf), false, span⟩
  else if word = .otherwise then none
  else some ⟨.test (r.sourceOf condition), word == .unlessTrue, span⟩

end RecipeReader

mutual

/-- One statement of a recipe. -/
def Statement.extract (r : RecipeReader) (around : Surroundings) :
    Statement → Extraction → Extraction
  | .command c, e => c.extract r around e
  | .conditional ⟨_, _, subject, branches, _, _⟩, e =>
    extractBranches r around (r.sourceOf subject) [] branches e
  | .compound ⟨_, _, body, opener, _⟩, e =>
    if opener.text = ("begin" : Text) then extractList r around body e
    else if isLoopWord opener.text then extractList r { around with inLoop := true } body e
    else e

/-- A command of a recipe: an assignment, a declaration, the owner of a block, or anything else. -/
def Command.extract (r : RecipeReader) (around : Surroundings) : Command → Extraction → Extraction
  | ⟨extent, head, block, inner, modifier⟩, e =>
    let c : Command := ⟨extent, head, block, inner, modifier⟩
    let span := r.program.spanOf extent
    match RecipeReader.assignedName? c with
    | some name => r.assign c name e
    | none =>
      let around := r.modified modifier around
      match r.declared? c with
      | some (type, name) => r.declare type c name around e
      | none =>
        match block with
        | some ⟨_, _, _, _, body⟩ =>
          if RecipeReader.isIterator c then extractList r { around with inLoop := true } body e
          else extractList r around body (r.report e span (.blockOwner (r.sourceOf head)))
        | none => r.report e span (.statement (r.sourceOf head))

def extractList (r : RecipeReader) (around : Surroundings) :
    List Statement → Extraction → Extraction
  | [], e => e
  | s :: rest, e => extractList r around rest (s.extract r around e)

/-- The branches of a conditional: each stands under its own condition and the opposites of those
before it. -/
def extractBranches (r : RecipeReader) (around : Surroundings) (subject : Text) :
    (prior : List ContextCondition) → List Branch → Extraction → Extraction
  | _, [], e => e
  | prior, ⟨word, condition, body, start⟩ :: rest, e =>
    let own := r.branchCondition? subject word condition start
    let inside := { around with context := around.context ++ prior ++ own.toList }
    let prior := prior ++ (own.map ContextCondition.negate).toList
    extractBranches r around subject prior rest (extractList r inside body e)

end

/-- What a program declares, starting with the given names in force. -/
def Program.extract (p : Program) (source : Text) (knownTypes : List Text)
    (constants : Bindings Value) :
    Extraction :=
  let r : RecipeReader := ⟨source, p, knownTypes⟩
  extractList r ⟨[], false⟩ p.statements
    ⟨constants, [], p.problems.map (Diagnostic.ofProblem source p.lines)⟩

/-- What a recipe declares. -/
def extractDeclarations (source text : Text) (knownTypes : List Text) (constants : Bindings Value) :
    Extraction :=
  (Program.ofText text).extract source knownTypes constants

end Cookbook
