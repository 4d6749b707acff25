import Cookbook.Declaration.Kind
import Cookbook.Diagnostic.Reason
import Cookbook.Problem

/-!
Findings: everything a conversion may have to say about its input, each with the names and the
source text it speaks of. The reason code and the wording are functions of the finding.
-/

namespace Cookbook

inductive Finding where
  /-- The structure of the file is broken. -/
  | broken (fault : Fault)
  /-- An expression outside the recognized forms. -/
  | unrecognizedValue (raw : Text)
  /-- A value computed at converge time. -/
  | lazyValue (raw : Text)
  /-- A constant that the file does not define. -/
  | unknownConstant (raw : Text)
  /-- An action that is not given by literal symbols. -/
  | actionNotLiteral (raw : Text)
  /-- A property that is given a code block. -/
  | codeBlock (property : Text)
  /-- A resource declared in a loop. -/
  | inLoop (type : Text)
  /-- A resource declared under a condition in a loop. -/
  | conditionInLoop (type : Text)
  /-- Properties under a condition in a resource block. -/
  | conditionalProperties
  /-- A property with a trailing modifier in a resource block. -/
  | modifiedProperty (keyword : Text)
  /-- A compound statement in a resource block. -/
  | compoundInBody (keyword : Text)
  /-- Another statement in a resource block. -/
  | statementInBody (raw : Text)
  /-- A call with a block that declares nothing by itself. -/
  | blockOwner (raw : Text)
  /-- A statement that declares nothing. -/
  | statement (raw : Text)
  /-- An attribute assignment with a trailing modifier. -/
  | modifiedAssignment (keyword : Text)
  /-- Attribute assignments under a condition. -/
  | conditionalAssignments (keyword : Text)
  /-- A statement of an attribute file that assigns nothing. -/
  | notAssignment (raw : Text)
  /-- An assignment in an attribute file to something that is no attribute. -/
  | notAttribute (raw : Text)
  /-- A compound statement in an attribute file. -/
  | notAssignmentBlock (keyword : Text)
  /-- An attribute path that no attribute file gives a value. -/
  | unresolvedPath (keys : List Text)
  /-- An attribute whose value refers back to itself. -/
  | referenceCycle (keys : List Text)
  /-- A guard with neither a command nor a block. -/
  | emptyGuard (kind : GuardKind)
  /-- A guard that could not be read. -/
  | unreadGuard (kind : GuardKind) (raw : Text)
  /-- An enclosing condition that could not be read. -/
  | unreadContext (raw : Text)
  /-- A notification without an action or without a target. -/
  | incompleteNotification (direction : Direction)
  /-- A notification whose action is not a literal. -/
  | notificationAction (direction : Direction)
  /-- A notification with an unknown timing. -/
  | unknownTiming (raw : Text)
  /-- A notification that should run before the resource. -/
  | beforeTiming
  /-- A notification whose other end is not declared in the recipe. -/
  | unresolvedTarget (direction : Direction) (ref : Text)
  /-- A second property of one resource that would take its name. -/
  | duplicateNameProperty (property : Text)
  /-- A property declaration without a name. -/
  | namelessProperty (raw : Text)
  /-- A required property that is not set. -/
  | missingRequired (property type : Text)
  /-- A property whose value has the wrong class. -/
  | typeMismatch (property type expected : Text)
  /-- A property that the resource does not define. -/
  | unknownProperty (property type : Text)
  /-- An action that the resource does not define. -/
  | unknownAction (action type : Text)
  /-- A resource type without a module. -/
  | unrecognizedType (type placeholder : Text)
  /-- An action without an equivalent in the module. -/
  | unsupportedAction (action type module : Text)
  /-- A property without an equivalent in the module. -/
  | droppedProperty (property type module : Text)
  /-- A declaration that searches the server. -/
  | searchQuery
deriving DecidableEq

namespace Finding

/-- The reason code under which a finding is reported. -/
def code : Finding → ReasonCode
  | broken (.openString _) => .stringUnterminated
  | broken (.openHeredoc _) => .heredocUnterminated
  | broken .openDo => .blockUnterminated
  | broken .openBrace => .blockUnterminated
  | broken (.openKeyword _) => .blockUnterminated
  | broken (.openBracket _) => .delimiterUnbalanced
  | broken (.strayCloser _) => .blockUnexpectedEnd
  | unrecognizedValue _ | actionNotLiteral _ | codeBlock _ => .valueUnrecognized
  | lazyValue _ => .valueLazy
  | unknownConstant _ => .valueUnknownConstant
  | inLoop _ => .declarationInLoop
  | conditionInLoop _ => .declarationNestedControlFlow
  | conditionalProperties | modifiedProperty _ => .declarationConditionalProperty
  | compoundInBody _ | statementInBody _ | blockOwner _ | statement _ => .statementUnrecognized
  | modifiedAssignment _ | conditionalAssignments _ => .attributeConditional
  | notAssignment _ | notAttribute _ | notAssignmentBlock _ => .attributeUnsupportedStatement
  | unresolvedPath _ => .attributeUnresolved
  | referenceCycle _ => .attributeCycle
  | emptyGuard _ | unreadGuard _ _ => .guardManualReview
  | unreadContext _ => .guardConditionOpaque
  | incompleteNotification _ | notificationAction _ | unknownTiming _ => .notifyMalformed
  | beforeTiming => .notifyBeforeTiming
  | unresolvedTarget _ _ => .notifyUnresolvedTarget
  | duplicateNameProperty _ => .schemaDuplicateNameProperty
  | namelessProperty _ => .schemaMalformedDeclaration
  | missingRequired _ _ => .schemaMissingRequired
  | typeMismatch _ _ _ => .schemaTypeMismatch
  | unknownProperty _ _ => .schemaUnknownProperty
  | unknownAction _ _ => .schemaUnknownAction
  | unrecognizedType _ _ => .mappingUnrecognizedType
  | unsupportedAction _ _ _ => .mappingUnsupportedAction
  | droppedProperty _ _ _ => .mappingDroppedProperty
  | searchQuery => .mappingSearchQuery

/-- An attribute path as recipes write it. -/
def pathText (keys : List Text) : Text :=
  let access (key : Text) : Text := "['" ++ key ++ "']"
  "node" ++ keys.flatMap access

/-- The other end of a notification, as messages call it. -/
def otherEnd : Direction → Text
  | .notifies => "notification target"
  | .subscribes => "subscribed resource"

def message : Finding → Text
  | broken fault => fault.message
  | unrecognizedValue raw => "unrecognized expression " ++ raw.quoted ++ " was kept as-is"
  | lazyValue raw =>
    "lazy value " ++ raw.quoted ++ " is evaluated at converge time and was kept as-is"
  | unknownConstant raw =>
    "constant " ++ raw.quoted ++ " is not defined in this file and was kept as-is"
  | actionNotLiteral raw => "action " ++ raw.quoted ++ " is not a literal symbol"
  | codeBlock property => property.quoted ++ " takes a code block, kept as-is"
  | inLoop type => type ++ " is declared inside a loop; the loop is not expanded"
  | conditionInLoop type =>
    type ++ " sits under a condition inside a loop; review the generated condition"
  | conditionalProperties =>
    "properties set under a condition inside a resource block; only the first branch is used"
  | modifiedProperty keyword =>
    "property set under a trailing " ++ keyword.quoted ++
      " inside a resource block; kept as if the condition held"
  | compoundInBody keyword => keyword.quoted ++ " inside a resource block was not converted"
  | statementInBody raw =>
    "statement " ++ raw.quoted ++ " inside a resource block was not converted"
  | blockOwner raw =>
    "block owner " ++ raw.quoted ++ " was not converted; its body is still scanned"
  | statement raw => "statement " ++ raw.quoted ++ " was not converted"
  | modifiedAssignment keyword =>
    "assignment under a trailing " ++ keyword.quoted ++
      " depends on converge-time data; it is kept"
  | conditionalAssignments keyword =>
    "assignments under " ++ keyword.quoted ++
      " depend on converge-time data; every branch is kept"
  | notAssignment raw => raw.quoted ++ " is not an attribute assignment and was skipped"
  | notAttribute raw =>
    "assignment to " ++ raw.quoted ++ " is not an attribute assignment and was skipped"
  | notAssignmentBlock keyword =>
    keyword.quoted ++ " block is not an attribute assignment and was skipped"
  | unresolvedPath keys =>
    pathText keys ++ " has no effective value in the cookbook attributes; kept as a variable"
  | referenceCycle keys => pathText keys ++ " refers back to itself; kept as a variable"
  | emptyGuard kind => kind.word.quoted ++ " without a command or block"
  | unreadGuard kind raw =>
    kind.word ++ " " ++ raw.quoted ++ " could not be translated; manual review required"
  | unreadContext raw =>
    "enclosing condition " ++ raw.quoted ++ " could not be translated; manual review required"
  | incompleteNotification direction => direction.word.quoted ++ " needs an action and a target"
  | notificationAction direction => direction.word.quoted ++ " action is not a literal symbol"
  | unknownTiming raw => "unknown notification timing " ++ raw.quoted ++ ", using delayed"
  | beforeTiming => "':before' timing has no direct equivalent; treated as immediate"
  | unresolvedTarget direction ref =>
    otherEnd direction ++ " " ++ ref.quoted ++
      " is not declared in this recipe; resolve it against the rest of the cookbook"
  | duplicateNameProperty property =>
    property.quoted ++ " is a second name property; the first one is kept"
  | namelessProperty raw => raw.quoted ++ " does not name a property"
  | missingRequired property type =>
    "required property " ++ property.quoted ++ " of " ++ type.quoted ++ " is not set"
  | typeMismatch property type expected =>
    "property " ++ property.quoted ++ " of " ++ type.quoted ++ " expects " ++ expected ++
      "; passed through unchanged"
  | unknownProperty property type =>
    type.quoted ++ " declares no property " ++ property.quoted ++ "; passed through"
  | unknownAction action type => type.quoted ++ " defines no action " ++ action.quoted
  | unrecognizedType type placeholder =>
    "resource type " ++ type.quoted ++
      " has no module mapping and no resource definition; emitted as a " ++ placeholder ++
      " placeholder"
  | unsupportedAction action type module =>
    "action " ++ action.quoted ++ " of " ++ type.quoted ++ " has no " ++ module ++
      " equivalent; skipped"
  | droppedProperty property type module =>
    "property " ++ property.quoted ++ " of " ++ type.quoted ++ " has no " ++ module ++
      " parameter; dropped"
  | searchQuery =>
    "search() queries the Chef server at converge time; build the host list from inventory " ++
      "groups or ansible.builtin.add_host and filter it with a when condition"

end Finding

end Cookbook
