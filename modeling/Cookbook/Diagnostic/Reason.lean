import Cookbook.Text.Basic

/-!
Reason codes: the stable names under which findings are reported, and the kind and the severity
that each code carries.
-/

namespace Cookbook

inductive FindingKind where
  | structural | unrecognized | unresolved | violation
deriving DecidableEq

def FindingKind.name : FindingKind → Text
  | structural => "StructuralParseError"
  | unrecognized => "UnrecognizedConstruct"
  | unresolved => "UnresolvedReference"
  | violation => "SchemaViolation"

inductive Severity where
  | warning | error
deriving DecidableEq

def Severity.name : Severity → Text
  | warning => "warning"
  | error => "error"

/-- Broken structure is an error; everything else is a warning. -/
def FindingKind.severity : FindingKind → Severity
  | structural => .error
  | _ => .warning

inductive ReasonCode where
  | blockUnterminated | blockUnexpectedEnd | delimiterUnbalanced | stringUnterminated
  | heredocUnterminated
  | valueUnrecognized | valueLazy | valueUnknownConstant
  | declarationInLoop | declarationConditionalProperty | declarationNestedControlFlow
  | statementUnrecognized
  | attributeConditional | attributeUnsupportedStatement | attributeUnresolved | attributeCycle
  | guardManualReview | guardConditionOpaque
  | notifyUnresolvedTarget | notifyMalformed | notifyBeforeTiming
  | schemaDuplicateNameProperty | schemaMissingRequired | schemaTypeMismatch
  | schemaUnknownProperty | schemaUnknownAction | schemaMalformedDeclaration
  | mappingUnrecognizedType | mappingUnsupportedAction | mappingDroppedProperty
  | mappingSearchQuery
deriving DecidableEq

namespace ReasonCode

/-- All reason codes, by the stage that reports them. -/
def all : List ReasonCode :=
  [blockUnterminated, blockUnexpectedEnd, delimiterUnbalanced, stringUnterminated,
   heredocUnterminated, valueUnrecognized, valueLazy, valueUnknownConstant, declarationInLoop,
   declarationConditionalProperty, declarationNestedControlFlow, statementUnrecognized,
   attributeConditional, attributeUnsupportedStatement, attributeUnresolved, attributeCycle,
   guardManualReview, guardConditionOpaque, notifyUnresolvedTarget, notifyMalformed,
   notifyBeforeTiming, schemaDuplicateNameProperty, schemaMissingRequired, schemaTypeMismatch,
   schemaUnknownProperty, schemaUnknownAction, schemaMalformedDeclaration,
   mappingUnrecognizedType, mappingUnsupportedAction, mappingDroppedProperty, mappingSearchQuery]

/-- The stable name of a code: the stage and the reason. -/
def text : ReasonCode → Text
  | blockUnterminated => "block.unterminated"
  | blockUnexpectedEnd => "block.unexpected_end"
  | delimiterUnbalanced => "block.unbalanced_delimiter"
  | stringUnterminated => "lexer.unterminated_string"
  | heredocUnterminated => "lexer.unterminated_heredoc"
  | valueUnrecognized => "value.unrecognized"
  | valueLazy => "value.lazy"
  | valueUnknownConstant => "value.unknown_constant"
  | declarationInLoop => "declaration.in_loop"
  | declarationConditionalProperty => "declaration.conditional_property"
  | declarationNestedControlFlow => "declaration.nested_control_flow"
  | statementUnrecognized => "statement.unrecognized"
  | attributeConditional => "attribute.conditional_assignment"
  | attributeUnsupportedStatement => "attribute.unsupported_statement"
  | attributeUnresolved => "attribute.unresolved_path"
  | attributeCycle => "attribute.reference_cycle"
  | guardManualReview => "guard.manual_review"
  | guardConditionOpaque => "guard.context_opaque"
  | notifyUnresolvedTarget => "notify.unresolved_target"
  | notifyMalformed => "notify.malformed"
  | notifyBeforeTiming => "notify.before_timing"
  | schemaDuplicateNameProperty => "schema.duplicate_name_property"
  | schemaMissingRequired => "schema.missing_required"
  | schemaTypeMismatch => "schema.type_mismatch"
  | schemaUnknownProperty => "schema.unknown_property"
  | schemaUnknownAction => "schema.unknown_action"
  | schemaMalformedDeclaration => "schema.malformed_declaration"
  | mappingUnrecognizedType => "mapping.unrecognized_type"
  | mappingUnsupportedAction => "mapping.unsupported_action"
  | mappingDroppedProperty => "mapping.dropped_property"
  | mappingSearchQuery => "mapping.search_query"

/-- The word by which a code is referred to. -/
def label : ReasonCode → Text
  | blockUnterminated => "blockUnterminated"
  | blockUnexpectedEnd => "blockUnexpectedEnd"
  | delimiterUnbalanced => "delimiterUnbalanced"
  | stringUnterminated => "stringUnterminated"
  | heredocUnterminated => "heredocUnterminated"
  | valueUnrecognized => "valueUnrecognized"
  | valueLazy => "valueLazy"
  | valueUnknownConstant => "valueUnknownConstant"
  | declarationInLoop => "declarationInLoop"
  | declarationConditionalProperty => "declarationConditionalProperty"
  | declarationNestedControlFlow => "declarationNestedControlFlow"
  | statementUnrecognized => "statementUnrecognized"
  | attributeConditional => "attributeConditional"
  | attributeUnsupportedStatement => "attributeUnsupportedStatement"
  | attributeUnresolved => "attributeUnresolved"
  | attributeCycle => "attributeCycle"
  | guardManualReview => "guardManualReview"
  | guardConditionOpaque => "guardConditionOpaque"
  | notifyUnresolvedTarget => "notifyUnresolvedTarget"
  | notifyMalformed => "notifyMalformed"
  | notifyBeforeTiming => "notifyBeforeTiming"
  | schemaDuplicateNameProperty => "schemaDuplicateNameProperty"
  | schemaMissingRequired => "schemaMissingRequired"
  | schemaTypeMismatch => "schemaTypeMismatch"
  | schemaUnknownProperty => "schemaUnknownProperty"
  | schemaUnknownAction => "schemaUnknownAction"
  | schemaMalformedDeclaration => "schemaMalformedDeclaration"
  | mappingUnrecognizedType => "mappingUnrecognizedType"
  | mappingUnsupportedAction => "mappingUnsupportedAction"
  | mappingDroppedProperty => "mappingDroppedProperty"
  | mappingSearchQuery => "mappingSearchQuery"

def kind : ReasonCode → FindingKind
  | blockUnterminated | blockUnexpectedEnd | delimiterUnbalanced | stringUnterminated
  | heredocUnterminated => .structural
  | valueUnknownConstant | attributeUnresolved | attributeCycle
  | notifyUnresolvedTarget => .unresolved
  | schemaDuplicateNameProperty | schemaMissingRequired | schemaTypeMismatch
  | schemaUnknownProperty | schemaUnknownAction | schemaMalformedDeclaration => .violation
  | _ => .unrecognized

end ReasonCode

end Cookbook
