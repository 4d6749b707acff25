import Cookbook.Attribute.Basic
import Cookbook.Attribute.File
import Cookbook.Attribute.Table
import Cookbook.Call
import Cookbook.Condition.Basic
import Cookbook.Condition.Command
import Cookbook.Condition.Guard
import Cookbook.Condition.Parser
import Cookbook.Condition.Render
import Cookbook.Conversion.Basic
import Cookbook.Conversion.Log
import Cookbook.Conversion.Prepared
import Cookbook.Conversion.Recipe
import Cookbook.Conversion.Settings
import Cookbook.Declaration.Basic
import Cookbook.Declaration.Body
import Cookbook.Declaration.Extract
import Cookbook.Declaration.Kind
import Cookbook.Declaration.Resolve
import Cookbook.Diagnostic.Basic
import Cookbook.Diagnostic.Finding
import Cookbook.Diagnostic.Reason
import Cookbook.Fields
import Cookbook.Inherited
import Cookbook.Notification.Graph
import Cookbook.Notification.Ref
import Cookbook.Number.Basic
import Cookbook.Number.Reading
import Cookbook.Number.Shortest
import Cookbook.Position
import Cookbook.Problem
import Cookbook.Proofs.Attribute.ConditionalAssignments
import Cookbook.Proofs.Attribute.ConditionalWrites
import Cookbook.Proofs.Attribute.Effective
import Cookbook.Proofs.Attribute.Lines
import Cookbook.Proofs.Attribute.Lookup
import Cookbook.Proofs.Attribute.Paths
import Cookbook.Proofs.Attribute.References
import Cookbook.Proofs.Attribute.RoundTrip
import Cookbook.Proofs.Attribute.Substitution
import Cookbook.Proofs.Attribute.Termination
import Cookbook.Proofs.Call
import Cookbook.Proofs.Call.Brackets
import Cookbook.Proofs.Call.Partition
import Cookbook.Proofs.Canonical.Extraction
import Cookbook.Proofs.Canonical.Items
import Cookbook.Proofs.Canonical.Lexing
import Cookbook.Proofs.Canonical.Parsing
import Cookbook.Proofs.Canonical.Pieces
import Cookbook.Proofs.Canonical.Reading
import Cookbook.Proofs.Canonical.Recipe
import Cookbook.Proofs.Condition.Binding
import Cookbook.Proofs.Condition.Chains
import Cookbook.Proofs.Condition.Expression
import Cookbook.Proofs.Condition.Grouping
import Cookbook.Proofs.Condition.Operands
import Cookbook.Proofs.Condition.Patterns
import Cookbook.Proofs.Condition.Printing
import Cookbook.Proofs.Condition.Recognition
import Cookbook.Proofs.Condition.RoundTrip
import Cookbook.Proofs.Condition.ShellSigns
import Cookbook.Proofs.Condition.Subjects
import Cookbook.Proofs.Condition.Truth
import Cookbook.Proofs.Condition.When
import Cookbook.Proofs.Conversion.Agreement
import Cookbook.Proofs.Conversion.Coverage
import Cookbook.Proofs.Conversion.Resolution
import Cookbook.Proofs.Conversion.Stability
import Cookbook.Proofs.Declaration.Accounting
import Cookbook.Proofs.Declaration.Arguments
import Cookbook.Proofs.Declaration.Assignments
import Cookbook.Proofs.Declaration.Body
import Cookbook.Proofs.Declaration.BodySteps
import Cookbook.Proofs.Declaration.Composition
import Cookbook.Proofs.Declaration.Embedding
import Cookbook.Proofs.Declaration.Reaching
import Cookbook.Proofs.Declaration.Reporting
import Cookbook.Proofs.Declaration.Resolution
import Cookbook.Proofs.Declaration.Separation
import Cookbook.Proofs.Declaration.Steps
import Cookbook.Proofs.Diagnostic.Order
import Cookbook.Proofs.FirstSeen
import Cookbook.Proofs.Lists
import Cookbook.Proofs.Notification.Graph
import Cookbook.Proofs.Notification.HandlerNames
import Cookbook.Proofs.Notification.Placement
import Cookbook.Proofs.Notification.References
import Cookbook.Proofs.Notification.Targets
import Cookbook.Proofs.Number.Integers
import Cookbook.Proofs.Number.Rounding
import Cookbook.Proofs.Number.Spelling
import Cookbook.Proofs.Outcome
import Cookbook.Proofs.Phrase
import Cookbook.Proofs.Position
import Cookbook.Proofs.Position.Order
import Cookbook.Proofs.Printed
import Cookbook.Proofs.Schema.Definition
import Cookbook.Proofs.Statement.Alike
import Cookbook.Proofs.Statement.Alone
import Cookbook.Proofs.Statement.Boundary
import Cookbook.Proofs.Statement.Branches
import Cookbook.Proofs.Statement.Calls
import Cookbook.Proofs.Statement.Covering
import Cookbook.Proofs.Statement.Fuel
import Cookbook.Proofs.Statement.Layout
import Cookbook.Proofs.Statement.Nesting
import Cookbook.Proofs.Statement.Notations
import Cookbook.Proofs.Statement.Prefix
import Cookbook.Proofs.Statement.Progress
import Cookbook.Proofs.Statement.Relabel
import Cookbook.Proofs.Statement.Repeats
import Cookbook.Proofs.Statement.Separation
import Cookbook.Proofs.Statement.Shift
import Cookbook.Proofs.Statement.Spanning
import Cookbook.Proofs.Statement.Steps
import Cookbook.Proofs.Statement.Termination
import Cookbook.Proofs.Statement.Within
import Cookbook.Proofs.Task.Assignment
import Cookbook.Proofs.Task.Destinations
import Cookbook.Proofs.Task.Identity
import Cookbook.Proofs.Task.Keywords
import Cookbook.Proofs.Task.Routes
import Cookbook.Proofs.Task.Sensitivity
import Cookbook.Proofs.Token.Bounds
import Cookbook.Proofs.Token.Code
import Cookbook.Proofs.Token.Dedent
import Cookbook.Proofs.Token.Faults
import Cookbook.Proofs.Token.Heredoc
import Cookbook.Proofs.Token.Inside
import Cookbook.Proofs.Token.Nesting
import Cookbook.Proofs.Token.Order
import Cookbook.Proofs.Token.Place
import Cookbook.Proofs.Token.RawHeredoc
import Cookbook.Proofs.Token.Resume
import Cookbook.Proofs.Token.Shift
import Cookbook.Proofs.Token.Tiling
import Cookbook.Proofs.Value.Brackets
import Cookbook.Proofs.Value.Forms
import Cookbook.Proofs.Value.Heads
import Cookbook.Proofs.Value.IntegerLiterals
import Cookbook.Proofs.Value.Interpolation
import Cookbook.Proofs.Value.Lexing
import Cookbook.Proofs.Value.NormalForm
import Cookbook.Proofs.Value.Places
import Cookbook.Proofs.Value.Printing
import Cookbook.Proofs.Value.Quoting
import Cookbook.Proofs.Value.Reading
import Cookbook.Proofs.Value.Reporting
import Cookbook.Proofs.Value.RoundTrip
import Cookbook.Proofs.Value.Steps
import Cookbook.Proofs.Value.Template
import Cookbook.Proofs.Value.TemplateReading
import Cookbook.Proofs.Value.Termination
import Cookbook.Schema.Constraint
import Cookbook.Schema.Definition
import Cookbook.Statement.Basic
import Cookbook.Statement.Cursor
import Cookbook.Statement.Parser
import Cookbook.Task.Basic
import Cookbook.Task.Mapping
import Cookbook.Task.Table
import Cookbook.Text.Basic
import Cookbook.Text.Case
import Cookbook.Text.Class
import Cookbook.Token.Basic
import Cookbook.Token.Lexeme
import Cookbook.Token.Lexer
import Cookbook.Token.Literal
import Cookbook.Value.Basic
import Cookbook.Value.Normalize
import Cookbook.Value.Render
