import GraphQL.Ast.Basic
import GraphQL.Ast.Checked
import GraphQL.Ast.Json
import GraphQL.Ast.Located
import GraphQL.Ast.Node
import GraphQL.Ast.OfTypeSystem
import GraphQL.Ast.Printer
import GraphQL.Ast.Tree
import GraphQL.Document
import GraphQL.Entries
import GraphQL.Error
import GraphQL.Execution.Collection
import GraphQL.Execution.Completion
import GraphQL.Execution.Interleaving
import GraphQL.Execution.Operation
import GraphQL.Execution.Problem
import GraphQL.Execution.Resolver
import GraphQL.Execution.Response
import GraphQL.Execution.Work
import GraphQL.Input.Arguments
import GraphQL.Input.Literal
import GraphQL.Input.Scalar
import GraphQL.Input.Value
import GraphQL.Input.Variables
import GraphQL.Json.Basic
import GraphQL.Json.Reader
import GraphQL.Json.Text
import GraphQL.Number.Binary64
import GraphQL.Number.Decimal
import GraphQL.Number.Integer
import GraphQL.Number.Power
import GraphQL.Schema.Basic
import GraphQL.Schema.Builtin
import GraphQL.Source.Executable
import GraphQL.Source.Lexer
import GraphQL.Source.Literal
import GraphQL.Source.Parser
import GraphQL.Source.Position
import GraphQL.Source.StringLiteral
import GraphQL.Source.Token
import GraphQL.Source.TypeSystem
import GraphQL.Text.Bytes
import GraphQL.Text.Lines
import GraphQL.TypeRef
import GraphQL.TypeSystem
import GraphQL.Validation.Directives
import GraphQL.Validation.Fields
import GraphQL.Validation.Fragments
import GraphQL.Validation.Operations
import GraphQL.Validation.Plan
import GraphQL.Validation.Rule
import GraphQL.Validation.Types
import GraphQL.Validation.Values
import GraphQL.Validation.Violation
import GraphQL.Visit.TypeContext
import GraphQL.Visit.Walk
import GraphQL.Proofs.Execution.Course
import GraphQL.Proofs.Execution.CourseOfRun
import GraphQL.Proofs.Execution.Collected
import GraphQL.Proofs.Execution.Regular
import GraphQL.Proofs.Execution.ResponseOrder
import GraphQL.Proofs.Execution.NullPropagation
import GraphQL.Proofs.Execution.Agreement
import GraphQL.Proofs.Execution.Scheduling
import GraphQL.Proofs.Execution.Conformance
import GraphQL.Proofs.Ast.Grammar
import GraphQL.Proofs.Ast.Parts
import GraphQL.Proofs.Visit.Positions
import GraphQL.Proofs.Visit.Steps
import GraphQL.Proofs.Visit.Calls
import GraphQL.Proofs.Visit.Discipline
import GraphQL.Proofs.Visit.Rebuilding
import GraphQL.Proofs.Visit.Tracking
import GraphQL.Proofs.Visit.Visits
import GraphQL.Proofs.Visit.LiteralVisits
import GraphQL.Proofs.Input.LiteralCoercion
import GraphQL.Proofs.Validation.Known
import GraphQL.Proofs.Validation.LiteralAgreement
import GraphQL.Proofs.Validation.Literals
import GraphQL.Proofs.Schema.Possible
import GraphQL.Proofs.Schema.Construction
import GraphQL.Proofs.Execution.KeysKept
import GraphQL.Proofs.Execution.Levels
import GraphQL.Proofs.Execution.Descent
import GraphQL.Proofs.Execution.Bounded
import GraphQL.Proofs.Execution.CompletedObjects
import GraphQL.Proofs.Execution.OneByOne
import GraphQL.Proofs.Execution.Behaviour
import GraphQL.Proofs.Execution.Alike
import GraphQL.Proofs.Execution.Independence
import GraphQL.Proofs.Execution.Interleavings
import GraphQL.Proofs.Source.Parsed
import GraphQL.Proofs.Source.DocumentText
import GraphQL.Proofs.Source.RoundTrip
import GraphQL.Proofs.Source.Located
import GraphQL.Proofs.Validation.VariableValues
import GraphQL.Proofs.Source.SchemaRoundTrip
import GraphQL.Proofs.Execution.CallOrder
import GraphQL.Proofs.Execution.Lookups
import GraphQL.Proofs.Execution.Reached
import GraphQL.Proofs.Execution.Reachability
import GraphQL.Proofs.Visit.NonNull
import GraphQL.Proofs.Number.Whole
import GraphQL.Proofs.Number.FloatLiteral
import GraphQL.Proofs.Input.Equations
import GraphQL.Proofs.Input.ValueCoercion
import GraphQL.Proofs.Input.LiteralReading
import GraphQL.Proofs.Input.ArgumentCoercion
import GraphQL.Proofs.Input.LiteralDelivery
import GraphQL.Proofs.Input.Defaults
import GraphQL.Proofs.Input.NullValues
import GraphQL.Proofs.Source.LiteralRoundTrip
import GraphQL.Proofs.Source.FirstTokens
import GraphQL.Proofs.Source.InlineFragments
import GraphQL.Proofs.Source.BlockStrings
import GraphQL.Proofs.Execution.Doubling
import GraphQL.Proofs.Input.Idempotence
import GraphQL.Proofs.Input.ErrorPaths
import GraphQL.Proofs.Input.VariableCoercion
import GraphQL.Proofs.Validation.UnusedFragments
import GraphQL.Proofs.Validation.DefinitionOrder
import GraphQL.Proofs.Validation.ArgumentHolders
import GraphQL.Proofs.Input.UntypedLiterals
import GraphQL.Proofs.Input.IntScalar
import GraphQL.Proofs.Input.ScalarResults
import GraphQL.Proofs.Execution.FragmentConditions
