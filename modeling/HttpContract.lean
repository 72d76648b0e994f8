import HttpContract.Binary64
import HttpContract.Binary64.Decimal
import HttpContract.Demo
import HttpContract.Evaluation.Assertion
import HttpContract.Evaluation.Build
import HttpContract.Evaluation.Evaluator
import HttpContract.Evaluation.Format
import HttpContract.Evaluation.Library
import HttpContract.Evaluation.Metaschema
import HttpContract.Evaluation.Pattern
import HttpContract.Evaluation.Violation
import HttpContract.Fields
import HttpContract.Http.Form
import HttpContract.Http.Message
import HttpContract.Http.Routing
import HttpContract.Json
import HttpContract.Json.Parser
import HttpContract.Json.Pointer
import HttpContract.Json.Printer
import HttpContract.OpenApi.Exploration
import HttpContract.OpenApi.Rewriting
import HttpContract.Operation.Schemas
import HttpContract.Operation.Table
import HttpContract.Proofs.AcceptedTexts
import HttpContract.Proofs.Accordance
import HttpContract.Proofs.Acyclic
import HttpContract.Proofs.Agreement
import HttpContract.Proofs.Approval
import HttpContract.Proofs.Assembling
import HttpContract.Proofs.BasicSchemas
import HttpContract.Proofs.Blindness
import HttpContract.Proofs.Building
import HttpContract.Proofs.Circularity
import HttpContract.Proofs.Closure
import HttpContract.Proofs.Collecting
import HttpContract.Proofs.Composition
import HttpContract.Proofs.Conformance
import HttpContract.Proofs.Contexts
import HttpContract.Proofs.Conversions
import HttpContract.Proofs.Correspondence
import HttpContract.Proofs.CorrespondingTexts
import HttpContract.Proofs.Counterparts
import HttpContract.Proofs.Coverage
import HttpContract.Proofs.CycleSearch
import HttpContract.Proofs.Dangling
import HttpContract.Proofs.DeclarationOrder
import HttpContract.Proofs.DeclarationReaders
import HttpContract.Proofs.Declarations
import HttpContract.Proofs.Declaring
import HttpContract.Proofs.Dependencies
import HttpContract.Proofs.Descriptions
import HttpContract.Proofs.Dispatching
import HttpContract.Proofs.Effects
import HttpContract.Proofs.EmptyBodies
import HttpContract.Proofs.Encoding
import HttpContract.Proofs.Endorsement
import HttpContract.Proofs.Enforcement
import HttpContract.Proofs.Exploring
import HttpContract.Proofs.Failures
import HttpContract.Proofs.Faithfulness
import HttpContract.Proofs.FaultPlaces
import HttpContract.Proofs.FirstErrors
import HttpContract.Proofs.Handing
import HttpContract.Proofs.Identifiers
import HttpContract.Proofs.Judging
import HttpContract.Proofs.Loading
import HttpContract.Proofs.Lockstep
import HttpContract.Proofs.LoweredValues
import HttpContract.Proofs.Metaschema
import HttpContract.Proofs.NamedSchemas
import HttpContract.Proofs.Numerals
import HttpContract.Proofs.Parameters
import HttpContract.Proofs.Places
import HttpContract.Proofs.PlainTexts
import HttpContract.Proofs.Planning
import HttpContract.Proofs.Plans
import HttpContract.Proofs.Pointers
import HttpContract.Proofs.Pointwise
import HttpContract.Proofs.Positions
import HttpContract.Proofs.Rebuilding
import HttpContract.Proofs.ReferenceChains
import HttpContract.Proofs.ReferenceNames
import HttpContract.Proofs.References
import HttpContract.Proofs.Registering
import HttpContract.Proofs.Reindexing
import HttpContract.Proofs.Relinking
import HttpContract.Proofs.Reloading
import HttpContract.Proofs.RemainingKeys
import HttpContract.Proofs.RenamedEvaluators
import HttpContract.Proofs.RenamedLibraries
import HttpContract.Proofs.Renaming
import HttpContract.Proofs.RenderedKeys
import HttpContract.Proofs.RenumberedEngines
import HttpContract.Proofs.Renumbering
import HttpContract.Proofs.Replacement
import HttpContract.Proofs.RequiredKeys
import HttpContract.Proofs.Rereading
import HttpContract.Proofs.ResponseKeys
import HttpContract.Proofs.Retention
import HttpContract.Proofs.Rewriting
import HttpContract.Proofs.Satisfaction
import HttpContract.Proofs.Shapes
import HttpContract.Proofs.Shaping
import HttpContract.Proofs.SingleBranch
import HttpContract.Proofs.Sites
import HttpContract.Proofs.Sorted
import HttpContract.Proofs.Steadiness
import HttpContract.Proofs.Strictness
import HttpContract.Proofs.Sufficiency
import HttpContract.Proofs.Survival
import HttpContract.Proofs.Termination
import HttpContract.Proofs.TextTermination
import HttpContract.Proofs.Tracing
import HttpContract.Proofs.Translated
import HttpContract.Proofs.Transparency
import HttpContract.Proofs.Unreferenced
import HttpContract.Proofs.Validation
import HttpContract.Proofs.Verdicts
import HttpContract.Proofs.ViolationPlaces
import HttpContract.Proofs.Visits
import HttpContract.Proofs.Walk
import HttpContract.Proofs.WellFormedTexts
import HttpContract.Proofs.WholeNumbers
import HttpContract.Proofs.Withholding
import HttpContract.Proofs.Writing
import HttpContract.Report
import HttpContract.Schema.Coercion
import HttpContract.Schema.CompileError
import HttpContract.Schema.Engine
import HttpContract.Schema.EvaluationForm
import HttpContract.Schema.Fragment
import HttpContract.Schema.Keywords
import HttpContract.Schema.Marker
import HttpContract.Schema.Normalization
import HttpContract.Schema.NumberText
import HttpContract.Schema.Options
import HttpContract.Schema.Plan
import HttpContract.Schema.Planning
import HttpContract.Schema.Registry
import HttpContract.Schema.Rendering
import HttpContract.Service.Exception
import HttpContract.Service.Exchange
import HttpContract.Service.Extraction
import HttpContract.Service.Gate
import HttpContract.Service.Handlers
import HttpContract.Service.Repository
import HttpContract.Service.Settings
import HttpContract.Service.Setup
import HttpContract.Service.StatusKey
import HttpContract.Text.Ascii
import HttpContract.Text.Category
import HttpContract.Text.Percent
import HttpContract.Text.Radix
import HttpContract.Text.Uri
import HttpContract.Text.Utf8
import HttpContract.Text.Visible
import HttpContract.Yaml.Cursor
import HttpContract.Yaml.Lowering
import HttpContract.Yaml.Node
import HttpContract.Yaml.Scalar
import HttpContract.Yaml.Token
import HttpContract.Yaml.Value
