import DesignTokens.Audit.Contrast
import DesignTokens.Audit.Coverage
import DesignTokens.Audit.Document
import DesignTokens.Audit.Health
import DesignTokens.Audit.Named
import DesignTokens.Audit.Pairing
import DesignTokens.Audit.Patterns
import DesignTokens.Audit.Result
import DesignTokens.Audit.Scoping
import DesignTokens.Audit.Structure
import DesignTokens.Audit.Suggestions
import DesignTokens.CommandLine.Arguments
import DesignTokens.CommandLine.Run
import DesignTokens.Decimal.Binary
import DesignTokens.Decimal.Shortest
import DesignTokens.Decimal.Text
import DesignTokens.Double
import DesignTokens.Json.Basic
import DesignTokens.Json.Decode
import DesignTokens.Json.Draft
import DesignTokens.Json.Number
import DesignTokens.Json.Reader
import DesignTokens.Json.Sorted
import DesignTokens.Links.Dependents
import DesignTokens.Links.Graph
import DesignTokens.Links.Report
import DesignTokens.Links.Survey
import DesignTokens.Main
import DesignTokens.Migration.Action
import DesignTokens.Migration.Checks
import DesignTokens.Migration.Comparison
import DesignTokens.Migration.Document
import DesignTokens.Migration.Execution
import DesignTokens.Migration.Operation
import DesignTokens.Migration.Plan
import DesignTokens.Migration.ReferenceSet
import DesignTokens.Migration.Risk
import DesignTokens.Migration.Scenarios
import DesignTokens.Migration.Team
import DesignTokens.Naming.Axis
import DesignTokens.Naming.Component
import DesignTokens.Naming.Document
import DesignTokens.Naming.Grading
import DesignTokens.Naming.Lenient
import DesignTokens.Naming.Name
import DesignTokens.Naming.Strict
import DesignTokens.Naming.Vocabulary
import DesignTokens.Scalar
import DesignTokens.Settings.Document
import DesignTokens.Settings.Toml
import DesignTokens.Severity
import DesignTokens.Store.Basic
import DesignTokens.Store.Resolution
import DesignTokens.Text.Blank
import DesignTokens.Text.Ordered
import DesignTokens.Text.Search
import DesignTokens.Token.Basic
import DesignTokens.Token.Document
import DesignTokens.Token.HexColor
import DesignTokens.Token.Reader
import DesignTokens.Token.Reference
import DesignTokens.Token.Value
import DesignTokens.TokenFile
import DesignTokens.Toml.Quoted
import DesignTokens.Toml.Reader
import DesignTokens.Toml.Scalar
import DesignTokens.Toml.Table
import DesignTokens.Proofs.Audit.Coverage
import DesignTokens.Proofs.Audit.Findings
import DesignTokens.Proofs.Audit.Health
import DesignTokens.Proofs.Audit.Named
import DesignTokens.Proofs.Audit.Pairing
import DesignTokens.Proofs.Audit.Redundancy
import DesignTokens.Proofs.Links.Cycles
import DesignTokens.Proofs.Links.Dependents
import DesignTokens.Proofs.Links.Depths
import DesignTokens.Proofs.Links.Order
import DesignTokens.Proofs.Links.Report
import DesignTokens.Proofs.Links.Search
import DesignTokens.Proofs.Links.Spans
import DesignTokens.Proofs.Migration.Accounting
import DesignTokens.Proofs.Migration.Carrying
import DesignTokens.Proofs.Migration.Checks
import DesignTokens.Proofs.Migration.Coherence
import DesignTokens.Proofs.Migration.Completion
import DesignTokens.Proofs.Migration.Comprehensive
import DesignTokens.Proofs.Migration.Conservative
import DesignTokens.Proofs.Migration.Deletions
import DesignTokens.Proofs.Migration.Effects
import DesignTokens.Proofs.Migration.Failures
import DesignTokens.Proofs.Migration.Folding
import DesignTokens.Proofs.Migration.Groups
import DesignTokens.Proofs.Migration.Inlining
import DesignTokens.Proofs.Migration.Invariants
import DesignTokens.Proofs.Migration.Merging
import DesignTokens.Proofs.Migration.Moves
import DesignTokens.Proofs.Migration.Orders
import DesignTokens.Proofs.Migration.Paths
import DesignTokens.Proofs.Migration.Planned
import DesignTokens.Proofs.Migration.Progressive
import DesignTokens.Proofs.Migration.Ranking
import DesignTokens.Proofs.Migration.Records
import DesignTokens.Proofs.Migration.Reduction
import DesignTokens.Proofs.Migration.Redundant
import DesignTokens.Proofs.Migration.Relabelling
import DesignTokens.Proofs.Migration.Relocations
import DesignTokens.Proofs.Migration.Repair
import DesignTokens.Proofs.Migration.Risks
import DesignTokens.Proofs.Migration.Runs
import DesignTokens.Proofs.Migration.Scripts
import DesignTokens.Proofs.Migration.Sessions
import DesignTokens.Proofs.Migration.Suggestions
import DesignTokens.Proofs.Migration.Survivors
import DesignTokens.Proofs.Naming.Grading
import DesignTokens.Proofs.Naming.Grammar
import DesignTokens.Proofs.Naming.Lenient
import DesignTokens.Proofs.Naming.LetterCase
import DesignTokens.Proofs.Naming.RoundTrip
import DesignTokens.Proofs.Naming.Scan
import DesignTokens.Proofs.Naming.Spelling
import DesignTokens.Proofs.Reference.Commuting
import DesignTokens.Proofs.Reference.Groups
import DesignTokens.Proofs.Reference.Pasting
import DesignTokens.Proofs.Reference.Pieces
import DesignTokens.Proofs.Reference.Redirect
import DesignTokens.Proofs.Reference.Relabelling
import DesignTokens.Proofs.Reference.Rewriting
import DesignTokens.Proofs.Reference.Substitution
import DesignTokens.Proofs.Reference.Whole
import DesignTokens.Proofs.Scalar
import DesignTokens.Proofs.Store.Following
import DesignTokens.Proofs.Store.Found
import DesignTokens.Proofs.Store.Keyed
import DesignTokens.Proofs.Store.Known
import DesignTokens.Proofs.Store.Needs
import DesignTokens.Proofs.Store.Recognition
import DesignTokens.Proofs.Store.Redirect
import DesignTokens.Proofs.Store.Resolution
import DesignTokens.Proofs.Store.Script
import DesignTokens.Proofs.Store.Tokens
import DesignTokens.Proofs.Text.Ordered
import DesignTokens.Proofs.Token.Alike
import DesignTokens.Proofs.Token.HexColor
