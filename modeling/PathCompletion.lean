import PathCompletion.Analysis.Context
import PathCompletion.Analysis.Rule
import PathCompletion.Analysis.Run
import PathCompletion.Analysis.Transfer
import PathCompletion.Completion.Kind
import PathCompletion.Completion.Value
import PathCompletion.Dataflow.Cancellation
import PathCompletion.Dataflow.Domain
import PathCompletion.Dataflow.Fixpoint
import PathCompletion.Error
import PathCompletion.Flow.Draft
import PathCompletion.Flow.Graph
import PathCompletion.Flow.Operation
import PathCompletion.Flow.Order
import PathCompletion.Flow.Procedure
import PathCompletion.Identifier
import PathCompletion.PointsTo.Local
import PathCompletion.PointsTo.Location
import PathCompletion.PointsTo.Value
import PathCompletion.Proofs.Cancellation
import PathCompletion.Proofs.Chain
import PathCompletion.Proofs.Completion.Absence
import PathCompletion.Proofs.Completion.Arising
import PathCompletion.Proofs.Completion.Branch
import PathCompletion.Proofs.Completion.CallSites
import PathCompletion.Proofs.Completion.Callee
import PathCompletion.Proofs.Completion.Comparison
import PathCompletion.Proofs.Completion.Composition
import PathCompletion.Proofs.Completion.Convergence
import PathCompletion.Proofs.Completion.Descent
import PathCompletion.Proofs.Completion.Disturbance
import PathCompletion.Proofs.Completion.Effect
import PathCompletion.Proofs.Completion.Evidence
import PathCompletion.Proofs.Completion.Exactness
import PathCompletion.Proofs.Completion.Frame
import PathCompletion.Proofs.Completion.Genuine
import PathCompletion.Proofs.Completion.History
import PathCompletion.Proofs.Completion.Keys
import PathCompletion.Proofs.Completion.Lattice
import PathCompletion.Proofs.Completion.Locality
import PathCompletion.Proofs.Completion.Motion
import PathCompletion.Proofs.Completion.Patience
import PathCompletion.Proofs.Completion.Provenance
import PathCompletion.Proofs.Completion.Reading
import PathCompletion.Proofs.Completion.Refinement
import PathCompletion.Proofs.Completion.Regression
import PathCompletion.Proofs.Completion.Reset
import PathCompletion.Proofs.Completion.Rule
import PathCompletion.Proofs.Completion.Semilattice
import PathCompletion.Proofs.Completion.Sound
import PathCompletion.Proofs.Completion.Summary
import PathCompletion.Proofs.Completion.Universe
import PathCompletion.Proofs.Completion.Visit
import PathCompletion.Proofs.Finite
import PathCompletion.Proofs.FirstLine
import PathCompletion.Proofs.Fixpoint.Ascent
import PathCompletion.Proofs.Fixpoint.Budget
import PathCompletion.Proofs.Fixpoint.Cycle
import PathCompletion.Proofs.Fixpoint.Equations
import PathCompletion.Proofs.Fixpoint.Gathered
import PathCompletion.Proofs.Fixpoint.Join
import PathCompletion.Proofs.Fixpoint.Monotone
import PathCompletion.Proofs.Fixpoint.Pass
import PathCompletion.Proofs.Fixpoint.Paths
import PathCompletion.Proofs.Fixpoint.Residue
import PathCompletion.Proofs.Fixpoint.Run
import PathCompletion.Proofs.Fixpoint.Safety
import PathCompletion.Proofs.Fixpoint.Visited
import PathCompletion.Proofs.Flow.Calls
import PathCompletion.Proofs.Flow.Draft
import PathCompletion.Proofs.Flow.Marking
import PathCompletion.Proofs.Flow.Operand
import PathCompletion.Proofs.Flow.Order
import PathCompletion.Proofs.Flow.Region
import PathCompletion.Proofs.PointsTo.Flow
import PathCompletion.Proofs.PointsTo.Local
import PathCompletion.Proofs.PointsTo.Reordering
import PathCompletion.Proofs.Report.Batch
import PathCompletion.Proofs.Report.Classified
import PathCompletion.Proofs.Report.Once
import PathCompletion.Proofs.Report.Order
import PathCompletion.Proofs.Report.Prefilter
import PathCompletion.Proofs.Report.Verdict
import PathCompletion.Proofs.Search
import PathCompletion.Proofs.Settings.RoundTrip
import PathCompletion.Proofs.Step
import PathCompletion.Proofs.Symbol.Registration
import PathCompletion.Proofs.Symbol.Subtyping
import PathCompletion.Proofs.Walk
import PathCompletion.Proofs.Worklist
import PathCompletion.Proofs.Yaml.Entry
import PathCompletion.Proofs.Yaml.Word
import PathCompletion.Reach
import PathCompletion.Report.Finding
import PathCompletion.Report.Session
import PathCompletion.Settings.Config
import PathCompletion.Settings.Document
import PathCompletion.Settings.Options
import PathCompletion.Settings.Yaml
import PathCompletion.Sorted.Key
import PathCompletion.Sorted.Map
import PathCompletion.Sorted.Set
import PathCompletion.Source
import PathCompletion.Symbol.Resolver
import PathCompletion.Symbol.Table
import PathCompletion.Symbol.Target
import PathCompletion.Text.Basic
import PathCompletion.Text.Json
import PathCompletion.Yaml.Block
import PathCompletion.Yaml.Cursor
import PathCompletion.Yaml.Lexer
import PathCompletion.Yaml.Node
import PathCompletion.Yaml.Plain
import PathCompletion.Yaml.Property
import PathCompletion.Yaml.Quoted
import PathCompletion.Yaml.Token
