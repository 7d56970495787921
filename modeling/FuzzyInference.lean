import FuzzyInference.Batch
import FuzzyInference.Fcl.Files
import FuzzyInference.Fcl.Grammar
import FuzzyInference.Figure
import FuzzyInference.Scalar.Samples
import FuzzyInference.Shape
import FuzzyInference.Proofs.ConditionGrammar
import FuzzyInference.Proofs.ConditionText
import FuzzyInference.Proofs.Derivation
import FuzzyInference.Proofs.Grids
import FuzzyInference.Proofs.History
import FuzzyInference.Proofs.Joining
import FuzzyInference.Proofs.Numbers
import FuzzyInference.Proofs.Operation
import FuzzyInference.Proofs.Points
import FuzzyInference.Proofs.Reachable
import FuzzyInference.Proofs.RoundTrip
import FuzzyInference.Proofs.Accumulation
import FuzzyInference.Proofs.ClosedForm
import FuzzyInference.Proofs.Batches
import FuzzyInference.Proofs.Doubles
import FuzzyInference.Proofs.GridSizes
import FuzzyInference.Proofs.Rereading
import FuzzyInference.Proofs.Failures
import FuzzyInference.Proofs.Readiness
import FuzzyInference.Proofs.Assembly
import FuzzyInference.Proofs.ReadSoFar
import FuzzyInference.Proofs.LineFaults
import FuzzyInference.Proofs.Runnable
import FuzzyInference.Proofs.Diagnosis
import FuzzyInference.Proofs.Averages
import FuzzyInference.Proofs.Degrees
import FuzzyInference.Proofs.Ranges
import FuzzyInference.Proofs.GradedRuns
import FuzzyInference.Proofs.Hashes
import FuzzyInference.Proofs.SideBySide
import FuzzyInference.Proofs.TextOrder
import FuzzyInference.Proofs.Loading
import FuzzyInference.Proofs.Respaced
import FuzzyInference.Proofs.RespacedStatements
import FuzzyInference.Proofs.RespacedRules
import FuzzyInference.Proofs.RespacedLines
import FuzzyInference.Proofs.Whitespace
import FuzzyInference.Proofs.Ranks
import FuzzyInference.Proofs.SignedZeros
import FuzzyInference.Proofs.RankedValues
import FuzzyInference.Proofs.Absorption
import FuzzyInference.Proofs.RankedOutputs
import FuzzyInference.Proofs.Repetition
import FuzzyInference.Proofs.Segments
import FuzzyInference.Proofs.Curves
import FuzzyInference.Proofs.Slices
import FuzzyInference.Proofs.Duality
import FuzzyInference.Proofs.CrispValues
import FuzzyInference.Proofs.EmptyTerms
import FuzzyInference.Proofs.Sampling
import FuzzyInference.Proofs.Monotonicity
import FuzzyInference.Proofs.Partitions
import FuzzyInference.Proofs.GridPlaces
import FuzzyInference.Proofs.GridShapes
import FuzzyInference.Proofs.Centres
import FuzzyInference.Proofs.Layout
import FuzzyInference.Proofs.Relaid
import FuzzyInference.Proofs.BulkRules
import FuzzyInference.Proofs.StableSort
import FuzzyInference.Proofs.PointGroups
import FuzzyInference.Proofs.Drawing
import FuzzyInference.Proofs.StoredNames
import FuzzyInference.Proofs.Support
