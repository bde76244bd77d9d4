import ClauseSearch.Main
import ClauseSearch.Proofs.Acceptance
import ClauseSearch.Proofs.Assumed
import ClauseSearch.Proofs.Assumptions
import ClauseSearch.Proofs.Certificate
import ClauseSearch.Proofs.Checks
import ClauseSearch.Proofs.Counting
import ClauseSearch.Proofs.Descent
import ClauseSearch.Proofs.Dispatch
import ClauseSearch.Proofs.Encoding
import ClauseSearch.Proofs.Exhaustive
import ClauseSearch.Proofs.FirstTask
import ClauseSearch.Proofs.FormulaStore
import ClauseSearch.Proofs.Frames
import ClauseSearch.Proofs.Grammar
import ClauseSearch.Proofs.InPlace
import ClauseSearch.Proofs.InTurn
import ClauseSearch.Proofs.Leaves
import ClauseSearch.Proofs.Lifecycle
import ClauseSearch.Proofs.Lines
import ClauseSearch.Proofs.Models
import ClauseSearch.Proofs.Node
import ClauseSearch.Proofs.Occurrences
import ClauseSearch.Proofs.Pool
import ClauseSearch.Proofs.Preference
import ClauseSearch.Proofs.Prepared
import ClauseSearch.Proofs.Printing
import ClauseSearch.Proofs.Propagation
import ClauseSearch.Proofs.Ranking
import ClauseSearch.Proofs.Reached
import ClauseSearch.Proofs.Reading
import ClauseSearch.Proofs.Schedule
import ClauseSearch.Proofs.Sequence
import ClauseSearch.Proofs.Sessions
import ClauseSearch.Proofs.SharedTally
import ClauseSearch.Proofs.Solving
import ClauseSearch.Proofs.Status
import ClauseSearch.Proofs.Tasks
import ClauseSearch.Proofs.TimedOut
import ClauseSearch.Proofs.Trail
import ClauseSearch.Proofs.Tree
import ClauseSearch.Proofs.Undo
import ClauseSearch.Proofs.UnitPropagation
import ClauseSearch.Proofs.Valuation
import ClauseSearch.Proofs.Verification
import ClauseSearch.Proofs.LineFeeds
import ClauseSearch.Proofs.Cursor
import ClauseSearch.Proofs.Entailment
import ClauseSearch.Proofs.Packed
import ClauseSearch.Proofs.TimeLimits
import ClauseSearch.Proofs.FrequencyOrder
import ClauseSearch.Proofs.Contiguous
import ClauseSearch.Proofs.Growth
import ClauseSearch.Proofs.Renaming
import ClauseSearch.Proofs.PureVariables
import ClauseSearch.Proofs.Agreement
import ClauseSearch.Proofs.Locations
import ClauseSearch.Proofs.Queue
import ClauseSearch.Proofs.Recursion
import ClauseSearch.Proofs.CounterLaws
import ClauseSearch.Proofs.Absorption
import ClauseSearch.Proofs.ElementarySteps
import ClauseSearch.Proofs.TrailInvariant
import ClauseSearch.Proofs.DecisionTrace
