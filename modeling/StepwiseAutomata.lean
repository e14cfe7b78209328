import StepwiseAutomata.Automaton.Basic
import StepwiseAutomata.Automaton.Reachability
import StepwiseAutomata.Automaton.Snapshot
import StepwiseAutomata.Breakdown
import StepwiseAutomata.Command
import StepwiseAutomata.Determinism
import StepwiseAutomata.Editor
import StepwiseAutomata.Elimination
import StepwiseAutomata.Epsilon
import StepwiseAutomata.Error
import StepwiseAutomata.History
import StepwiseAutomata.History.Inspect
import StepwiseAutomata.IdMap
import StepwiseAutomata.Isolation
import StepwiseAutomata.Note
import StepwiseAutomata.Regex.Basic
import StepwiseAutomata.Regex.Optimiser
import StepwiseAutomata.Regex.Order
import StepwiseAutomata.Regex.Parser
import StepwiseAutomata.Regex.Printer
import StepwiseAutomata.Session
import StepwiseAutomata.StateSet
import StepwiseAutomata.StateSet.Bits
import StepwiseAutomata.StateSet.Calls
import StepwiseAutomata.Text
import StepwiseAutomata.Workbench
import StepwiseAutomata.Proofs.Actions
import StepwiseAutomata.Proofs.Agreement
import StepwiseAutomata.Proofs.Applicability
import StepwiseAutomata.Proofs.Bindings
import StepwiseAutomata.Proofs.Breakdown
import StepwiseAutomata.Proofs.BreakdownAll
import StepwiseAutomata.Proofs.Brevity
import StepwiseAutomata.Proofs.Calls
import StepwiseAutomata.Proofs.CanonicalShape
import StepwiseAutomata.Proofs.Capacities
import StepwiseAutomata.Proofs.Classes
import StepwiseAutomata.Proofs.Closures
import StepwiseAutomata.Proofs.Consistency
import StepwiseAutomata.Proofs.Degrees
import StepwiseAutomata.Proofs.Denotation
import StepwiseAutomata.Proofs.Determinism
import StepwiseAutomata.Proofs.Determinize
import StepwiseAutomata.Proofs.Elimination
import StepwiseAutomata.Proofs.Epsilon
import StepwiseAutomata.Proofs.EpsilonFree
import StepwiseAutomata.Proofs.ErrorPositions
import StepwiseAutomata.Proofs.ExactReplay
import StepwiseAutomata.Proofs.Extraction
import StepwiseAutomata.Proofs.FragmentLanguage
import StepwiseAutomata.Proofs.Fragments
import StepwiseAutomata.Proofs.FullIsolation
import StepwiseAutomata.Proofs.Grammar
import StepwiseAutomata.Proofs.Graph
import StepwiseAutomata.Proofs.GraphLanguage
import StepwiseAutomata.Proofs.History
import StepwiseAutomata.Proofs.Ids
import StepwiseAutomata.Proofs.IgnoredEdits
import StepwiseAutomata.Proofs.KeptLabels
import StepwiseAutomata.Proofs.Labels
import StepwiseAutomata.Proofs.Leaks
import StepwiseAutomata.Proofs.ListOrder
import StepwiseAutomata.Proofs.Locality
import StepwiseAutomata.Proofs.Loops
import StepwiseAutomata.Proofs.Observers
import StepwiseAutomata.Proofs.Ordering
import StepwiseAutomata.Proofs.Parsing
import StepwiseAutomata.Proofs.Paths
import StepwiseAutomata.Proofs.Planning
import StepwiseAutomata.Proofs.Plans
import StepwiseAutomata.Proofs.Preparation
import StepwiseAutomata.Proofs.Printing
import StepwiseAutomata.Proofs.Reachability
import StepwiseAutomata.Proofs.Refusals
import StepwiseAutomata.Proofs.RegexLanguage
import StepwiseAutomata.Proofs.Replacement
import StepwiseAutomata.Proofs.Replay
import StepwiseAutomata.Proofs.Resolution
import StepwiseAutomata.Proofs.Resolver
import StepwiseAutomata.Proofs.Restoring
import StepwiseAutomata.Proofs.Rewriting
import StepwiseAutomata.Proofs.RoundTrip
import StepwiseAutomata.Proofs.Rounds
import StepwiseAutomata.Proofs.Runs
import StepwiseAutomata.Proofs.Scripts
import StepwiseAutomata.Proofs.SetCalls
import StepwiseAutomata.Proofs.Shrinking
import StepwiseAutomata.Proofs.Sides
import StepwiseAutomata.Proofs.Simplification
import StepwiseAutomata.Proofs.Simulation
import StepwiseAutomata.Proofs.Snapshot
import StepwiseAutomata.Proofs.Stages
import StepwiseAutomata.Proofs.Trimming
import StepwiseAutomata.Proofs.Unfolding
