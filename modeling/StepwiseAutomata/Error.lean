import StepwiseAutomata.Isolation
import StepwiseAutomata.Regex.Parser
import StepwiseAutomata.Regex.Printer

namespace StepwiseAutomata

/-- The ways to break a transition down. -/
inductive BreakdownKind where
  | choice
  | sequence
  | iteration
  | option
  deriving DecidableEq

def BreakdownKind.name : BreakdownKind → String
  | choice => "choice"
  | sequence => "sequence"
  | iteration => "iteration"
  | option => "option"

/-- Why an argument is refused. -/
inductive Refusal where
  | build (e : Regex.BuildError)
  | emptyRegex
  | noTransition (id : Nat)
  | foreignTransition (id : Nat)
  | wrongBreakdown (kind : BreakdownKind) (label : Regex)
  | insufficientIsolation (level required : Isolation)
  | foreignState (id : Nat)
  | unclassified (id : Nat)
  | startClass (id : Nat)
  | nothingToMerge (id : Nat)
  | noEpsilon (id : Nat)
  | notSymbol (transition state : Nat) (label : Regex)
  | reachable (id : Nat)
  | startElimination
  | finalElimination (id : Nat)
  | notEliminated
  | notIsolated

def Refusal.message : Refusal → String
  | build e => e.message
  | emptyRegex => "empty regular expression"
  | noTransition id => s!"no transition with id {id}"
  | foreignTransition id => s!"transition {id} is not part of the automaton"
  | wrongBreakdown kind label => s!"{kind.name} breakdown cannot be applied to {label}"
  | insufficientIsolation level required =>
    s!"isolation level {level.name} is insufficient, at least {required.name} is required"
  | foreignState id => s!"state {id} is not part of the automaton"
  | unclassified id => s!"state {id} has no equivalence class"
  | startClass id => s!"states equivalent to the start state must be merged into it, not into {id}"
  | nothingToMerge id => s!"state {id} has no equivalent states to merge"
  | noEpsilon id => s!"state {id} has no outgoing epsilon transitions"
  | notSymbol transition state label =>
    s!"transition {transition} from state {state} is labelled {label}, expected a single symbol"
  | reachable id => s!"state {id} is reachable from the start state"
  | startElimination => "the start state cannot be eliminated"
  | finalElimination id => s!"final state {id} cannot be eliminated"
  | notEliminated => "intermediate states have not been eliminated yet"
  | notIsolated => "the final state has not been isolated yet"

/-- Why a snapshot is not the picture of an automaton. -/
inductive SnapshotError where
  | duplicateState (id : Nat)
  | unlistedStart (id : Nat)
  | duplicateTransition (id : Nat)
  | missingState (transition state : Nat)
  | emptyLabel (transition : Nat)
  deriving DecidableEq

def SnapshotError.message : SnapshotError → String
  | duplicateState id => s!"duplicate state id {id}"
  | unlistedStart id => s!"start state {id} is not listed"
  | duplicateTransition id => s!"duplicate transition id {id}"
  | missingState transition state => s!"transition {transition} references missing state {state}"
  | emptyLabel transition => s!"transition {transition} has an empty label"

inductive Error where
  | invalidRegex (e : Regex.ParseError)
  | illegal (e : Refusal)
  | outOfRange (index size : Nat)
  | notAtHistoryEnd (position size : Nat)
  | snapshot (e : SnapshotError)

def Error.message : Error → String
  | invalidRegex e => s!"invalid regular expression: {e.message}"
  | illegal e => s!"illegal argument: {e.message}"
  | outOfRange index size => s!"history index {index} is out of range (size: {size})"
  | notAtHistoryEnd position size =>
    s!"cannot execute a new command at history position {position} of {size} while clobbering is disabled"
  | snapshot e => s!"invalid automaton snapshot: {e.message}"

end StepwiseAutomata
