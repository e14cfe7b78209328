import StepwiseAutomata.Automaton.Basic
import StepwiseAutomata.Error

/-!
Pictures of automata with labels in writing, and the automaton that a picture shows. A picture is checked whole
before anything is made of it.
-/
namespace StepwiseAutomata

namespace Snapshot

structure Entry where
  id : Nat
  source : Nat
  target : Nat
  label : String
  deriving DecidableEq

end Snapshot

structure Snapshot where
  start : Nat
  states : List State
  transitions : List Snapshot.Entry
  /-- Counters that are left out follow from the ids in the picture. -/
  nextState : Option Nat
  nextTransition : Option Nat
  deriving DecidableEq

namespace Snapshot

variable (s : Snapshot)

def stateIds : List Nat := s.states.map State.id

/-- The first element that occurred before. -/
def repeated? (seen : List Nat) : List Nat → Option Nat
  | [] => none
  | x :: xs => if x ∈ seen then some x else repeated? (x :: seen) xs

def readLabel (t : Entry) : Except Error Regex :=
  match Regex.parse t.label with
  | .error e => .error (.invalidRegex e)
  | .ok none => .error (.snapshot (.emptyLabel t.id))
  | .ok (some r) => .ok r

/-- The transition of an entry whose id is not among `seen` and whose ends are among `states`. -/
def readEntry (states seen : List Nat) (t : Entry) : Except Error Transition :=
  if t.id ∈ seen then .error (.snapshot (.duplicateTransition t.id))
  else if t.source ∉ states then .error (.snapshot (.missingState t.id t.source))
  else if t.target ∉ states then .error (.snapshot (.missingState t.id t.target))
  else (readLabel t).map fun label => ⟨⟨t.source,t.target,label⟩,t.id⟩

def readEntries (states seen : List Nat) : List Entry → Except Error (List Transition)
  | [] => .ok []
  | t :: ts =>
    match readEntry states seen t with
    | .error e => .error e
    | .ok read => (readEntries states (t.id :: seen) ts).map (read :: ·)

/-- The start state and the transitions of a picture that is in order. -/
def check : Except Error (State × List Transition) :=
  match repeated? [] s.stateIds with
  | some id => .error (.snapshot (.duplicateState id))
  | none =>
    match s.states.find? (·.id == s.start) with
    | none => .error (.snapshot (.unlistedStart s.start))
    | some start => (readEntries s.stateIds [] s.transitions).map (start,·)

/-- The changes that make the automaton out of its start state: first the other states, then the transitions. -/
def changes (start : State) (ts : List Transition) : List Change :=
  (s.states.filter (·.id != start.id)).map .addState ++ ts.map .addTransition

variable [Ids]

/-- The id after the greatest of the list. -/
def above (ids : List Nat) : Nat := (ids.max?.map Ids.after).getD 0

/-- No counter is lower than the picture says, nor than the ids that follow on those in it. -/
def counters : Counters :=
  (Counters.max ⟨Ids.after s.start,0⟩ ⟨s.nextState.getD 0,s.nextTransition.getD 0⟩).max
    ⟨above s.stateIds,above (s.transitions.map Entry.id)⟩

/-- The automaton of the start state alone, with the counters of the picture. -/
def base (start : State) : Automaton :=
  { Automaton.withStart start.id start.isFinal with counters := s.counters }

/-- The automaton that the picture shows. -/
def restore : Except Error Automaton :=
  s.check.map fun (start,ts) => (s.base start).applyAll (s.changes start ts)

end Snapshot

def Automaton.snapshot (a : Automaton) : Snapshot where
  start := a.start
  states := a.states
  transitions := a.transitions.map fun t => ⟨t.id,t.source,t.target,toString t.label⟩
  nextState := some a.counters.nextState
  nextTransition := some a.counters.nextTransition

end StepwiseAutomata
