import StepwiseAutomata.Command
import StepwiseAutomata.Isolation
import StepwiseAutomata.StateSet
import StepwiseAutomata.Text

namespace StepwiseAutomata

inductive Severity where
  | trace
  | debug
  | warn
  deriving DecidableEq

def Severity.name : Severity → String
  | trace => "TRACE"
  | debug => "DEBUG"
  | warn => "WARN"

inductive Note where
  | stateAdded (s : State)
  | stateRemoved (id : Nat)
  | startKept (id : Nat)
  | transitionAdded (t : Transition)
  | sourceMissing (t : Transition)
  | transitionRemoved (id : Nat)
  | transitionUnknown (id : Nat)
  | finalSet (id : Nat) (isFinal : Bool)
  | clobbering (removed position : Nat)
  | executing (c : Command)
  | redoing (position : Nat) (c : Command)
  | undoing (position : Nat) (c : Command)
  | breakingIteration (label : Regex) (level : Isolation)
  | epsilonClasses (classes : List StateSet)
  | merging (removed : List Nat) (state : Nat)
  | standsFor (state : Nat) (set : StateSet)

namespace Note

def severity : Note → Severity
  | startKept _ | sourceMissing _ | transitionUnknown _ => .warn
  | clobbering _ _ | executing _ | redoing _ _ | undoing _ _ => .debug
  | _ => .trace

def message : Note → String
  | stateAdded s => s!"add state {s}"
  | stateRemoved id => s!"remove state {id}"
  | startKept id => s!"ignoring request to remove start state {id}"
  | transitionAdded t => s!"add transition {t.id} ({t.source} -> {t.target}, {t.label})"
  | sourceMissing t => s!"transition {t.id} added from missing state {t.source}"
  | transitionRemoved id => s!"remove transition {id}"
  | transitionUnknown id => s!"ignoring request to remove missing transition {id}"
  | finalSet id isFinal => s!"set state {id} final = {isFinal}"
  | clobbering removed position => s!"clobbering {removed} command(s) after position {position}"
  | executing c => s!"execute: {c.description}"
  | redoing position c => s!"redo {position}: {c.description}"
  | undoing position c => s!"undo {position}: {c.description}"
  | breakingIteration label level => s!"iteration breakdown of {label} at {level.name}"
  | epsilonClasses classes => s!"epsilon classes: {Text.bracketed (classes.map StateSet.text)}"
  | merging removed state => s!"merging {Text.bracketed (removed.map toString)} into {state}"
  | standsFor state set => s!"state {state} stands for {set.text}"

end Note

/-- What is recorded when a change is made to the automaton. -/
def Automaton.notes (a : Automaton) : Change → List Note
  | .addState s => [.stateAdded s]
  | .removeState id => if id = a.start then [.startKept id] else [.stateRemoved id]
  | .addTransition t =>
    .transitionAdded t :: if a.hasState t.source then [] else [.sourceMissing t]
  | .removeTransition id =>
    if a.byId.contains id then [.transitionRemoved id] else [.transitionUnknown id]
  | .setFinal id isFinal => if a.hasState id then [.finalSet id isFinal] else []

end StepwiseAutomata
