import StepwiseAutomata.Error
import StepwiseAutomata.Note

namespace StepwiseAutomata

/-- The sets of states that states stand for, in the order they were bound. A state that is not bound stands
    for itself. -/
structure Bindings where
  entries : List (Nat × StateSet) := []

namespace Bindings

variable (b : Bindings)

def get? (state : Nat) : Option StateSet := (b.entries.find? (·.1 == state)).map Prod.snd

/-- Binds `state` to `set`; a state that is bound keeps its place. -/
def put (state : Nat) (set : StateSet) : Bindings :=
  if b.entries.any (·.1 == state) then
    ⟨b.entries.map fun e => if e.1 == state then (state,set) else e⟩
  else ⟨b.entries ++ [(state,set)]⟩

def remove (state : Nat) : Bindings := ⟨b.entries.filter (·.1 != state)⟩

def standsFor (state : Nat) : StateSet := (b.get? state).getD (.singleton state)

/-- All that the states of the set stand for. -/
def resolve (states : StateSet) : StateSet := (states.members.map b.standsFor).foldl .union ∅

/-- A state of the automaton that stands for exactly `set`: one that is bound to it, or its only member. -/
def find? (a : Automaton) (set : StateSet) : Option Nat :=
  match b.entries.find? fun e => e.2 == set && a.hasState e.1 with
  | some e => some e.1
  | none =>
    match set.members with
    | [s] => if a.hasState s && (b.get? s).isNone then some s else none
    | _ => none

end Bindings

/-- What commands are made on: an automaton, which gives out ids, and what its states stand for. -/
structure Workbench where
  automaton : Automaton
  bindings : Bindings := {}
  /-- What has not been written to the log yet, latest first. -/
  notes : List Note := []

/-- The making of a command, which changes nothing but ids that are taken, bindings and notes; also when it fails,
    these stay as they are by then. -/
abbrev Builder := ExceptT Refusal (StateM Workbench)

namespace Builder

def automaton : Builder Automaton := return (← get).automaton

def bindings : Builder Bindings := return (← get).bindings

def note (n : Note) : Builder Unit := modify fun w => { w with notes := n :: w.notes }

def bindState (state : Nat) (set : StateSet) : Builder Unit :=
  modify fun w => { w with bindings := w.bindings.put state set }

variable [Ids]

def newState : Builder Nat := do
  let w ← get
  let (id,a) := w.automaton.takeStateId
  set { w with automaton := a }
  return id

def newTransition (arc : Arc) : Builder Transition := do
  let w ← get
  let (t,a) := w.automaton.takeTransition arc
  set { w with automaton := a }
  return t

def newStates (n : Nat) : Builder (List Nat) := (List.range n).mapM fun _ => newState

def newTransitions (arcs : List Arc) : Builder (List Transition) := arcs.mapM newTransition

end Builder
end StepwiseAutomata
