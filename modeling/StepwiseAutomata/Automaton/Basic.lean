import StepwiseAutomata.IdMap
import StepwiseAutomata.Regex.Order
import StepwiseAutomata.Regex.Printer

/-!
Finite automata whose transitions carry regular expressions. Transitions are kept three times: with the state
they leave, with the state they enter, and by id. Edits keep the three together as long as they are asked for
in a sensible order; nothing is checked here.
-/
namespace StepwiseAutomata

structure State where
  id : Nat
  isFinal : Bool
  deriving DecidableEq

/-- A final state has double parentheses. -/
instance : ToString State := ⟨fun s => if s.isFinal then s!"(({s.id}))" else s!"({s.id})"⟩

/-- What a transition says: from where, to where, on what. -/
structure Arc where
  source : Nat
  target : Nat
  label : Regex
  deriving DecidableEq

structure Transition extends Arc where
  id : Nat
  deriving DecidableEq

def Arc.isEpsilon (a : Arc) : Bool := a.label.isEpsilon

/-- A state as the automaton keeps it, with the transitions that leave it in the order they were added. -/
structure Vertex where
  isFinal : Bool
  outgoing : List Transition := []

/-- How the ids follow on one another, as they are given out. -/
class Ids where
  after : Nat → Nat
  after_le (id : Nat) : after id ≤ id + 1
  /-- There are at least three. -/
  after_of_le_one {id : Nat} (small : id ≤ 1) : after id = id + 1

/-- Ids are words of 32 bits: after the greatest comes 0, and ids that are in use are given out again. A build that checks
    for overflow stops there instead. -/
instance Ids.words : Ids where
  after id := (id + 1) % UInt32.size
  after_le _ := Nat.mod_le _ _
  after_of_le_one small := Nat.mod_eq_of_lt (Nat.lt_of_le_of_lt (Nat.succ_le_succ small) (by decide))

/-- The ids to be given out next. -/
structure Counters where
  nextState : Nat
  nextTransition : Nat
  deriving DecidableEq

structure Automaton where
  start : Nat
  vertices : IdMap Vertex
  /-- The transitions that enter a state, in the order they were added; no list is empty. -/
  entering : IdMap (List Transition)
  byId : IdMap Transition
  counters : Counters

/-- Raises each counter to at least that of `d`. -/
def Counters.max (c d : Counters) : Counters :=
  ⟨Nat.max c.nextState d.nextState,Nat.max c.nextTransition d.nextTransition⟩

namespace Automaton

def withStart (start : Nat) (isFinal : Bool) : Automaton where
  start
  vertices := .singleton start { isFinal }
  entering := ∅
  byId := ∅
  counters := ⟨start + 1,0⟩

/-- The automaton with a start state that is not final, and nothing else. -/
def initial : Automaton := withStart 0 false

variable (a : Automaton)

def hasState (id : Nat) : Bool := a.vertices.contains id

def state? (id : Nat) : Option State := (a.vertices.get? id).map fun v => ⟨id,v.isFinal⟩

def isFinal (id : Nat) : Bool := ((a.vertices.get? id).map Vertex.isFinal).getD false

/-- The states, in the order of their ids. -/
def states : List State := a.vertices.entries.map fun (id,v) => ⟨id,v.isFinal⟩

def stateIds : List Nat := a.vertices.keys

def startState : State := (a.state? a.start).getD ⟨a.start,false⟩

def finalStates : List State := a.states.filter State.isFinal

def outgoing (id : Nat) : List Transition := ((a.vertices.get? id).map Vertex.outgoing).getD []

def ingoing (id : Nat) : List Transition := (a.entering.get? id).getD []

def hasOutgoing (id : Nat) : Bool := !(a.outgoing id).isEmpty

def transition? (id : Nat) : Option Transition := a.byId.get? id

/-- The transitions that leave a state, state by state. -/
def transitions : List Transition := a.vertices.values.flatMap Vertex.outgoing

def hasArc (arc : Arc) : Bool := (a.outgoing arc.source).any (·.toArc == arc)

def addState (s : State) : Automaton :=
  { a with vertices := a.vertices.insert s.id { isFinal := s.isFinal } }

/-- The start state stays. -/
def removeState (id : Nat) : Automaton :=
  if id = a.start then a else { a with vertices := a.vertices.erase id }

def addTransition (t : Transition) : Automaton :=
  { a with
    vertices := a.vertices.modify t.source fun v => { v with outgoing := v.outgoing ++ [t] }
    entering := a.entering.insert t.target (a.ingoing t.target ++ [t])
    byId := a.byId.insert t.id t }

/-- Removes the transition known by the id; an unknown id changes nothing. -/
def removeTransition (id : Nat) : Automaton :=
  match a.transition? id with
  | none => a
  | some t =>
    let rest := (a.ingoing t.target).filter (·.id != id)
    { a with
      vertices := a.vertices.modify t.source fun v =>
        { v with outgoing := v.outgoing.filter (·.id != id) }
      entering := if rest.isEmpty then a.entering.erase t.target else a.entering.insert t.target rest
      byId := a.byId.erase id }

def setFinal (id : Nat) (isFinal : Bool) : Automaton :=
  { a with vertices := a.vertices.modify id fun v => { v with isFinal } }

variable [Ids]

/-- A new id for a state, which is not part of the automaton yet. -/
def takeStateId : Nat × Automaton :=
  (a.counters.nextState,{ a with counters.nextState := Ids.after a.counters.nextState })

/-- A transition with a new id, which is not part of the automaton yet. -/
def takeTransition (arc : Arc) : Transition × Automaton :=
  ({ arc with id := a.counters.nextTransition },
    { a with counters.nextTransition := Ids.after a.counters.nextTransition })

end Automaton

inductive Change where
  | addState (s : State)
  | removeState (id : Nat)
  | addTransition (t : Transition)
  | removeTransition (id : Nat)
  | setFinal (id : Nat) (isFinal : Bool)

def Automaton.apply (a : Automaton) : Change → Automaton
  | .addState s => a.addState s
  | .removeState id => a.removeState id
  | .addTransition t => a.addTransition t
  | .removeTransition id => a.removeTransition id
  | .setFinal id isFinal => a.setFinal id isFinal

def Automaton.applyAll (a : Automaton) (cs : List Change) : Automaton := cs.foldl apply a

end StepwiseAutomata
