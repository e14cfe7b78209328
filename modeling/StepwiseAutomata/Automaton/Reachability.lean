import StepwiseAutomata.Automaton.Basic
import StepwiseAutomata.StateSet

namespace StepwiseAutomata

/-- A search along `arcs`. An arc is dropped once its source has been seen, so that each step takes one off
    the number of arcs and pending states, which bounds the steps. -/
def explore : (steps : Nat) → (arcs : List (Nat × Nat)) → (pending : List Nat) → (seen : StateSet) → StateSet
  | 0,_,_,seen => seen
  | _ + 1,_,[],seen => seen
  | steps + 1,arcs,s :: pending,seen =>
    if s ∈ seen then explore steps arcs pending seen
    else
      let (leaving,others) := arcs.partition fun arc => arc.1 == s
      explore steps others (leaving.map Prod.snd ++ pending) (seen.insert s)

/-- The states reached from `starts` along any number of arcs. -/
def reach (arcs : List (Nat × Nat)) (starts : List Nat) : StateSet :=
  explore (arcs.length + starts.length) arcs starts ∅

namespace Automaton

variable (a : Automaton)

def reachable : StateSet := reach (a.transitions.map fun t => (t.source,t.target)) [a.start]

/-- The states that no path from the start state leads to, in the order of their ids. -/
def unreachable : List Nat :=
  let seen := a.reachable
  a.stateIds.filter fun s => !seen.contains s

def epsilonArcs : List (Nat × Nat) :=
  (a.transitions.filter (·.isEpsilon)).map fun t => (t.source,t.target)

def closureOf (states : StateSet) : StateSet := reach a.epsilonArcs states.members

def closure (state : Nat) : StateSet := a.closureOf (.singleton state)

/-- The states entered from `states` on the character `c`. -/
def step (states : StateSet) (c : Char) : StateSet :=
  .ofList (states.members.flatMap fun s =>
    ((a.outgoing s).filter (·.label == .char c)).map (·.target))

/-- The states that a word leads to from `states`. -/
def run (states : StateSet) (word : List Char) : StateSet :=
  word.foldl (fun current c => a.closureOf (a.step current c)) (a.closureOf states)

/-- Whether the word leads to a final state, where `ε` in the word means nothing; `none` if some label is more
    than a character. -/
def simulate (word : String) : Option Bool :=
  if a.transitions.any (·.label.isCompound) then none
  else some ((a.run (.singleton a.start) (word.toList.filter (· != epsilonChar))).members.any a.isFinal)

end Automaton
end StepwiseAutomata
