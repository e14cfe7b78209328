import StepwiseAutomata.Automaton.Reachability
import StepwiseAutomata.Workbench

namespace StepwiseAutomata

/-- The `ε` closure of each state, and the classes of states with equal closures, of an automaton as it was
    when the context was made. -/
structure EpsilonContext where
  closures : IdMap StateSet
  classes : List StateSet

namespace EpsilonContext

/-- The classes come in the order of their first states. -/
def ofAutomaton (a : Automaton) : EpsilonContext :=
  let closures := a.vertices.map fun s _ => a.closure s
  { closures
    classes := closures.values.eraseDups.map fun c =>
      .ofList ((closures.entries.filter (·.2 == c)).map Prod.fst) }

variable (ctx : EpsilonContext)

def classOf? (state : Nat) : Option StateSet := ctx.classes.find? (·.contains state)

/-- Another state of the class is still in the automaton. -/
def hasEquivalent (a : Automaton) (state : Nat) : Bool :=
  ((ctx.classOf? state).map fun c => c.members.any fun s => s != state && a.hasState s).getD false

def areEquivalent (s t : Nat) : Bool := ((ctx.classOf? s).map (·.contains t)).getD false

end EpsilonContext

namespace Arc

/-- By source, then label, then target. -/
def le (x y : Arc) : Bool :=
  ((compare x.source y.source).then ((compare x.label y.label).then (compare x.target y.target))).isLE

def isEpsilonLoop (arc : Arc) : Bool := arc.source == arc.target && arc.isEpsilon

end Arc

namespace Automaton

variable (a : Automaton)

/-- Makes `state` final if one of `others` is and it is not. -/
def inheritFinal (state : Nat) (others : List Nat) : List Edit :=
  if !a.isFinal state && others.any a.isFinal then [Command.setFinal a state true] else []

/-- The arc with each end in the class put on `state`. -/
def redirect (merged : StateSet) (state : Nat) (arc : Arc) : Arc :=
  let put (s : Nat) := if merged.contains s then state else s
  { arc with source := put arc.source,target := put arc.target }

/-- The transitions that enter or leave a removed state. -/
def mergeTouched (removed : StateSet) : List Transition :=
  a.transitions.filter fun t => removed.contains t.source || removed.contains t.target

/-- The arcs that merging the class of present states `merged` into its member `state` brings: those of the other
    members are put on `state`, but neither twice nor as `ε` loops. -/
def mergeArcs (merged : StateSet) (state : Nat) : List Arc :=
  let touched := a.mergeTouched (merged.erase state)
  let arcs := ((touched.map fun t => redirect merged state t.toArc).filter (!·.isEpsilonLoop)).mergeSort Arc.le
  arcs.eraseReps.filter (!a.hasArc ·)

/-- What merging takes: the transitions of the other members go, those into a member first, then the members
    themselves, and the new transitions come. -/
def mergeEdits (merged : StateSet) (state : Nat) (added : List Transition) : List Edit :=
  let removed := merged.erase state
  let (entering,leaving) := (a.mergeTouched removed).partition fun t => removed.contains t.target
  (entering ++ leaving).map .removeTransition ++ (removed.members.filterMap a.state?).map .removeState ++
    added.map .addTransition ++ a.inheritFinal state removed.members

def epsilonTransitions (state : Nat) : List Transition := (a.outgoing state).filter (·.isEpsilon)

/-- The transitions other than `ε` of the states in the closure of `state`, as arcs that leave `state`. -/
def slidingArcs (state : Nat) : List Arc :=
  let copies := (((a.closure state).erase state).members.flatMap a.outgoing).filter (!·.isEpsilon)
  ((copies.map fun t => { t.toArc with source := state }).filter (!a.hasArc ·)).eraseDups

end Automaton

namespace Builder

variable [Ids]

/-- Merges the other present states of the class of `state` into it; only the start state can take in the class
    of the start state. -/
def mergeEquivalent (ctx : EpsilonContext) (state : Nat) : Builder Command := do
  let a ← automaton
  if !a.hasState state then throw (.foreignState state)
  else match ctx.classOf? state with
    | none => throw (.unclassified state)
    | some c =>
      let merged := c.filter a.hasState
      let removed := merged.erase state
      if merged.contains a.start && state != a.start then throw (.startClass state)
      else if removed.isEmpty then throw (.nothingToMerge state)
      else
        let added ← newTransitions (a.mergeArcs merged state)
        note (.merging removed.members state)
        return .ofEdits s!"Merge states equivalent to {state}" (a.mergeEdits merged state added)

/-- Puts in place of the `ε` transitions of `state` the other transitions of the states in its closure. -/
def removeEpsilon (state : Nat) : Builder Command := do
  let a ← automaton
  if !a.hasState state then throw (.foreignState state)
  else if (a.epsilonTransitions state).isEmpty then throw (.noEpsilon state)
  else
    let added ← newTransitions (a.slidingArcs state)
    return .ofEdits s!"Remove epsilon transitions from state {state}"
      ((a.epsilonTransitions state).map .removeTransition ++ added.map .addTransition ++
        a.inheritFinal state (a.closure state).members)

end Builder
end StepwiseAutomata
