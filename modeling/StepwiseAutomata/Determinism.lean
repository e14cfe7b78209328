import StepwiseAutomata.Automaton.Reachability
import StepwiseAutomata.Workbench

namespace StepwiseAutomata

/-- The first label that a later transition has too. -/
def ambiguousLabel? : List Transition → Option Regex
  | [] => none
  | t :: ts => if ts.any (·.label == t.label) then some t.label else ambiguousLabel? ts

namespace Automaton

variable (a : Automaton)

def isNondeterministic (state : Nat) : Bool := (ambiguousLabel? (a.outgoing state)).isSome

/-- Every label is a symbol, and no state has two transitions on the same one. -/
def isDeterministic : Bool :=
  a.transitions.all (·.label.isSymbol) && a.stateIds.all (!a.isNondeterministic ·)

/-- The transitions that leave `state` on `symbol`. -/
def onSymbol (state : Nat) (symbol : Regex) : List Transition := (a.outgoing state).filter (·.label == symbol)

/-- The transitions that leave `targets`, as arcs that leave `new`. -/
def copiesFrom (targets : StateSet) (new : Nat) : List Arc :=
  (targets.members.flatMap fun s => (a.outgoing s).map fun t => { t.toArc with source := new }).eraseDups

end Automaton

namespace Builder

/-- Removes a state that no path leads to. -/
def removeUnreachable (state : Nat) : Builder Command := do
  let a ← automaton
  match a.state? state with
  | none => throw (.foreignState state)
  | some s =>
    if a.unreachable.contains state then
      return .ofEdits s!"Remove unreachable state {state}" (a.detachEdits s)
    else throw (.reachable state)

variable [Ids]

/-- A new state that is bound to `set`, and what adds it with copies of the transitions that leave `targets`. -/
def mergedState (targets set : StateSet) : Builder (Nat × List Edit) := do
  let a ← automaton
  let new ← newState
  let copies ← newTransitions (a.copiesFrom targets new)
  note (.standsFor new set)
  bindState new set
  return (new,.addState ⟨new,targets.members.any a.isFinal⟩ :: copies.map .addTransition)

/-- A state that stands for `set`, and what adds it if it is a new one. -/
def representative (targets set : StateSet) : Builder (Nat × List Edit) := do
  match (← bindings).find? (← automaton) set with
  | some state => return (state,[])
  | none => mergedState targets set

/-- Leads `symbol` from `state` to one state that stands for all that it led to. -/
def resolveSymbol (state : Nat) (symbol : Regex) : Builder Command := do
  let a ← automaton
  let targets := StateSet.ofList ((a.onSymbol state symbol).map (·.target))
  let (destination,added) ← representative targets ((← bindings).resolve targets)
  let resolved ← newTransition ⟨state,destination,symbol⟩
  return .ofEdits s!"Remove non-determinism on {symbol} from state {state}"
    ((a.onSymbol state symbol).map .removeTransition ++ added ++ [.addTransition resolved])

/-- Resolves the first symbol that leaves `state` more than once; `none` if there is no such symbol. All labels
    of the state have to be symbols. -/
def resolveState (state : Nat) : Builder (Option Command) := do
  let a ← automaton
  if !a.hasState state then throw (.foreignState state)
  else match (a.outgoing state).find? (!·.label.isSymbol) with
    | some t => throw (.notSymbol t.id state t.label)
    | none =>
      match ambiguousLabel? (a.outgoing state) with
      | none => return none
      | some symbol => some <$> resolveSymbol state symbol

end Builder
end StepwiseAutomata
