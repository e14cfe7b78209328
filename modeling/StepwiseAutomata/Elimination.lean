import StepwiseAutomata.Regex.Optimiser
import StepwiseAutomata.Workbench

namespace StepwiseAutomata

namespace Automaton

variable (a : Automaton)

/-- Whether there is more than one final state, or one that transitions leave. -/
def needsIsolation : Bool :=
  match a.finalStates with
  | [] => false
  | [s] => a.hasOutgoing s.id
  | _ => true

/-- The iteration of the loops at a state; `none` without loops. -/
def loops? (state : Nat) : Option Regex :=
  match (a.outgoing state).filter (·.target == state) with
  | [] => none
  | ts => some (.star (.choiceOf (ts.map (·.label))))

/-- The label of the way along `entering`, any number of loops and `leaving`. -/
def bypassLabel (entering : Regex) (loops : Option Regex) (leaving : Regex) : Regex :=
  (Regex.sequenceOf (entering :: loops.toList ++ [leaving])).optimiseToDepth 1

/-- The ways through a state, as arcs around it. -/
def bypasses (state : Nat) : List Arc :=
  let loops := a.loops? state
  let away := (a.outgoing state).filter (·.target != state)
  ((a.ingoing state).filter (·.source != state)).flatMap fun entering =>
    away.map fun leaving =>
      ⟨entering.source,leaving.target,bypassLabel entering.label loops leaving.label⟩

/-- The ways around a state that are new. -/
def detours (state : Nat) : List Arc := ((a.bypasses state).filter (!a.hasArc ·)).eraseDups

/-- The states that have to be eliminated: all but the start state and final states. -/
def eliminable : List Nat := (a.states.filter fun s => s.id != a.start && !s.isFinal).map State.id

/-- The expression between the start state and the one final state; `none` if no word is accepted. -/
def extract : Except Refusal (Option Regex) :=
  if !a.eliminable.isEmpty then .error .notEliminated
  else match a.finalStates with
    | [] => .ok none
    | [s] =>
      if s.id = a.start then .ok (some ((a.loops? a.start).getD .epsilon))
      else if a.hasOutgoing s.id then .error .notIsolated
      else match (a.outgoing a.start).filter (·.target == s.id) with
        | [] => .ok none
        | ts =>
          let body := Regex.choiceOf (ts.map (·.label))
          .ok (some (match a.loops? a.start with
            | some loops => .sequenceOf [loops,body]
            | none => body))
    | _ => .error .notIsolated

end Automaton

namespace Builder

variable [Ids]

/-- Leads `ε` from all final states to a new one, which alone is final from then on; `none` if there is one
    final state without transitions that leave it, or no final state at all. -/
def isolateFinal : Builder (Option Command) := do
  let a ← automaton
  if a.needsIsolation then
    let new ← newState
    let finals := a.finalStates.map State.id
    let added ← newTransitions (finals.map fun s => ⟨s,new,.epsilon⟩)
    return some (.ofEdits s!"Isolate final state {new}"
      (.addState ⟨new,true⟩ :: (finals.zip added).flatMap fun (s,t) =>
        [Command.setFinal a s false,.addTransition t]))
  else return none

/-- Removes a state that is neither the start nor final, and leads every way through it around it. -/
def eliminate (state : Nat) : Builder Command := do
  let a ← automaton
  match a.state? state with
  | none => throw (.foreignState state)
  | some s =>
    if state = a.start then throw .startElimination
    else if s.isFinal then throw (.finalElimination state)
    else
      let added ← newTransitions (a.detours state)
      return .ofEdits s!"Eliminate state {state}" (added.map .addTransition ++ a.detachEdits s)

end Builder
end StepwiseAutomata
