import StepwiseAutomata.Breakdown
import StepwiseAutomata.Determinism
import StepwiseAutomata.Editor
import StepwiseAutomata.Elimination
import StepwiseAutomata.Epsilon

/-!
A session converts one automaton step by step: it breaks labels down to characters, makes the automaton
deterministic and reads an expression off it. Every step is a command of the history, and what was done before
a failure stays done.
-/
namespace StepwiseAutomata

structure Settings where
  /-- A command may be executed in the middle of the history, in place of the commands after the cursor. -/
  clobberHistory : Bool := false
  isolation : IsolationPolicy := .optimal
  /-- An expression read off an automaton is simplified. -/
  optimiseExtracted : Bool := true
  deriving DecidableEq

structure Session extends Editor where
  settings : Settings

/-- An action on a session, which keeps its changes when it fails. -/
abbrev Session.Action := ExceptT Error (StateM Session)

namespace Session

def ofAutomaton (a : Automaton) (settings : Settings) : Session where
  automaton := a
  history := { clobber := settings.clobberHistory }
  settings

def initial (settings : Settings) : Session := ofAutomaton .initial settings

def execute (c : Command) : Action Unit := do
  let s ← get
  match s.toEditor.execute c with
  | .ok e => set { s with toEditor := e }
  | .error err => throw err

/-- Has something made on the automaton, with states bound as said; also returns the bindings afterwards. -/
def makeWith {α : Type} (b : Bindings) (x : Builder α) : Action (α × Bindings) := do
  let s ← get
  let (made,w) := x.run ⟨s.automaton,b,s.notes⟩
  set { s with automaton := w.automaton,notes := w.notes }
  match made with
  | .ok r => return (r,w.bindings)
  | .error e => throw (.illegal e)

def make {α : Type} (x : Builder α) : Action α := return (← makeWith {} x).1

/-- Has a command made and executes it. -/
def issue (x : Builder Command) : Action Unit := do execute (← make x)

/-- What can be answered without making anything. -/
def attempt {α : Type} (r : Except Refusal α) : Action α :=
  match r with
  | .ok x => pure x
  | .error e => throw (.illegal e)

def undo (s : Session) : Session := { s with toEditor := s.toEditor.undo }

def redo (s : Session) : Session := { s with toEditor := s.toEditor.redo }

def seek (index : Nat) : Action Unit := do
  let s ← get
  match s.toEditor.seek index with
  | .ok e => set { s with toEditor := e }
  | .error err => throw err

/-- The states with the start state first, so that its class is merged into it. -/
def stateOrder (a : Automaton) : List Nat :=
  let (start,others) := a.stateIds.partition (· == a.start)
  start ++ others

/-- Removes states that no path leads to, in the order given. -/
def removeEach (order : List Nat) : Action Unit :=
  order.forM fun state => issue (Builder.removeUnreachable state)

def removeUnreachables : Action Unit := do
  removeEach (← get).automaton.unreachable

variable [Ids]

def ofSnapshot (s : Snapshot) (settings : Settings) : Except Error Session :=
  (Editor.ofSnapshot s settings.clobberHistory).map fun e => { toEditor := e,settings }

/-- Makes the automaton with one transition on `r`, from the start state to a final state. -/
def creation (r : Regex) : Builder Command := do
  let a ← Builder.automaton
  let last ← Builder.newState
  let t ← Builder.newTransition ⟨a.start,last,r⟩
  return .ofEdits s!"Create automaton for {r}" [.addState ⟨last,true⟩,.addTransition t]

/-- The session of the automaton for a written expression, whose making is the first command. -/
def ofRegex (text : String) (settings : Settings) : Except Error Session :=
  match Regex.parse text with
  | .error e => .error (.invalidRegex e)
  | .ok none => .error (.illegal .emptyRegex)
  | .ok (some r) =>
    let (result,s) := (issue (creation r)).run (initial settings)
    result.map fun _ => s

/-- Breaks one transition down; false if its label is a character already. -/
def breakdownTransition (id : Nat) : Action Bool := do
  let s ← get
  match s.automaton.transition? id with
  | none => throw (.illegal (.noTransition id))
  | some t =>
    match ← make (Builder.breakdown t s.settings.isolation) with
    | none => return false
    | some c =>
      execute c
      return true

/-- Breaks transitions down, the first first, until every label is a character; at most `steps` times. The
    result is the number of breakdowns. -/
def breakdownFirst : (steps : Nat) → Action Nat
  | 0 => return 0
  | steps + 1 => do
    match (← get).automaton.transitions.find? (·.label.isCompound) with
    | none => return 0
    | some t =>
      let _ ← breakdownTransition t.id
      return (← breakdownFirst steps) + 1

/-- Each breakdown takes one operator away, and one step more finds that none is left. -/
def breakdownAll : Action Nat := do
  let operators := Regex.operatorTotal ((← get).automaton.byId.values.map (·.label))
  breakdownFirst (operators + 1)

def mergeEquivalents : Action Unit := do
  let a := (← get).automaton
  let ctx := EpsilonContext.ofAutomaton a
  modify fun s => { s with toEditor := s.note (.epsilonClasses ctx.classes) }
  (stateOrder a).forM fun state => do
    let a := (← get).automaton
    if a.hasState state && ctx.hasEquivalent a state then
      issue (Builder.mergeEquivalent ctx state)

def removeEpsilons : Action Unit := do
  (stateOrder (← get).automaton).forM fun state => do
    let a := (← get).automaton
    if (a.outgoing state).any (·.isEpsilon) then
      issue (Builder.removeEpsilon state)

/-- Resolves the symbols of one state, at most `steps` of them; tells whether there was any. -/
def resolveState (state : Nat) : (steps : Nat) → Bindings → Action (Bool × Bindings)
  | 0,b => return (false,b)
  | steps + 1,b => do
    match ← makeWith b (Builder.resolveState state) with
    | (none,b) => return (false,b)
    | (some c,b) =>
      execute c
      let (_,b) ← resolveState state steps b
      return (true,b)

/-- Resolves the symbols of the states in turn; each resolution leaves the state with fewer transitions. -/
def resolveStates : List Nat → Bindings → Action (Bool × Bindings)
  | [],b => return (false,b)
  | state :: states,b => do
    let steps := ((← get).automaton.outgoing state).length
    let (here,b) ← resolveState state steps b
    let (there,b) ← resolveStates states b
    return (here || there,b)

/-- Goes through all states again and again until nothing is left to resolve, at most `rounds` times. -/
def resolveRounds : (rounds : Nat) → Bindings → Action Unit
  | 0,_ => return ()
  | rounds + 1,b => do
    let (changed,b) ← resolveStates (stateOrder (← get).automaton) b
    if changed then resolveRounds rounds b

/-- A round that changes nothing is the last, and any other makes a new state for a set of old ones, except
    perhaps the first; there are no more sets than subsets of the states and of the ends of transitions. -/
def resolveAll : Action Unit := do
  let a := (← get).automaton
  resolveRounds (Nat.pow 2 (a.stateIds.length + a.transitions.length) + 2) {}

/-- Makes the automaton deterministic. -/
def determinize : Action Unit := do
  let _ ← breakdownAll
  mergeEquivalents
  removeEpsilons
  removeUnreachables
  resolveAll
  removeUnreachables

/-- Isolates the final state where that is needed. -/
def isolate : Action Unit := do
  match ← make Builder.isolateFinal with
  | some c => execute c
  | none => return ()

/-- Eliminates the states in the order given. -/
def eliminateEach (order : List Nat) : Action Unit :=
  order.forM fun state => issue (Builder.eliminate state)

/-- Reads an expression off the automaton by eliminating its states; `none` if it accepts no word. -/
def toRegex : Action (Option Regex) := do
  isolate
  eliminateEach (← get).automaton.eliminable
  let s ← get
  let r ← attempt s.automaton.extract
  return if s.settings.optimiseExtracted then r.map Regex.optimise else r

end Session
end StepwiseAutomata
