import StepwiseAutomata.Automaton.Basic

/-!
Commands: reversible edits of an automaton, and titled groups of commands. A command carries all that is
needed to apply it and to take it back; a group is taken back from its last edit to its first.
-/
namespace StepwiseAutomata

inductive Edit where
  | addState (s : State)
  | removeState (s : State)
  | addTransition (t : Transition)
  | removeTransition (t : Transition)
  | setFinal (id : Nat) (isFinal wasFinal : Bool)
  deriving DecidableEq

namespace Edit

def forward : Edit → Change
  | addState s => .addState s
  | removeState s => .removeState s.id
  | addTransition t => .addTransition t
  | removeTransition t => .removeTransition t.id
  | setFinal id isFinal _ => .setFinal id isFinal

def backward : Edit → Change
  | addState s => .removeState s.id
  | removeState s => .addState s
  | addTransition t => .removeTransition t.id
  | removeTransition t => .addTransition t
  | setFinal id _ wasFinal => .setFinal id wasFinal

def description : Edit → String
  | addState s => s!"Add state {s}"
  | removeState s => s!"Remove state {s}"
  | addTransition t => s!"Add transition {t.source} -> {t.target} on {t.label}"
  | removeTransition t => s!"Remove transition {t.source} -> {t.target} on {t.label}"
  | setFinal id true _ => s!"Make state {id} final"
  | setFinal id false _ => s!"Make state {id} non-final"

def addedState? : Edit → Option State
  | addState s => some s
  | _ => none

def addedTransition? : Edit → Option Transition
  | addTransition t => some t
  | _ => none

end Edit

inductive Command where
  | edit (e : Edit)
  | group (title : String) (parts : List Command)

namespace Command

def description : Command → String
  | edit e => e.description
  | group title _ => title

def parts : Command → List Command
  | edit _ => []
  | group _ parts => parts

mutual
/-- The edits of the command, in the order they are applied. -/
def edits : Command → List Edit
  | edit e => [e]
  | group _ parts => editsAll parts
def editsAll : List Command → List Edit
  | [] => []
  | c :: cs => edits c ++ editsAll cs
end

def ofEdits (title : String) (es : List Edit) : Command := group title (es.map edit)

/-- Sets the final flag of a state, with its present flag to go back to. -/
def setFinal (a : Automaton) (id : Nat) (isFinal : Bool) : Edit := .setFinal id isFinal (a.isFinal id)

def addedStates (c : Command) : List State := c.edits.filterMap Edit.addedState?

def addedTransitions (c : Command) : List Transition := c.edits.filterMap Edit.addedTransition?

/-- The changes that apply the command. -/
def forward (c : Command) : List Change := c.edits.map Edit.forward

/-- The changes that take the command back. -/
def backward (c : Command) : List Change := c.edits.reverse.map Edit.backward

mutual
def beq : Command → Command → Bool
  | edit d,edit e => d == e
  | group s cs,group t ds => s == t && beqAll cs ds
  | _,_ => false
def beqAll : List Command → List Command → Bool
  | [],[] => true
  | c :: cs,d :: ds => beq c d && beqAll cs ds
  | _,_ => false
end

instance : BEq Command := ⟨beq⟩

theorem editsAll_eq_flatMap (cs : List Command) : editsAll cs = cs.flatMap edits := by
  induction cs with
  | nil => simp [editsAll]
  | cons c cs ih => simp [editsAll,ih]

@[simp] theorem edits_ofEdits (title : String) (es : List Edit) : (ofEdits title es).edits = es := by
  simp [ofEdits,edits,editsAll_eq_flatMap,List.flatMap_map]

end Command

/-- Removes every transition that enters or leaves the state, then the state. -/
def Automaton.detachEdits (a : Automaton) (s : State) : List Edit :=
  (a.ingoing s.id ++ (a.outgoing s.id).filter (·.target != s.id)).map .removeTransition ++ [.removeState s]

end StepwiseAutomata
