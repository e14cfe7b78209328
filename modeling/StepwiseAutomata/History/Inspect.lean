import StepwiseAutomata.History
import StepwiseAutomata.Text

namespace StepwiseAutomata

open Text

def State.inspect (s : State) : String :=
  record "AutomatonState" [("id",toString s.id),("is_final",toString s.isFinal)]

def Transition.inspect (t : Transition) : String :=
  record "AutomatonTransition"
    [("id",toString t.id),("from",toString t.source),("to",toString t.target),("regex",t.label.inspect)]

def Edit.inspect : Edit → String
  | addState s => tagged "AddState" s.inspect
  | removeState s => tagged "RemoveState" s.inspect
  | addTransition t => tagged "AddTransition" t.inspect
  | removeTransition t => tagged "RemoveTransition" t.inspect
  | setFinal id isFinal wasFinal =>
    record "SetFinal" [("state",toString id),("is_final",toString isFinal),("was_final",toString wasFinal)]

namespace Command

mutual
def inspect : Command → String
  | edit e => e.inspect
  | group title parts =>
    tagged "Composite" (record "CompositeCommand"
      [("description",quoted title),("commands",bracketed (inspectAll parts))])
def inspectAll : List Command → List String
  | [] => []
  | c :: cs => inspect c :: inspectAll cs
end

end Command

/-- The history with its commands, and the number of its observers. -/
def History.inspect (h : History) (observers : Nat) : String :=
  record "CommandHistory"
    [("commands",bracketed (Command.inspectAll h.commands)),("position",toString h.position),
      ("clobber",toString h.clobber),("observers",toString observers)]

end StepwiseAutomata
