namespace StepwiseAutomata

/-- A new state stands between the source and the loop, or between the loop and the target. -/
structure Isolation where
  atSource : Bool
  atTarget : Bool
  deriving DecidableEq

/-- Which isolation a session asks for: the least that is safe, or new states on both sides. -/
inductive IsolationPolicy where
  | optimal
  | full
  deriving DecidableEq

namespace Isolation

def none : Isolation := ⟨false,false⟩

def full : Isolation := ⟨true,true⟩

def name : Isolation → String
  | ⟨false,false⟩ => "None"
  | ⟨true,false⟩ => "StartIsolate"
  | ⟨false,true⟩ => "EndIsolate"
  | ⟨true,true⟩ => "FullyIsolate"

/-- Every side that `required` isolates is isolated. -/
def covers (level required : Isolation) : Bool :=
  (level.atSource || !required.atSource) && (level.atTarget || !required.atTarget)

end Isolation
end StepwiseAutomata
