import StepwiseAutomata.Proofs.Rounds

namespace StepwiseAutomata.Session

variable {s t : Session}

section
attribute [local instance] Ids.endless

section
variable (consistent : t.automaton.Consistent) (symbolic : t.automaton.graph.Symbolic)
include consistent symbolic

end

end

section
variable [Ids]

end

end StepwiseAutomata.Session
