import StepwiseAutomata.Proofs.BreakdownAll
import StepwiseAutomata.Proofs.Calls
import StepwiseAutomata.Proofs.Runs

namespace StepwiseAutomata

section
attribute [local instance] Ids.endless

namespace Breakdown

variable {a a' : Automaton} {t : Transition} {policy : IsolationPolicy}

namespace Replaces

variable (replaces : Replaces policy a t a')
include replaces

/-- The labels of the fragment are trees that the constructors build. -/
theorem flat_parts {arc : Arc} (member : arc ∈ parts a t policy) : arc.label.Flat := by
  rcases label_of_mem_expansion member with same | under
  · rw [same]
    exact .char epsilonChar
  · exact replaces.flat.of_mem_children under

theorem flat_after (flat : a.graph.Flat) : a'.graph.Flat := by
  intro arc member
  rcases (replaces.hasArc_iff arc).mp member with new | ⟨v,⟨has,_⟩,rfl⟩
  · exact replaces.flat_parts new
  · exact flat v.toArc ⟨v,has,rfl⟩

end Replaces
end Breakdown

namespace Session

open Breakdown

variable {s t : Session}

/-- With full isolation a turn keeps the language, and the labels stay trees that the constructors build. -/
theorem Turn.keeps (turn : Turn s t) (consistent : s.automaton.Consistent) (flat : s.automaton.graph.Flat)
    (full : s.settings.isolation = .full) : KeepStep s t ∧ t.automaton.graph.Flat := by
  obtain ⟨v,notes,found,performed⟩ := turn
  obtain ⟨has,compound⟩ := has_of_find? consistent found
  have graph := performed.automaton ▸ graph_replacing (a := s.automaton) _ _ notes
  have replaces : Replaces s.settings.isolation s.automaton v t.automaton :=
    ⟨consistent,has,compound,flat v.toArc ⟨v,has,rfl⟩,graph⟩
  refine ⟨.perform (sound consistent has s.settings.isolation notes) performed ?_,replaces.flat_after flat⟩
  rw [full] at replaces
  exact replaces.language_full

end Session
end

namespace Session

section
variable [Ids] {s : Session}

end

end Session
end StepwiseAutomata
