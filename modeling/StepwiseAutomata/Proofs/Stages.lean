import StepwiseAutomata.Proofs.Classes
import StepwiseAutomata.Proofs.Resolution
import StepwiseAutomata.Proofs.Runs
import StepwiseAutomata.Proofs.Simulation
import StepwiseAutomata.Proofs.Trimming

namespace StepwiseAutomata

attribute [local instance] Ids.endless

namespace Session

variable {s : Session}

/-- While states are merged, those left of a class slide into each other, and once the start state has had its turn
    it is the only one left of its class. -/
structure Merging (s : Session) (order : List Nat) (t : Session) : Prop where
  keeps : Keeps s t
  plain : t.automaton.graph.Plain
  old : ∀ x, t.automaton.graph.HasState x → s.automaton.graph.HasState x
  slides : ∀ x y, t.automaton.graph.HasState x → t.automaton.graph.HasState y →
    s.automaton.closure x = s.automaton.closure y → t.automaton.graph.Slides x y
  alone : (∃ rest, order = s.automaton.start :: rest) ∨ ∀ x, t.automaton.graph.HasState x →
    s.automaton.closure x = s.automaton.closure s.automaton.start → x = s.automaton.start

section
variable (consistent : s.automaton.Consistent) (ready : s.Ready)
include consistent ready

section
variable {state : Nat} {order : List Nat} {t : Session} (start : Merging s (state :: order) t)
include start

omit consistent ready in
/-- It is the turn of the start state, or this state is the only one left of its class. -/
private theorem Merging.alone_cases : state = s.automaton.start ∨ ∀ x, t.automaton.graph.HasState x →
    s.automaton.closure x = s.automaton.closure s.automaton.start → x = s.automaton.start :=
  start.alone.imp_left fun headed => headed.elim fun _ same => (List.cons.inj same).1

omit ready in
private theorem Merging.merged : Automaton.Merged s.automaton t.automaton :=
  ⟨start.keeps.consistent consistent,start.keeps.start,start.keeps.language,start.old,start.slides⟩

omit consistent ready in
/-- As the start state has its turn first, its class is not merged into another state. -/
private theorem Merging.mergeable (here : t.automaton.graph.HasState state)
    (several : (EpsilonContext.ofAutomaton s.automaton).hasEquivalent t.automaton state = true) :
    Automaton.Mergeable (.ofAutomaton s.automaton) t.automaton state where
  present := Automaton.hasState_iff.mpr here
  several
  start := by
    intro c found inside
    have shared := ((EpsilonContext.mem_classOf? found).mp inside).2
    rw [start.keeps.start] at shared ⊢
    rcases start.alone_cases with first | alone
    · exact first
    · exact alone state here shared.symm

section
variable {c : StateSet} (found : (EpsilonContext.ofAutomaton s.automaton).classOf? state = some c)
include found

omit ready in
/-- Merging what is left of the class into the state goes on with what holds. -/
private theorem Merging.step (mergeable : Automaton.Mergeable (.ofAutomaton s.automaton) t.automaton state)
    {title : String} {notes : List Note} {p : Plan} {u : Session}
    (plan : p = (t.automaton.merging (c.filter t.automaton.hasState) state).plan t.automaton title notes)
    (performed : Performed p t u) (sound : p.Sound t.automaton) : Merging s order u := by
  subst plan
  have merged := start.merged consistent
  have next : Automaton.Merged s.automaton u.automaton :=
    performed.automaton ▸ merged.step mergeable found title notes
  obtain ⟨present,member,first,_⟩ := merged.class_left mergeable found
  have graph := performed.graph
  rw [Rewriting.edits_plan] at graph
  have language := next.language.trans merged.language.symm
  refine ⟨start.keeps.tail (.perform sound performed language),?_,next.old,next.slides,.inr fun x there same => ?_⟩
  · intro arc has
    rw [graph] at has
    obtain ⟨p,q,before,same⟩ := Automaton.hasArc_merging merged.consistent present member first has
    exact start.plain ⟨p,q,arc.label⟩ before
  · rw [graph,Automaton.hasState_merging merged.consistent present member first] at there
    obtain ⟨before,kept⟩ := there
    rcases start.alone_cases with turn | alone
    · by_contra other
      refine kept (StateSet.mem_erase.mpr ⟨StateSet.mem_filter.mpr ⟨?_,Automaton.hasState_iff.mpr before⟩,?_⟩)
      · exact (EpsilonContext.mem_classOf? found).mpr ⟨start.old x before,by rw [same,turn]⟩
      · rw [turn]; exact other
    · exact alone x before same

end

end

end

end Session
end StepwiseAutomata
