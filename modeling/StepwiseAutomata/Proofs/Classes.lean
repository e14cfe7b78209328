import StepwiseAutomata.Proofs.Calls
import StepwiseAutomata.Proofs.Epsilon
import StepwiseAutomata.Proofs.Ordering
import StepwiseAutomata.Proofs.Simulation

namespace StepwiseAutomata

open Relation

namespace Automaton

section
attribute [local instance] Ids.endless

/-- Another state of the class is left, and the class of the start state is merged into the start state only. -/
structure Mergeable (ctx : EpsilonContext) (a : Automaton) (state : Nat) : Prop where
  present : a.hasState state = true
  several : ctx.hasEquivalent a state = true
  start : ∀ c, ctx.classOf? state = some c → a.start ∈ c → state = a.start

/-- What holds of the automaton on the way, compared to the one whose classes are merged. -/
structure Merged (a b : Automaton) : Prop where
  consistent : b.Consistent
  start : b.start = a.start
  language : b.language = a.language
  old : ∀ x, b.graph.HasState x → a.graph.HasState x
  slides : ∀ x y, b.graph.HasState x → b.graph.HasState y → a.closure x = a.closure y → b.graph.Slides x y

/-- Every arc of the second comes from one of the first between states of the same classes. -/
def Traces (a b : Automaton) : Prop := ∀ p q l, b.graph.HasArc ⟨p,q,l⟩ →
  ∃ p' q', a.graph.HasArc ⟨p',q',l⟩ ∧ a.closure p' = a.closure p ∧ a.closure q' = a.closure q

variable {a b : Automaton}

theorem Merged.refl (consistent : a.Consistent) : Merged a a where
  consistent
  start := rfl
  language := rfl
  old := fun _ there => there
  slides := by
    intro x y _ _ same
    exact (consistent.closure_eq_iff.mp same).1

/-- Sliding on the way is sliding at first, up to classes. -/
theorem Traces.slides (traces : Traces a b) (consistent : a.Consistent) {x y : Nat} (slides : b.graph.Slides x y) :
    a.graph.Slides x y := by
  induction slides with
  | refl => exact .refl
  | @tail y z _ arc ih =>
    obtain ⟨p,q,before,source,target⟩ := traces y z .epsilon arc
    have around := (consistent.closure_eq_iff.mp source).2
    have last := (consistent.closure_eq_iff.mp target).1
    exact ((ih.trans around).tail before).trans last

section
variable (merged : Merged a b) {state : Nat} (mergeable : Mergeable (.ofAutomaton a) b state)
include merged mergeable

/-- The class is known, and merging what is left of it is not refused. -/
theorem Merged.mergeEquivalent_eq : ∃ c, (EpsilonContext.ofAutomaton a).classOf? state = some c ∧
    ∃ title notes, b.mergeEquivalent (.ofAutomaton a) state =
      .ok ((b.merging (c.filter b.hasState) state).plan b title notes) := by
  have here := hasState_iff.mp mergeable.present
  obtain ⟨c,found⟩ := EpsilonContext.exists_classOf? (merged.old state here)
  refine ⟨c,found,_,_,Automaton.mergeEquivalent_eq found here ?_ ?_⟩
  · exact fun inside => mergeable.start c found (StateSet.mem_filter.mp inside).1
  · exact (EpsilonContext.hasEquivalent_iff found).mp mergeable.several

section
variable {c : StateSet} (found : (EpsilonContext.ofAutomaton a).classOf? state = some c)
include found

/-- What is merged is there, the state is part of it, and all of it slides into the state and back. -/
theorem Merged.class_left : (∀ x ∈ c.filter b.hasState, b.graph.HasState x) ∧ state ∈ c.filter b.hasState ∧
    (b.start ∈ c.filter b.hasState → state = b.start) ∧
    ∀ x ∈ c.filter b.hasState, b.graph.Slides state x ∧ b.graph.Slides x state := by
  have here := hasState_iff.mp mergeable.present
  have present : ∀ x ∈ c.filter b.hasState, b.graph.HasState x :=
    fun x member => hasState_iff.mp (StateSet.mem_filter.mp member).2
  refine ⟨present,StateSet.mem_filter.mpr ⟨EpsilonContext.mem_of_classOf? found,mergeable.present⟩,?_,?_⟩
  · exact fun inside => mergeable.start c found (StateSet.mem_filter.mp inside).1
  · intro x inside
    have same := ((EpsilonContext.mem_classOf? found).mp (StateSet.mem_filter.mp inside).1).2
    exact ⟨merged.slides state x here (present x inside) same.symm,merged.slides x state (present x inside) here same⟩

omit merged mergeable in
/-- A state is put on one of its own class. -/
private theorem closure_put (x : Nat) : a.closure (put (c.filter b.hasState) state x) = a.closure x := by
  by_cases inside : x ∈ c.filter b.hasState
  · rw [put_of_mem inside]
    exact ((EpsilonContext.mem_classOf? found).mp (StateSet.mem_filter.mp inside).1).2.symm
  · rw [put_of_not_removed fun gone => inside (StateSet.mem_erase.mp gone).1]

/-- A merge goes on with what holds. -/
theorem Merged.step (title : String) (notes : List Note) :
    Merged a (b.perform ((b.merging (c.filter b.hasState) state).plan b title notes)) := by
  obtain ⟨present,member,first,slides⟩ := merged.class_left mergeable found
  have good := merged.consistent
  have sound := Rewriting.sound good (merging_fits good present member first) title notes
  have graph := graph_perform (a := b) ((b.merging (c.filter b.hasState) state).plan b title notes)
  rw [Rewriting.edits_plan] at graph
  have states (x : Nat) (there : (b.graph.editAll ((b.merging (c.filter b.hasState) state).edits b)).HasState x) :=
    (hasState_merging good present member first x).mp there
  refine ⟨good.perform sound,?_,?_,?_,?_⟩
  · rw [← start_graph,graph,Graph.start_editAll]
    exact merged.start
  · rw [Automaton.language,graph,language_merging good present member first slides]
    exact merged.language
  · rw [graph]
    exact fun x there => merged.old x (states x there).1
  · rw [graph]
    intro x y there there' same
    obtain ⟨before,kept⟩ := states x there
    obtain ⟨before',kept'⟩ := states y there'
    have path := slides_merging good present member first (merged.slides x y before before' same)
    rwa [put_of_not_removed kept,put_of_not_removed kept'] at path

theorem Merged.traces (traces : Traces a b) (title : String) (notes : List Note) :
    Traces a (b.perform ((b.merging (c.filter b.hasState) state).plan b title notes)) := by
  obtain ⟨present,member,first,_⟩ := merged.class_left mergeable found
  intro p q l has
  rw [graph_perform,Rewriting.edits_plan] at has
  obtain ⟨p',q',before,same⟩ := hasArc_merging merged.consistent present member first has
  cases same
  obtain ⟨p'',q'',arc,source,target⟩ := traces p' q' l before
  exact ⟨p'',q'',arc,source.trans (closure_put found p').symm,target.trans (closure_put found q').symm⟩

/-- The merge is not refused. The state that takes in the others of its class is final just where one of them was, and what
    is added is no `ε` loop, comes once, and has not been there. -/
theorem Merged.merge : ∃ p, b.mergeEquivalent (.ofAutomaton a) state = .ok p ∧ Merged a (b.perform p) ∧
    (∀ x, (b.perform p).hasState x = true ↔ b.hasState x = true ∧ (x ∈ c → x = state)) ∧
    ((b.perform p).isFinal state = true ↔ ∃ x ∈ c, b.isFinal x = true) ∧
    ((Edit.added p.command.edits).map Transition.toArc).Nodup ∧
    ∀ t ∈ Edit.added p.command.edits, t.isEpsilonLoop = false ∧ b.hasArc t.toArc = false := by
  have good := merged.consistent
  obtain ⟨c',found',title,notes,made⟩ := merged.mergeEquivalent_eq mergeable
  obtain rfl := Option.some.inj (found.symm.trans found')
  obtain ⟨present,member,first,_⟩ := merged.class_left mergeable found
  refine ⟨_,made,merged.step mergeable found title notes,fun x => ?_,?_,?_,fun t listed => ?_⟩
  · rw [hasState_iff,hasState_iff,graph_perform,Rewriting.edits_plan,hasState_merging good present member first,
      StateSet.mem_erase,StateSet.mem_filter,hasState_iff]
    constructor
    · rintro ⟨there,kept⟩
      exact ⟨there,fun inside => by_contra fun other => kept ⟨⟨inside,there⟩,other⟩⟩
    · rintro ⟨there,only⟩
      exact ⟨there,fun gone => gone.2 (only gone.1.1)⟩
  · simp only [isFinal_iff]
    rw [graph_perform,Rewriting.edits_plan,isFinal_merging good present member first]
    constructor
    · rintro ⟨r,final,same⟩
      by_cases inside : r ∈ c.filter b.hasState
      · exact ⟨r,(StateSet.mem_filter.mp inside).1,final⟩
      · rw [put_of_not_removed fun gone => inside (StateSet.mem_erase.mp gone).1] at same
        exact absurd (same ▸ member) inside
    · rintro ⟨x,inside,final⟩
      have there : b.hasState x = true := hasState_iff.mpr (by rw [Graph.HasState,final]; rfl)
      exact ⟨x,final,(put_of_mem (StateSet.mem_filter.mpr ⟨inside,there⟩)).symm⟩
  · rw [Rewriting.edits_plan,Rewriting.added_edits,Counters.map_toArc_number]
    exact (nodup_eraseReps_mergeSort _).filter _
  · rw [Rewriting.edits_plan,Rewriting.added_edits] at listed
    obtain ⟨_,loop,new⟩ := good.mem_merging_arcs.mp (Counters.toArc_mem_of_mem_number listed)
    exact ⟨loop,Bool.not_eq_true _ |>.mp fun old => new (good.hasArc_iff.mp old)⟩

end

end

/-- With at most one state left of each class, no two states are left that slide into each other. -/
theorem Merged.apart (merged : Merged a b) (traces : Traces a b) (consistent : a.Consistent)
    (single : ∀ c ∈ (EpsilonContext.ofAutomaton a).classes, ∀ x ∈ c, ∀ y ∈ c, b.hasState x = true →
      b.hasState y = true → x = y) {x y : Nat} (here : b.hasState x = true) (there : b.hasState y = true)
    (forth : y ∈ b.closure x) (back : x ∈ b.closure y) : x = y := by
  rw [merged.consistent.mem_closure] at forth back
  have forth := traces.slides consistent forth
  have back := traces.slides consistent back
  have same : a.closure y = a.closure x := consistent.closure_eq_iff.mpr ⟨back,forth⟩
  have old := merged.old x (hasState_iff.mp here)
  obtain ⟨c,found⟩ := EpsilonContext.exists_classOf? old
  have listed : c ∈ (EpsilonContext.ofAutomaton a).classes := List.mem_of_find?_eq_some found
  refine single c listed x (EpsilonContext.mem_of_classOf? found) y ?_ here there
  exact (EpsilonContext.mem_classOf? found).mpr ⟨merged.old y (hasState_iff.mp there),same⟩

end

end Automaton

namespace Session

end Session
end StepwiseAutomata
