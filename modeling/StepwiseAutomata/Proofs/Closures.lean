import StepwiseAutomata.Proofs.Epsilon
import StepwiseAutomata.Proofs.Simplification
import StepwiseAutomata.Proofs.Snapshot

namespace StepwiseAutomata

namespace EpsilonContext

variable {a : Automaton}

/-- The classes divide the states up, and states of one class are those that slide into each other. -/
structure Divides (a : Automaton) (classes : List StateSet) : Prop where
  filled : ∀ c ∈ classes, c.isEmpty = false
  apart : classes.Pairwise fun c d => ∀ x ∈ c, x ∉ d
  covers : ∀ x, (∃ c ∈ classes, x ∈ c) ↔ a.hasState x = true
  together : ∀ x y, (∃ c ∈ classes, x ∈ c ∧ y ∈ c) ↔
    a.hasState x = true ∧ a.hasState y = true ∧ a.graph.Slides x y ∧ a.graph.Slides y x

theorem exists_class_iff {x y : Nat} : (∃ c ∈ (ofAutomaton a).classes, x ∈ c ∧ y ∈ c) ↔
    a.graph.HasState x ∧ a.graph.HasState y ∧ a.closure x = a.closure y := by
  constructor
  · rintro ⟨c,listed,first,second⟩
    obtain ⟨z,_,rfl⟩ := mem_classes.mp listed
    obtain ⟨here,same⟩ := mem_sharing.mp first
    obtain ⟨there,equal⟩ := mem_sharing.mp second
    exact ⟨here,there,same.trans equal.symm⟩
  · rintro ⟨here,there,same⟩
    exact ⟨_,mem_classes.mpr ⟨x,here,rfl⟩,mem_sharing.mpr ⟨here,rfl⟩,mem_sharing.mpr ⟨there,same.symm⟩⟩

theorem divides_classes (indexed : a.Indexed) : Divides a (ofAutomaton a).classes where
  filled := by
    intro c listed
    obtain ⟨x,here,rfl⟩ := mem_classes.mp listed
    rw [StateSet.isEmpty,List.isEmpty_eq_false_iff]
    exact List.ne_nil_of_mem (mem_sharing.mpr ⟨here,rfl⟩)
  apart := by
    -- A state of two classes would have both their closures, and no closure is listed twice.
    refine List.pairwise_map.mpr ((Regex.nodup_eraseDups _).imp fun other x first second => other ?_)
    exact (mem_sharing.mp first).2.symm.trans (mem_sharing.mp second).2
  covers := by
    intro x
    rw [Automaton.hasState_iff]
    have own := exists_class_iff (a := a) (x := x) (y := x)
    simpa using own
  together := by
    intro x y
    rw [exists_class_iff,indexed.closure_eq_iff,Automaton.hasState_iff,Automaton.hasState_iff]

/-- The states of the context are told to be equivalent when they slide into each other. -/
theorem areEquivalent_iff (indexed : a.Indexed) {x y : Nat} : (ofAutomaton a).areEquivalent x y = true ↔
    a.hasState x = true ∧ a.hasState y = true ∧ a.graph.Slides x y ∧ a.graph.Slides y x := by
  rw [← (divides_classes indexed).together,exists_class_iff,areEquivalent]
  by_cases here : a.graph.HasState x
  · obtain ⟨c,found⟩ := exists_classOf? here
    rw [found,Option.map_some,Option.getD_some,StateSet.contains_iff,mem_classOf? found,eq_comm]
    exact (and_iff_right here).symm
  · have unknown : (ofAutomaton a).classOf? x = none := by
      by_contra known
      obtain ⟨c,found⟩ := Option.ne_none_iff_exists'.mp known
      exact here (exists_class_iff.mp ⟨c,List.mem_of_find?_eq_some found,mem_of_classOf? found,mem_of_classOf? found⟩).1
    rw [unknown]
    exact ⟨nofun,fun both => absurd both.1 here⟩

end EpsilonContext

namespace Automaton

/-- Whatever pending state a search takes first, it comes to an end, and then it has seen the closure, which holds the
    states that can be slid into. The classes divide the states up, and two states are in one class when they slide
    into each other. -/
theorem closures_exact {a : Automaton} (consistent : a.Consistent) :
    (∀ s x, x ∈ a.closure s ↔ a.graph.Slides s x) ∧
    (∀ states x, x ∈ a.closureOf states ↔ ∃ s ∈ states, a.graph.Slides s x) ∧
    (WellFounded fun after before => Search.Turn a.epsilonArcs before after) ∧
    (∀ (states : StateSet) (last : Search),
      Search.Ends a.epsilonArcs states.members last ↔ last = ⟨[],a.closureOf states⟩) ∧
    EpsilonContext.Divides a (EpsilonContext.ofAutomaton a).classes :=
  ⟨fun _ _ => consistent.mem_closure,fun _ _ => consistent.mem_closureOf,Search.wellFounded_turn _,
    fun _ _ => Search.ends_iff,EpsilonContext.divides_classes consistent.toIndexed⟩

/-- Two states of a cycle are one class, and the state that leads into the cycle is one of its own. -/
theorem closures_exact_cycle : ∃ a : Automaton, a.Consistent ∧ a.graph.Slides 0 2 ∧ ¬a.graph.Slides 2 0 ∧
    (∃ c ∈ (EpsilonContext.ofAutomaton a).classes, 1 ∈ c ∧ 2 ∈ c) ∧
    Search.Ends a.epsilonArcs [0,3] ⟨[],.ofList [0,1,2,3]⟩ := by
  let picture : Snapshot := ⟨0,[⟨0,false⟩,⟨1,false⟩,⟨2,false⟩,⟨3,true⟩],
    [⟨0,0,1,"ε"⟩,⟨1,1,2,"ε"⟩,⟨2,2,1,"ε"⟩,⟨3,2,2,"ε"⟩,⟨4,2,3,"ab*"⟩],none,none⟩
  obtain ⟨a,consistent,first,second,third,all,here,there⟩ : ∃ a : Automaton, a.Consistent ∧
      a.closure 0 = .ofList [0,1,2] ∧ a.closure 1 = .ofList [1,2] ∧ a.closure 2 = .ofList [1,2] ∧
      a.closureOf (.ofList [0,3]) = .ofList [0,1,2,3] ∧ a.hasState 1 = true ∧ a.hasState 2 = true :=
    ⟨_,Snapshot.consistent_restore (by decide) (show picture.restore = .ok _ from rfl),by decide +kernel,by decide +kernel,
      by decide +kernel,by decide +kernel,by decide +kernel,by decide +kernel⟩
  obtain ⟨closure,_,_,ends,divides⟩ := closures_exact consistent
  refine ⟨a,consistent,?_,?_,?_,?_⟩
  · rw [← closure,first]
    decide
  · rw [← closure,third]
    decide
  · rw [divides.together,← closure,← closure,second,third]
    exact ⟨here,there,by decide,by decide⟩
  · exact (ends (.ofList [0,3]) _).mpr (by rw [all])

end Automaton
end StepwiseAutomata
