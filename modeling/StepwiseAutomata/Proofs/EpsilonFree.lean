import StepwiseAutomata.Proofs.Agreement
import StepwiseAutomata.Proofs.Epsilon
import StepwiseAutomata.Proofs.ListOrder

/-!
Removing the `ε` transitions of one state after the other. The closure of a state changes on the way, as the states that
it slides through lose their `ε` transitions, but what is accepted from a state does not, and no other state is touched.
So in any order an automaton without `ε` transitions is left, in which every state accepts what it did.
-/
namespace StepwiseAutomata

namespace Automaton

section
attribute [local instance] Ids.endless

variable {a b : Automaton}

section
variable {state : Nat} (consistent : a.Consistent) (present : a.graph.HasState state)
include consistent present

/-- Other states keep their flags and what leaves them. -/
theorem state?_sliding {s : Nat} (other : s ≠ state) (title : String) (notes : List Note) :
    (a.perform ((a.sliding state).plan a title notes)).state? s = a.state? s := by
  have flag : (a.perform ((a.sliding state).plan a title notes)).graph.flag? s = a.graph.flag? s := by
    have keeps : (a.sliding state).promoted ≠ some s := fun found => other (heir_flag present found).1
    rw [graph_perform,Rewriting.edits_plan,
      Rewriting.flag?_other consistent (sliding_fits consistent present) List.not_mem_nil,if_neg keeps]
    exact if_neg List.not_mem_nil
  refine Option.ext fun r => ?_
  rw [state?_eq_some_iff,state?_eq_some_iff,flag]

theorem outgoing_sliding {s : Nat} (other : s ≠ state) (title : String) (notes : List Note) :
    (a.perform ((a.sliding state).plan a title notes)).outgoing s = a.outgoing s := by
  have takes := Rewriting.takes consistent (sliding_fits consistent present)
  rw [← Rewriting.edits_plan (a := a) title notes] at takes
  refine consistent.listed_perform_elsewhere (e := .source) takes (fun t member => ?_) fun t member => ?_
  · rw [Rewriting.edits_plan,Rewriting.added_edits] at member
    have source := (consistent.mem_sliding_arcs.mp (Counters.toArc_mem_of_mem_number member)).1
    exact fun here => other (here.symm.trans source)
  · rw [Rewriting.edits_plan,Rewriting.removed_edits] at member
    have source := (consistent.mem_sliding_removed.mp member).2.1
    exact fun here => other (here.symm.trans source)

end

/-- An `ε` transition leaves the state. -/
def Slips (a : Automaton) (state : Nat) : Prop := ∃ t ∈ a.outgoing state, t.isEpsilon = true

theorem Indexed.slips_iff (indexed : a.Indexed) {state : Nat} :
    a.Slips state ↔ ∃ q, a.graph.HasArc ⟨state,q,.epsilon⟩ := by
  constructor
  · rintro ⟨⟨⟨source,target,label⟩,id⟩,member,hidden⟩
    obtain ⟨has,rfl⟩ := (indexed.outgoing_iff state _).mp member
    obtain rfl := isEpsilon_iff.mp hidden
    exact ⟨target,_,has,rfl⟩
  · rintro ⟨q,t,has,same⟩
    exact ⟨t,(indexed.outgoing_iff state t).mpr ⟨has,by rw [same]⟩,isEpsilon_iff.mpr (by rw [same])⟩

/-- What removing the `ε` transitions of a state does. -/
structure Slid (a : Automaton) (state : Nat) (b : Automaton) : Prop where
  consistent : b.Consistent
  accepts : ∀ s, b.graph.accepts s = a.graph.accepts s
  start : b.start = a.start
  hasState : ∀ s, b.graph.HasState s ↔ a.graph.HasState s
  visible : ¬b.Slips state
  outgoing : ∀ s, s ≠ state → b.outgoing s = a.outgoing s
  flags : ∀ s, s ≠ state → b.state? s = a.state? s

theorem slid_removeEpsilon (consistent : a.Consistent) {state : Nat} (slips : a.Slips state) :
    ∃ p, a.removeEpsilon state = .ok p ∧ Slid a state (a.perform p) := by
  have present : a.graph.HasState state := by
    obtain ⟨q,t,has,same⟩ := consistent.slips_iff.mp slips
    rw [show state = t.source by rw [same]]
    exact consistent.closed.source_present t has
  have made := removeEpsilon_eq present (List.any_eq_true.mpr slips)
  have graph := graph_perform (a := a) ((a.sliding state).plan a s!"Remove epsilon transitions from state {state}" [])
  rw [Rewriting.edits_plan] at graph
  have after := consistent.perform (removeEpsilon_sound consistent made)
  refine ⟨_,made,after,fun s => ?_,?_,fun s => ?_,fun slips => ?_,
    fun s other => outgoing_sliding consistent present other _ _,
    fun s other => state?_sliding consistent present other _ _⟩
  · rw [graph,accepts_sliding consistent present]
  · rw [← start_graph,graph,Graph.start_editAll]
    rfl
  · rw [graph,Rewriting.hasState_iff consistent (sliding_fits consistent present)]
    exact ⟨fun cases => (cases.resolve_left List.not_mem_nil).1,fun there => .inr ⟨there,List.not_mem_nil⟩⟩
  · obtain ⟨q,arc⟩ := after.slips_iff.mp slips
    rw [graph,hasArc_sliding consistent present] at arc
    rcases arc with ⟨_,kept⟩ | ⟨_,other,_⟩
    · exact kept ⟨rfl,rfl⟩
    · exact other rfl

/-- On the way: `ε` transitions leave exactly the states that are still to come. -/
structure Draining (a : Automaton) (order : List Nat) (b : Automaton) : Prop where
  consistent : b.Consistent
  accepts : ∀ s, b.graph.accepts s = a.graph.accepts s
  start : b.start = a.start
  hasState : ∀ s, b.graph.HasState s ↔ a.graph.HasState s
  nodup : order.Nodup
  pending : ∀ s, s ∈ order ↔ b.Slips s

theorem Draining.step {state : Nat} {order : List Nat} (draining : Draining a (state :: order) b) :
    ∃ p, b.removeEpsilon state = .ok p ∧ Draining a order (b.perform p) := by
  obtain ⟨p,made,slid⟩ :=
    slid_removeEpsilon draining.consistent ((draining.pending state).mp List.mem_cons_self)
  obtain ⟨fresh,nodup⟩ := List.nodup_cons.mp draining.nodup
  refine ⟨p,made,slid.consistent,fun s => (slid.accepts s).trans (draining.accepts s),slid.start.trans draining.start,
    fun s => (slid.hasState s).trans (draining.hasState s),nodup,fun s => ?_⟩
  by_cases same : s = state
  · rw [same]
    exact ⟨fun member => absurd member fresh,fun slips => absurd slips slid.visible⟩
  · rw [Slips,slid.outgoing s same]
    exact (List.mem_cons.trans (or_iff_right same)).symm.trans (draining.pending s)

end

end Automaton

namespace Session

section
attribute [local instance] Ids.endless

end

end Session

namespace Session

end Session
end StepwiseAutomata
