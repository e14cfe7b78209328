import StepwiseAutomata.Proofs.Plans

/-!
Most transformations rewrite a part of the automaton in the same order: transitions and states go, then states and
transitions come, and at last a state may become final. What such a rewriting needs in order to fit is said once
here, and so is the graph that it leads to.
-/
namespace StepwiseAutomata

/-- What is removed and what is added; `promoted` becomes final. -/
structure Rewriting where
  removed : List Transition := []
  dropped : List State := []
  created : List State := []
  arcs : List Arc := []
  promoted : Option Nat := none

namespace Rewriting

variable (r : Rewriting) (a : Automaton)

def removals : List Edit := r.removed.map .removeTransition ++ r.dropped.map .removeState

section
variable [Ids]

def edits : List Edit :=
  r.removals ++ r.created.map .addState ++ (a.counters.number r.arcs).map .addTransition ++
    r.promoted.toList.map (.setFinal · true false)

def plan (title : String) (notes : List Note) : Plan := .ofEdits a title (r.edits a) notes

/-- A state that is dropped takes its transitions along, new states have the next ids, and the arcs lead between
    states that are there afterwards. -/
structure Fits : Prop where
  removed_nodup : r.removed.Nodup
  removed_has : ∀ t ∈ r.removed, a.graph.Has t
  dropped_nodup : (r.dropped.map State.id).Nodup
  dropped_flag : ∀ s ∈ r.dropped, a.graph.flag? s.id = some s.isFinal
  dropped_other : ∀ s ∈ r.dropped, s.id ≠ a.start
  dropped_unused : ∀ s ∈ r.dropped, ∀ t, a.graph.Has t → t.source = s.id ∨ t.target = s.id → t ∈ r.removed
  created_ids : r.created.map State.id = Ids.series a.counters.nextState r.created.length
  ends : ∀ arc ∈ r.arcs, ∀ s, s = arc.source ∨ s = arc.target →
    s ∈ r.created.map State.id ∨ a.graph.HasState s ∧ s ∉ r.dropped.map State.id
  promoted_flag : ∀ s ∈ r.promoted, a.graph.flag? s = some false ∧ s ∉ r.dropped.map State.id

variable {r a}

@[simp] theorem added_edits : Edit.added (r.edits a) = a.counters.number r.arcs := by
  have flags : Edit.added (r.promoted.toList.map (.setFinal · true false)) = [] := by
    cases r.promoted <;> rfl
  simp [edits,removals,flags]

@[simp] theorem removed_edits : Edit.removed (r.edits a) = r.removed := by
  have flags : Edit.removed (r.promoted.toList.map (.setFinal · true false)) = [] := by
    cases r.promoted <;> rfl
  simp [edits,removals,flags]

@[simp] theorem addedStates_edits : Edit.addedStates (r.edits a) = r.created := by
  have flags : Edit.addedStates (r.promoted.toList.map (.setFinal · true false)) = [] := by
    cases r.promoted <;> rfl
  simp [edits,removals,flags]

@[simp] theorem edits_plan (title : String) (notes : List Note) :
    (r.plan a title notes).command.edits = r.edits a :=
  Command.edits_ofEdits title (r.edits a)

end

section
attribute [local instance] Ids.endless
variable {r a} (consistent : a.Consistent) (fits : r.Fits a)
include consistent fits

omit consistent in
/-- The graph without what is removed and dropped. -/
private theorem takes_removals : a.graph.Takes r.removals ∧
    ∀ i, (a.graph.editAll r.removals).flag? i = if i ∈ r.dropped.map State.id then none else a.graph.flag? i := by
  have removals := Graph.takes_removals fits.removed_nodup fits.removed_has
  have flags : (a.graph.editAll (r.removed.map .removeTransition)).flag? = a.graph.flag? :=
    Graph.flag?_editAll_of_onTransitions fun e member => by
      obtain ⟨t,_,rfl⟩ := List.mem_map.mp member
      trivial
  have others : ∀ s ∈ r.dropped, s.id ≠ (a.graph.editAll (r.removed.map .removeTransition)).start := by
    intro s member
    rw [Graph.start_editAll]
    exact fits.dropped_other s member
  rw [Rewriting.removals,Graph.takes_append,Graph.editAll_append]
  refine ⟨⟨removals,Graph.takes_removeStates fits.dropped_nodup ?_ others ?_⟩,fun i => ?_⟩
  · intro s member
    rw [flags]
    exact fits.dropped_flag s member
  · intro s member t has
    rw [Graph.has_editAll removals (by simp)] at has
    simp only [Edit.added_map_removeTransition,List.not_mem_nil,false_or,Edit.removed_map_removeTransition] at has
    constructor
    · exact fun same => has.2 (fits.dropped_unused s member t has.1 (.inl same))
    · exact fun same => has.2 (fits.dropped_unused s member t has.1 (.inr same))
  · rw [Graph.flag?_removeStates others,flags]

omit consistent in
theorem created_nodup : (r.created.map State.id).Nodup := by
  rw [fits.created_ids]
  exact Ids.nodup_series _ _

theorem created_new {s : Nat} (member : s ∈ r.created.map State.id) : a.graph.flag? s = none := by
  rw [fits.created_ids,Ids.mem_series] at member
  exact consistent.below.absent_state member.1

private theorem takes_states : a.graph.Takes (r.removals ++ r.created.map .addState) ∧
    (∀ s ∈ r.created, (a.graph.editAll (r.removals ++ r.created.map .addState)).flag? s.id = some s.isFinal) ∧
      ∀ i, i ∉ r.created.map State.id → (a.graph.editAll (r.removals ++ r.created.map .addState)).flag? i =
        if i ∈ r.dropped.map State.id then none else a.graph.flag? i := by
  obtain ⟨takes,flags⟩ := takes_removals fits
  obtain ⟨here,others⟩ := Graph.flag?_addStates (created_nodup fits) (g := a.graph.editAll r.removals)
  rw [Graph.takes_append,Graph.editAll_append]
  refine ⟨⟨takes,Graph.takes_addStates (created_nodup fits) ?_⟩,here,fun i outside => ?_⟩
  · intro s member
    rw [flags,created_new consistent fits (List.mem_map_of_mem member),ite_self]
  · rw [others i outside,flags]

private theorem takes_arcs :
    a.graph.Takes (r.removals ++ r.created.map .addState ++ (a.counters.number r.arcs).map .addTransition) := by
  obtain ⟨takes,here,others⟩ := takes_states consistent fits
  refine Graph.takes_append.mpr ⟨takes,Graph.takes_number ?_ ?_⟩
  · intro i new
    cases found : (a.graph.editAll (r.removals ++ r.created.map .addState)).transition? i with
    | none => rfl
    | some t =>
      have added : Edit.added (r.removals ++ r.created.map .addState) = [] := by simp [removals]
      have has := (consistent.closed.editAll takes).has found
      rw [Graph.has_editAll takes (by simp [added]),added] at has
      have low := consistent.below.transition t (has.resolve_left List.not_mem_nil).1
      rw [(consistent.closed.editAll takes).keyed i t found] at low
      omega
  · have present : ∀ s, s ∈ r.created.map State.id ∨ a.graph.HasState s ∧ s ∉ r.dropped.map State.id →
        (a.graph.editAll (r.removals ++ r.created.map .addState)).HasState s := by
      intro s cases
      by_cases new : s ∈ r.created.map State.id
      · obtain ⟨state,member,rfl⟩ := List.mem_map.mp new
        rw [Graph.HasState,here state member]
        rfl
      · obtain ⟨old,kept⟩ := cases.resolve_left new
        rw [Graph.HasState,others s new,if_neg kept]
        exact old
    exact fun arc member =>
      ⟨present _ (fits.ends arc member _ (.inl rfl)),present _ (fits.ends arc member _ (.inr rfl))⟩

omit consistent fits in
private theorem flag?_arcs (i : Nat) :
    (a.graph.editAll (r.removals ++ r.created.map .addState ++
      (a.counters.number r.arcs).map .addTransition)).flag? i =
    (a.graph.editAll (r.removals ++ r.created.map .addState)).flag? i := by
  rw [Graph.editAll_append,Graph.flag?_editAll_of_onTransitions]
  intro e member
  obtain ⟨t,_,rfl⟩ := List.mem_map.mp member
  trivial

omit consistent fits in
private theorem flag?_promoted (g : Graph) (p : Option Nat) (i : Nat) :
    (g.editAll (p.toList.map (.setFinal · true false))).flag? i =
      if p = some i then (g.flag? i).map fun _ => true else g.flag? i := by
  cases p with
  | none => rfl
  | some s =>
    show (g.edit (.setFinal s true false)).flag? i = _
    rw [Graph.flag?_edit_setFinal]
    by_cases same : i = s
    · rw [if_pos same,if_pos (congrArg some same.symm)]
    · rw [if_neg same,if_neg fun eq => same (Option.some.inj eq).symm]

/-- The state to be made final is old and stays. -/
private theorem promoted_not_created {s : Nat} (member : s ∈ r.promoted) : s ∉ r.created.map State.id := by
  intro new
  have absent := created_new consistent fits new
  rw [(fits.promoted_flag s member).1] at absent
  cases absent

theorem takes : a.graph.Takes (r.edits a) := by
  obtain ⟨_,_,others⟩ := takes_states consistent fits
  refine Graph.takes_append.mpr ⟨takes_arcs consistent fits,?_⟩
  cases promoted : r.promoted with
  | none => trivial
  | some s =>
    obtain ⟨flag,kept⟩ := fits.promoted_flag s promoted
    refine ⟨?_,trivial⟩
    show Graph.flag? _ s = some false
    rw [flag?_arcs,others s (promoted_not_created consistent fits promoted),if_neg kept,flag]

theorem sound (title : String) (notes : List Note) : (r.plan a title notes).Sound a := by
  refine Automaton.sound_ofEdits (takes consistent fits) ?_ added_edits
  intro s member
  rw [addedStates_edits] at member ⊢
  have listed : s.id ∈ r.created.map State.id := List.mem_map_of_mem member
  rw [fits.created_ids,Ids.mem_series] at listed
  exact listed.2

/-- The transitions afterwards are the new ones and those that are left. -/
theorem has_iff (t : Transition) : (a.graph.editAll (r.edits a)).Has t ↔
    t ∈ a.counters.number r.arcs ∨ a.graph.Has t ∧ t ∉ r.removed := by
  rw [Graph.has_editAll (takes consistent fits),added_edits,removed_edits]
  intro t new old
  rw [added_edits] at new
  rw [removed_edits] at old
  have := consistent.below.transition t (fits.removed_has t old)
  have := (Counters.id_of_mem_number new).1
  omega

/-- The arcs afterwards are the new ones and those of the transitions that are left. -/
theorem hasArc (arc : Arc) : (a.graph.editAll (r.edits a)).HasArc arc ↔
    arc ∈ r.arcs ∨ ∃ t, (a.graph.Has t ∧ t ∉ r.removed) ∧ t.toArc = arc := by
  rw [consistent.hasArc_editAll (takes consistent fits) added_edits
    (fun t member => fits.removed_has t (removed_edits (a := a) ▸ member)),removed_edits]

theorem flag?_created {s : State} (member : s ∈ r.created) :
    (a.graph.editAll (r.edits a)).flag? s.id = some s.isFinal := by
  rw [edits,Graph.editAll_append,flag?_promoted,if_neg,flag?_arcs]
  · exact (takes_states consistent fits).2.1 s member
  · exact fun promoted => promoted_not_created consistent fits promoted (List.mem_map_of_mem member)

theorem flag?_other {i : Nat} (outside : i ∉ r.created.map State.id) : (a.graph.editAll (r.edits a)).flag? i =
    if r.promoted = some i then some true else if i ∈ r.dropped.map State.id then none else a.graph.flag? i := by
  rw [edits,Graph.editAll_append,flag?_promoted,flag?_arcs,(takes_states consistent fits).2.2 i outside]
  by_cases promoted : r.promoted = some i
  · obtain ⟨flag,kept⟩ := fits.promoted_flag i promoted
    rw [if_pos promoted,if_pos promoted,if_neg kept,flag]
    rfl
  · rw [if_neg promoted,if_neg promoted]

theorem hasState_iff (i : Nat) : (a.graph.editAll (r.edits a)).HasState i ↔
    i ∈ r.created.map State.id ∨ a.graph.HasState i ∧ i ∉ r.dropped.map State.id := by
  by_cases new : i ∈ r.created.map State.id
  · obtain ⟨s,member,rfl⟩ := List.mem_map.mp new
    rw [Graph.HasState,flag?_created consistent fits member]
    exact ⟨fun _ => .inl new,fun _ => rfl⟩
  · rw [Graph.HasState,flag?_other consistent fits new]
    by_cases promoted : r.promoted = some i
    · obtain ⟨flag,kept⟩ := fits.promoted_flag i promoted
      rw [if_pos promoted]
      exact ⟨fun _ => .inr ⟨by rw [Graph.HasState,flag]; rfl,kept⟩,fun _ => rfl⟩
    · rw [if_neg promoted]
      by_cases dropped : i ∈ r.dropped.map State.id
      · rw [if_pos dropped]
        exact ⟨fun impossible => absurd impossible Bool.false_ne_true,
          fun cases => ((cases.resolve_left new).2 dropped).elim⟩
      · rw [if_neg dropped]
        exact ⟨fun present => .inr ⟨present,dropped⟩,fun cases => (cases.resolve_left new).1⟩

theorem isFinal_iff (i : Nat) : (a.graph.editAll (r.edits a)).IsFinal i ↔
    ⟨i,true⟩ ∈ r.created ∨ r.promoted = some i ∨ a.graph.IsFinal i ∧ i ∉ r.dropped.map State.id := by
  by_cases new : i ∈ r.created.map State.id
  · have absent := created_new consistent fits new
    obtain ⟨⟨i,b⟩,member,rfl⟩ := List.mem_map.mp new
    rw [Graph.IsFinal,flag?_created consistent fits member]
    constructor
    · intro final
      exact .inl (Option.some.inj final ▸ member)
    · rintro (final | promoted | ⟨final,_⟩)
      · rw [List.inj_on_of_nodup_map (created_nodup fits) member final rfl]
      · exact (promoted_not_created consistent fits promoted new).elim
      · cases absent.symm.trans final
  · have outside : (⟨i,true⟩ : State) ∉ r.created := fun member => new (List.mem_map_of_mem member)
    rw [Graph.IsFinal,flag?_other consistent fits new,or_iff_right outside]
    by_cases promoted : r.promoted = some i
    · rw [if_pos promoted]
      exact ⟨fun _ => .inl promoted,fun _ => rfl⟩
    · rw [if_neg promoted,or_iff_right promoted]
      by_cases dropped : i ∈ r.dropped.map State.id
      · rw [if_pos dropped]
        exact ⟨fun impossible => absurd impossible.symm (Option.some_ne_none true),fun final => (final.2 dropped).elim⟩
      · rw [if_neg dropped]
        exact ⟨fun final => ⟨final,dropped⟩,And.left⟩

end

end Rewriting
end StepwiseAutomata
