import StepwiseAutomata.Proofs.Determinism

namespace StepwiseAutomata
open scoped Computability

namespace Graph

variable {g : Graph}

/-- States stop to be final, each with a transition that is added for it. -/
def handOver (pairs : List (Nat × Transition)) : List Edit :=
  pairs.flatMap fun (s,t) => [.setFinal s false true,.addTransition t]

theorem added_handOver (pairs : List (Nat × Transition)) : Edit.added (handOver pairs) = pairs.map Prod.snd := by
  induction pairs with
  | nil => rfl
  | cons z pairs ih => exact congrArg (z.2 :: ·) ih

theorem removed_handOver (pairs : List (Nat × Transition)) : Edit.removed (handOver pairs) = [] := by
  induction pairs with
  | nil => rfl
  | cons z pairs ih => exact ih

theorem addedStates_handOver (pairs : List (Nat × Transition)) : Edit.addedStates (handOver pairs) = [] := by
  induction pairs with
  | nil => rfl
  | cons z pairs ih => exact ih

theorem takes_handOver {pairs : List (Nat × Transition)} (states : (pairs.map Prod.fst).Nodup)
    (final : ∀ z ∈ pairs, g.IsFinal z.1) (ids : ((pairs.map Prod.snd).map Transition.id).Nodup)
    (absent : ∀ z ∈ pairs, g.transition? z.2.id = none)
    (ends : ∀ z ∈ pairs, g.HasState z.2.source ∧ g.HasState z.2.target) : g.Takes (handOver pairs) ∧
      ∀ i, (g.editAll (handOver pairs)).flag? i = if i ∈ pairs.map Prod.fst then some false else g.flag? i := by
  induction pairs generalizing g with
  | nil => exact ⟨trivial,fun i => by simp [handOver]⟩
  | cons z pairs ih =>
    obtain ⟨s,t⟩ := z
    obtain ⟨newState,states⟩ := List.nodup_cons.mp states
    obtain ⟨newId,ids⟩ := List.nodup_cons.mp ids
    have flags (i : Nat) : ((g.edit (.setFinal s false true)).edit (.addTransition t)).flag? i =
        if i = s then some false else g.flag? i := by
      rw [flag?_edit_addTransition,flag?_edit_setFinal]
      split
      · rename_i same
        rw [same,final (s,t) (by simp)]
        rfl
      · rfl
    have keeps (i : Nat) (present : g.HasState i) :
        ((g.edit (.setFinal s false true)).edit (.addTransition t)).HasState i := by
      rw [HasState,flags]
      split
      · rfl
      · exact present
    obtain ⟨takes,after⟩ := ih (g := (g.edit (.setFinal s false true)).edit (.addTransition t)) states
      (by
        intro z member
        rw [IsFinal,flags,if_neg]
        · exact final z (by simp [member])
        · intro same
          have listed : z.1 ∈ pairs.map Prod.fst := List.mem_map_of_mem member
          exact newState (same ▸ listed))
      ids
      (by
        intro z member
        rw [transition?_edit_addTransition,if_neg]
        · exact absent z (by simp [member])
        · intro same
          exact newId (same ▸ List.mem_map_of_mem (List.mem_map_of_mem member)))
      fun z member => ⟨keeps _ (ends z (by simp [member])).1,keeps _ (ends z (by simp [member])).2⟩
    have here := ends (s,t) (by simp)
    have stays (i : Nat) (present : g.HasState i) : (g.edit (.setFinal s false true)).HasState i := keeps i present
    refine ⟨⟨final (s,t) (by simp),⟨absent (s,t) (by simp),stays _ here.1,stays _ here.2⟩,takes⟩,?_⟩
    intro i
    show (Graph.editAll _ (handOver pairs)).flag? i = _
    rw [after,flags]
    by_cases same : i = s
    · simp [same]
    · simp only [List.map_cons,List.mem_cons,same,false_or,if_false]

end Graph

namespace Automaton

variable {a : Automaton}

def finalIds (a : Automaton) : List Nat := a.finalStates.map State.id

/-- The arcs from the final states to the new one. -/
def isolationArcs (a : Automaton) : List Arc := a.finalIds.map fun s => ⟨s,a.counters.nextState,.epsilon⟩

theorem mem_finalIds {s : Nat} : s ∈ a.finalIds ↔ a.graph.IsFinal s := by
  simp only [finalIds,List.mem_map,mem_finalStates_iff]
  constructor
  · rintro ⟨r,⟨_,final⟩,rfl⟩; exact final
  · intro final; exact ⟨⟨s,true⟩,⟨rfl,final⟩,rfl⟩

theorem states_map_id (a : Automaton) : a.states.map State.id = a.stateIds := by
  rw [states,List.map_map]
  rfl

theorem finalIds_nodup (a : Automaton) : a.finalIds.Nodup := by
  have sub : a.finalIds.Sublist a.stateIds := by
    rw [finalIds,← states_map_id]
    exact List.filter_sublist.map _
  exact sub.nodup a.stateIds_nodup

theorem Indexed.mem_bypasses (indexed : a.Indexed) {state : Nat} {arc : Arc} : arc ∈ a.bypasses state ↔
    ∃ p q, p ≠ state ∧ q ≠ state ∧ ∃ k l, a.graph.HasArc ⟨p,state,k⟩ ∧ a.graph.HasArc ⟨state,q,l⟩ ∧
      arc = ⟨p,q,bypassLabel k (a.loops? state) l⟩ := by
  simp only [bypasses,List.mem_flatMap,List.mem_map,List.mem_filter,indexed.ingoing_iff,indexed.outgoing_iff,
    bne_iff_ne]
  constructor
  · rintro ⟨t,⟨⟨has,rfl⟩,source⟩,u,⟨⟨leaving,same⟩,target⟩,rfl⟩
    exact ⟨t.source,u.target,source,target,t.label,u.label,⟨t,has,rfl⟩,⟨u,leaving,by rw [← same]⟩,rfl⟩
  · rintro ⟨p,q,source,target,k,l,⟨t,has,first⟩,⟨u,leaving,second⟩,rfl⟩
    refine ⟨t,⟨⟨has,by rw [first]⟩,by rw [first]; exact source⟩,u,⟨⟨leaving,by rw [second]⟩,?_⟩,?_⟩
    · rw [second]; exact target
    · rw [first,second]

theorem Indexed.mem_detours (indexed : a.Indexed) {state : Nat} {arc : Arc} :
    arc ∈ a.detours state ↔ arc ∈ a.bypasses state ∧ ¬a.graph.HasArc arc := by
  rw [← indexed.hasArc_iff]
  simp [detours]

section
variable [Ids]

def isolationEdits (a : Automaton) : List Edit :=
  .addState ⟨a.counters.nextState,true⟩ ::
    Graph.handOver (a.finalIds.zip (a.counters.number a.isolationArcs))

private theorem map_fst_pairs : (a.finalIds.zip (a.counters.number a.isolationArcs)).map Prod.fst = a.finalIds :=
  List.map_fst_zip (by rw [Counters.length_number,isolationArcs,List.length_map])

private theorem map_snd_pairs :
    (a.finalIds.zip (a.counters.number a.isolationArcs)).map Prod.snd = a.counters.number a.isolationArcs :=
  List.map_snd_zip (by rw [Counters.length_number,isolationArcs,List.length_map])

theorem isolateFinal_cases {p : Plan} (made : a.isolateFinal = some p) :
    ∃ title, p = .ofEdits a title a.isolationEdits [] := by
  unfold isolateFinal at made
  split at made
  · refine ⟨s!"Isolate final state {a.counters.nextState}",(Option.some.inj made).symm.trans ?_⟩
    have same : ((a.finalIds.zip (a.counters.number a.isolationArcs)).flatMap fun (s,t) =>
        [Command.setFinal a s false,.addTransition t]) =
        Graph.handOver (a.finalIds.zip (a.counters.number a.isolationArcs)) := by
      refine List.flatMap_congr fun z member => ?_
      have final := isFinal_iff.mpr (mem_finalIds.mp (List.of_mem_zip member).1)
      simp [Command.setFinal,final]
    rw [isolationEdits,← same]
    rfl
  · cases made

theorem added_isolationEdits : Edit.added a.isolationEdits = a.counters.number a.isolationArcs := by
  rw [isolationEdits,Edit.added_cons,Graph.added_handOver,map_snd_pairs]
  rfl

theorem removed_isolationEdits : Edit.removed a.isolationEdits = [] := by
  rw [isolationEdits,Edit.removed_cons,Graph.removed_handOver]
  rfl

theorem addedStates_isolationEdits : Edit.addedStates a.isolationEdits = [⟨a.counters.nextState,true⟩] := by
  rw [isolationEdits,Edit.addedStates_cons,Graph.addedStates_handOver]
  rfl

def eliminationEdits (a : Automaton) (s : State) : List Edit :=
  (a.counters.number (a.detours s.id)).map .addTransition ++ a.detachEdits s

theorem eliminate_cases {state : Nat} {p : Plan} (made : a.eliminate state = .ok p) :
    state ≠ a.start ∧ a.graph.flag? state = some false ∧
      ∃ title, p = .ofEdits a title (a.eliminationEdits ⟨state,false⟩) [] := by
  unfold eliminate at made
  split at made
  · cases made
  · rename_i s found
    obtain ⟨rfl,flag⟩ := state?_eq_some_iff.mp found
    obtain ⟨state,isFinal⟩ := s
    split at made
    · cases made
    · rename_i other
      split at made
      · cases made
      · rename_i notFinal
        cases isFinal with
        | true => exact absurd rfl notFinal
        | false => exact ⟨other,flag,s!"Eliminate state {state}",(Except.ok.inj made).symm⟩

theorem added_eliminationEdits (s : State) :
    Edit.added (a.eliminationEdits s) = a.counters.number (a.detours s.id) := by
  rw [eliminationEdits,detachEdits_eq,Edit.added_append,Edit.added_map_addTransition,Rewriting.added_edits]
  exact List.append_nil _

theorem removed_eliminationEdits (s : State) :
    Edit.removed (a.eliminationEdits s) = (a.detaching s).removed := by
  rw [eliminationEdits,detachEdits_eq,Edit.removed_append,Edit.removed_map_addTransition,Rewriting.removed_edits]
  rfl

theorem addedStates_eliminationEdits (s : State) : Edit.addedStates (a.eliminationEdits s) = [] := by
  rw [eliminationEdits,detachEdits_eq,Edit.addedStates_append,Edit.addedStates_map_addTransition,
    Rewriting.addedStates_edits]
  rfl

end

section
attribute [local instance] Ids.endless

theorem Consistent.takes_isolationEdits (consistent : a.Consistent) : a.graph.Takes a.isolationEdits ∧
    ∀ i, (a.graph.editAll a.isolationEdits).flag? i =
      if i = a.counters.nextState then some true else if i ∈ a.finalIds then some false else a.graph.flag? i := by
  have new : a.graph.flag? a.counters.nextState = none := consistent.below.absent_state (Nat.le_refl _)
  have old {s : Nat} (final : a.graph.IsFinal s) : s ≠ a.counters.nextState := by
    rintro rfl
    cases new.symm.trans final
  have pair {z : Nat × Transition} (member : z ∈ a.finalIds.zip (a.counters.number a.isolationArcs)) :
      a.graph.IsFinal z.1 ∧ a.counters.nextTransition ≤ z.2.id ∧ z.2.toArc ∈ a.isolationArcs :=
    ⟨mem_finalIds.mp (List.of_mem_zip member).1,(Counters.id_of_mem_number (List.of_mem_zip member).2).1,
      Counters.toArc_mem_of_mem_number (List.of_mem_zip member).2⟩
  obtain ⟨takes,flags⟩ := Graph.takes_handOver (g := a.graph.edit (.addState ⟨a.counters.nextState,true⟩))
    (by rw [map_fst_pairs]; exact a.finalIds_nodup)
    (by
      intro z member
      rw [Graph.IsFinal,Graph.flag?_edit_addState,if_neg (old (pair member).1)]
      exact (pair member).1)
    (by
      rw [map_snd_pairs,Counters.map_id_number]
      exact Ids.nodup_series _ _)
    (fun z member => consistent.below.absent_transition consistent.closed (pair member).2.1)
    (by
      intro z member
      obtain ⟨s,final,same⟩ := List.mem_map.mp (pair member).2.2
      have source : s = z.2.source := congrArg Arc.source same
      have target : a.counters.nextState = z.2.target := congrArg Arc.target same
      rw [← source,← target]
      simp only [Graph.HasState,Graph.flag?_edit_addState,if_neg (old (mem_finalIds.mp final)),if_true]
      rw [mem_finalIds.mp final]
      exact ⟨rfl,rfl⟩)
  refine ⟨⟨new,takes⟩,fun i => ?_⟩
  rw [isolationEdits,Graph.editAll_cons,flags,map_fst_pairs,Graph.flag?_edit_addState]
  by_cases final : i ∈ a.finalIds
  · simp [final,old (mem_finalIds.mp final)]
  · simp [final]

theorem isolateFinal_sound (consistent : a.Consistent) {p : Plan} (made : a.isolateFinal = some p) : p.Sound a := by
  obtain ⟨title,rfl⟩ := isolateFinal_cases made
  refine sound_ofEdits consistent.takes_isolationEdits.1 ?_ added_isolationEdits
  intro s member
  rw [addedStates_isolationEdits] at member ⊢
  rw [List.mem_singleton.mp member]
  exact Nat.lt_succ_self _

section
variable {state : Nat} (consistent : a.Consistent) (other : state ≠ a.start) (flag : a.graph.flag? state = some false)
include consistent other flag

theorem takes_eliminationEdits : a.graph.Takes (a.eliminationEdits ⟨state,false⟩) := by
  have additions : a.graph.Takes ((a.counters.number (a.detours state)).map .addTransition) := by
    refine Graph.takes_number (fun i new => consistent.below.absent_transition consistent.closed new) ?_
    intro arc member
    obtain ⟨p,q,_,_,k,l,⟨t,into,first⟩,⟨u,leaving,second⟩,rfl⟩ :=
      consistent.mem_bypasses.mp (consistent.mem_detours.mp member).1
    have source := consistent.closed.source_present t into
    have target := consistent.closed.target_present u leaving
    rw [first] at source
    rw [second] at target
    exact ⟨source,target⟩
  have here (t : Transition) : (a.graph.editAll ((a.counters.number (a.detours state)).map .addTransition)).Has t ↔
      t ∈ a.counters.number (a.detours state) ∨ a.graph.Has t := by
    rw [Graph.has_editAll additions (by simp)]
    simp
  have fits := detaching_fits consistent (s := ⟨state,false⟩) flag other
  have flags : (a.graph.editAll ((a.counters.number (a.detours state)).map .addTransition)).flag? =
      a.graph.flag? :=
    Graph.flag?_editAll_of_onTransitions fun e member => by
      obtain ⟨t,_,rfl⟩ := List.mem_map.mp member
      trivial
  have removals : (a.graph.editAll ((a.counters.number (a.detours state)).map .addTransition)).Takes
      ((a.detaching ⟨state,false⟩).removed.map .removeTransition) :=
    Graph.takes_removals fits.removed_nodup fun t member => (here t).mpr (.inr (fits.removed_has t member))
  refine Graph.takes_append.mpr ⟨additions,Graph.takes_append.mpr ⟨removals,⟨?_,?_,?_⟩,trivial⟩⟩
  · rw [Graph.flag?_editAll_of_onTransitions,flags]
    · exact flag
    · intro e member
      obtain ⟨t,_,rfl⟩ := List.mem_map.mp member
      trivial
  · rw [Graph.start_editAll,Graph.start_editAll]
    exact other
  · intro t has
    have has := (Graph.has_editAll removals (by simp) t).mp has
    rw [here] at has
    simp only [Edit.added_map_removeTransition,List.not_mem_nil,false_or,Edit.removed_map_removeTransition,
      consistent.mem_detaching_removed] at has
    rcases has with ⟨new | old,kept⟩
    · obtain ⟨p,q,source,target,k,l,_,_,same⟩ := consistent.mem_bypasses.mp
        (consistent.mem_detours.mp (Counters.toArc_mem_of_mem_number new)).1
      rw [same]
      exact ⟨source,target⟩
    · grind

/-- The arcs afterwards lead around the state: the ways through it, and what did not touch it. -/
theorem hasArc_eliminationEdits (arc : Arc) : (a.graph.editAll (a.eliminationEdits ⟨state,false⟩)).HasArc arc ↔
    arc ∈ a.bypasses state ∨ a.graph.HasArc arc ∧ arc.source ≠ state ∧ arc.target ≠ state := by
  have takes := takes_eliminationEdits consistent other flag
  rw [consistent.hasArc_editAll takes (added_eliminationEdits _)]
  · simp only [removed_eliminationEdits,consistent.mem_detaching_removed,consistent.mem_detours]
    constructor
    · rintro (⟨way,_⟩ | ⟨t,⟨has,kept⟩,rfl⟩)
      · exact .inl way
      · exact .inr ⟨⟨t,has,rfl⟩,fun same => kept ⟨has,.inl same⟩,fun same => kept ⟨has,.inr same⟩⟩
    · have keep (has : a.graph.HasArc arc) (source : arc.source ≠ state) (target : arc.target ≠ state) :
          ∃ t, (a.graph.Has t ∧ ¬(a.graph.Has t ∧ (t.source = state ∨ t.target = state))) ∧ t.toArc = arc := by
        obtain ⟨t,has,rfl⟩ := has
        exact ⟨t,⟨has,fun touches => touches.2.elim source target⟩,rfl⟩
      rintro (way | ⟨has,source,target⟩)
      · by_cases has : a.graph.HasArc arc
        · obtain ⟨p,q,source,target,k,l,_,_,rfl⟩ := consistent.mem_bypasses.mp way
          exact .inr (keep has source target)
        · exact .inl ⟨way,has⟩
      · exact .inr (keep has source target)
  · intro t member
    rw [removed_eliminationEdits] at member
    exact (consistent.mem_detaching_removed.mp member).1

omit consistent flag in
theorem flag?_eliminationEdits (i : Nat) : (a.graph.editAll (a.eliminationEdits ⟨state,false⟩)).flag? i =
    if i = state then none else a.graph.flag? i := by
  rw [eliminationEdits,detachEdits,Graph.editAll_append,Graph.editAll_append]
  have untouched (g : Graph) (ts : List Transition) (make : Transition → Edit) (only : ∀ t, (make t).OnTransitions) :
      (g.editAll (ts.map make)).flag? = g.flag? :=
    Graph.flag?_editAll_of_onTransitions fun e member => by
      obtain ⟨t,_,rfl⟩ := List.mem_map.mp member
      exact only t
  rw [Graph.editAll_cons,Graph.editAll_nil,Graph.flag?_edit_removeState,
    untouched _ _ .removeTransition fun _ => trivial,untouched _ _ .addTransition fun _ => trivial]
  rw [Graph.start_editAll,Graph.start_editAll]
  exact other

end

theorem eliminate_sound (consistent : a.Consistent) {state : Nat} {p : Plan} (made : a.eliminate state = .ok p) :
    p.Sound a := by
  obtain ⟨other,flag,title,rfl⟩ := eliminate_cases made
  refine sound_ofEdits (takes_eliminationEdits consistent other flag) ?_ (added_eliminationEdits _)
  intro s member
  rw [addedStates_eliminationEdits] at member
  cases member

end

end Automaton
end StepwiseAutomata
