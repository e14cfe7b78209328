import StepwiseAutomata.Proofs.GraphLanguage

namespace StepwiseAutomata

namespace Automaton

/-- The automaton without the order of its lists. -/
def graph (a : Automaton) : Graph where
  start := a.start
  flag? := fun s => (a.vertices.get? s).map Vertex.isFinal
  transition? := fun i => a.byId.get? i

/-- The three places where transitions are kept hold the same ones, each once, under its own ends. -/
structure Indexed (a : Automaton) : Prop where
  closed : a.graph.Closed
  outgoing_iff : ∀ s t, t ∈ a.outgoing s ↔ a.graph.Has t ∧ t.source = s
  ingoing_iff : ∀ s t, t ∈ a.ingoing s ↔ a.graph.Has t ∧ t.target = s
  outgoing_nodup : ∀ s, (a.outgoing s).Nodup
  ingoing_nodup : ∀ s, (a.ingoing s).Nodup

/-- In addition, every id in the automaton is below its counter. -/
structure Consistent (a : Automaton) : Prop extends Indexed a where
  below : a.graph.Below a.counters

/-- The words of the paths from the start state to final states. -/
def language (a : Automaton) : Language Char := a.graph.language

variable {a : Automaton}

@[simp] theorem start_graph : a.graph.start = a.start := rfl

theorem hasState_iff {s : Nat} : a.hasState s = true ↔ a.graph.HasState s := by
  simp [hasState,IdMap.contains,Graph.HasState,graph]

theorem isFinal_iff {s : Nat} : a.isFinal s = true ↔ a.graph.IsFinal s := by
  show ((a.vertices.get? s).map Vertex.isFinal).getD false = true ↔ (a.vertices.get? s).map Vertex.isFinal = some true
  cases a.vertices.get? s <;> simp

theorem state?_eq_some_iff {id : Nat} {s : State} :
    a.state? id = some s ↔ s.id = id ∧ a.graph.flag? id = some s.isFinal := by
  obtain ⟨i,b⟩ := s
  simp only [state?,graph,Option.map_eq_some_iff,State.mk.injEq]
  constructor
  · rintro ⟨v,found,rfl,rfl⟩; exact ⟨rfl,v,found,rfl⟩
  · rintro ⟨rfl,v,found,rfl⟩; exact ⟨v,found,rfl,rfl⟩

theorem mem_states_iff {s : State} : s ∈ a.states ↔ a.graph.flag? s.id = some s.isFinal := by
  obtain ⟨i,b⟩ := s
  simp only [states,graph,List.mem_map,Option.map_eq_some_iff,State.mk.injEq]
  constructor
  · rintro ⟨⟨j,v⟩,listed,rfl,rfl⟩
    exact ⟨v,(IdMap.mem_entries_iff _ _ _).mp listed,rfl⟩
  · rintro ⟨v,found,rfl⟩
    exact ⟨(i,v),(IdMap.mem_entries_iff _ _ _).mpr found,rfl,rfl⟩

theorem mem_stateIds_iff {s : Nat} : s ∈ a.stateIds ↔ a.graph.HasState s := by
  rw [stateIds,IdMap.mem_keys_iff,← hasState_iff]
  rfl

theorem mem_finalStates_iff {s : State} : s ∈ a.finalStates ↔ s.isFinal = true ∧ a.graph.IsFinal s.id := by
  rw [finalStates,List.mem_filter,mem_states_iff,Graph.IsFinal]
  constructor
  · rintro ⟨flag,final⟩; exact ⟨final,final ▸ flag⟩
  · rintro ⟨final,flag⟩; exact ⟨final ▸ flag,final⟩

theorem Indexed.mem_transitions_iff (indexed : a.Indexed) {t : Transition} : t ∈ a.transitions ↔ a.graph.Has t := by
  simp only [transitions,IdMap.values,List.mem_flatMap,List.mem_map]
  constructor
  · rintro ⟨_,⟨⟨s,v⟩,listed,rfl⟩,member⟩
    have found := (IdMap.mem_entries_iff _ _ _).mp listed
    exact ((indexed.outgoing_iff s t).mp (by simpa [outgoing,found] using member)).1
  · intro has
    have member := (indexed.outgoing_iff t.source t).mpr ⟨has,rfl⟩
    unfold outgoing at member
    cases found : a.vertices.get? t.source with
    | none => simp [found] at member
    | some v =>
      rw [found] at member
      exact ⟨v,⟨(t.source,v),(IdMap.mem_entries_iff _ _ _).mpr found,rfl⟩,member⟩

theorem stateIds_nodup (a : Automaton) : a.stateIds.Nodup :=
  List.pairwise_map.mpr (a.vertices.ascending.imp fun lt => Nat.ne_of_lt lt)

theorem transitions_eq (a : Automaton) : a.transitions = a.stateIds.flatMap a.outgoing := by
  rw [transitions,IdMap.values,stateIds,IdMap.keys,List.flatMap_map,List.flatMap_map]
  refine List.flatMap_congr fun x member => ?_
  rw [outgoing,(IdMap.mem_entries_iff _ _ _).mp member]
  rfl

theorem Indexed.transitions_nodup (indexed : a.Indexed) : a.transitions.Nodup := by
  rw [transitions_eq,List.nodup_flatMap]
  refine ⟨fun s _ => indexed.outgoing_nodup s,a.stateIds_nodup.imp ?_⟩
  intro p q different t first second
  exact different (((indexed.outgoing_iff p t).mp first).2.symm.trans ((indexed.outgoing_iff q t).mp second).2)

theorem Indexed.hasArc_iff (indexed : a.Indexed) {arc : Arc} : a.hasArc arc = true ↔ a.graph.HasArc arc := by
  simp only [hasArc,List.any_eq_true,beq_iff_eq,Graph.HasArc]
  constructor
  · rintro ⟨t,member,same⟩
    exact ⟨t,((indexed.outgoing_iff _ t).mp member).1,same⟩
  · rintro ⟨t,has,same⟩
    exact ⟨t,(indexed.outgoing_iff _ t).mpr ⟨has,by rw [← same]⟩,same⟩

theorem graph_apply (c : Change) : (a.apply c).graph = a.graph.apply c := by
  cases c with
  | addState s =>
    simp only [apply,addState,graph,Graph.apply,IdMap.get?_insert]
    congr 1
    funext i
    split <;> rfl
  | removeState id =>
    simp only [apply,removeState,Graph.apply]
    by_cases same : id = a.start
    · simp [same]
    · simp only [same,if_false,graph,IdMap.get?_erase]
      congr 1
      funext i
      split <;> rfl
  | addTransition t =>
    simp only [apply,addTransition,graph,Graph.apply,IdMap.get?_insert,IdMap.get?_modify]
    congr 1
    funext i
    split
    · rename_i same
      rw [same,Option.map_map]
      rfl
    · rfl
  | removeTransition id =>
    simp only [apply,removeTransition,transition?]
    cases found : a.byId.get? id with
    | none =>
      simp only [graph,Graph.apply]
      congr 1
      funext i
      split
      · rename_i same; rw [same,found]
      · rfl
    | some t =>
      simp only [graph,Graph.apply,IdMap.get?_modify,IdMap.get?_erase]
      congr 1
      funext i
      split
      · rename_i same
        rw [same,Option.map_map]
        rfl
      · rfl
  | setFinal id b =>
    simp only [apply,setFinal,graph,Graph.apply,IdMap.get?_modify]
    congr 1
    funext i
    split
    · rename_i same
      rw [same,Option.map_map,Option.map_map]
      rfl
    · rfl

@[simp] theorem counters_apply (c : Change) : (a.apply c).counters = a.counters := by
  cases c with
  | removeState id => simp only [apply,removeState]; split <;> rfl
  | removeTransition id => simp only [apply,removeTransition]; split <;> rfl
  | _ => rfl

theorem graph_applyAll (es : List Edit) : (a.applyAll (es.map Edit.forward)).graph = a.graph.editAll es := by
  induction es generalizing a with
  | nil => rfl
  | cons e es ih =>
    show ((a.apply e.forward).applyAll (es.map Edit.forward)).graph = _
    rw [ih,graph_apply]
    rfl

@[simp] theorem counters_applyAll (cs : List Change) : (a.applyAll cs).counters = a.counters := by
  induction cs generalizing a with
  | nil => rfl
  | cons c cs ih =>
    show ((a.apply c).applyAll cs).counters = _
    rw [ih,counters_apply]

/-- Adding a state that is absent changes no list of transitions. -/
theorem outgoing_addState {s : State} (absent : a.graph.flag? s.id = none) (i : Nat) :
    (a.addState s).outgoing i = a.outgoing i := by
  simp only [outgoing,addState,IdMap.get?_insert]
  split
  · rename_i same
    have none : a.vertices.get? i = none := by simpa [graph,same] using absent
    simp [none]
  · rfl

theorem outgoing_removeState {id : Nat} (unused : a.outgoing id = []) (i : Nat) :
    (a.removeState id).outgoing i = a.outgoing i := by
  unfold removeState
  split
  · rfl
  · simp only [outgoing,IdMap.get?_erase] at unused ⊢
    split
    · rename_i same; rw [same,unused]; rfl
    · rfl

theorem ingoing_removeState (id i : Nat) : (a.removeState id).ingoing i = a.ingoing i := by
  unfold removeState
  split <;> rfl

theorem outgoing_addTransition {t : Transition} (present : a.graph.HasState t.source) (i : Nat) :
    (a.addTransition t).outgoing i = if i = t.source then a.outgoing i ++ [t] else a.outgoing i := by
  simp only [outgoing,addTransition,IdMap.get?_modify]
  split
  · rename_i same
    cases found : a.vertices.get? t.source with
    | none => simp [Graph.HasState,graph,found] at present
    | some v => simp [same,found]
  · rfl

theorem ingoing_addTransition (t : Transition) (i : Nat) :
    (a.addTransition t).ingoing i = if i = t.target then a.ingoing i ++ [t] else a.ingoing i := by
  simp only [ingoing,addTransition,IdMap.get?_insert]
  split
  · rename_i same; rw [same]; rfl
  · rfl

theorem outgoing_removeTransition {id : Nat} {t : Transition} (found : a.transition? id = some t) (i : Nat) :
    (a.removeTransition id).outgoing i =
      if i = t.source then (a.outgoing i).filter (·.id != id) else a.outgoing i := by
  simp only [outgoing,removeTransition,found,IdMap.get?_modify]
  split
  · rename_i same
    rw [same]
    cases a.vertices.get? t.source <;> rfl
  · rfl

theorem ingoing_removeTransition {id : Nat} {t : Transition} (found : a.transition? id = some t) (i : Nat) :
    (a.removeTransition id).ingoing i =
      if i = t.target then (a.ingoing i).filter (·.id != id) else a.ingoing i := by
  simp only [removeTransition,found]
  by_cases empty : ((a.ingoing t.target).filter (·.id != id)).isEmpty = true
  · rw [ingoing]
    simp only [empty,if_true,IdMap.get?_erase]
    by_cases same : i = t.target
    · simp only [same,if_true]
      rw [List.isEmpty_iff.mp empty]
      rfl
    · simp only [same,if_false]
      rfl
  · rw [ingoing]
    simp only [empty,Bool.false_eq_true,if_false,IdMap.get?_insert]
    by_cases same : i = t.target
    · simp [same]
    · simp only [same,if_false]
      rfl

theorem outgoing_setFinal (id : Nat) (b : Bool) (i : Nat) : (a.setFinal id b).outgoing i = a.outgoing i := by
  simp only [outgoing,setFinal,IdMap.get?_modify]
  split
  · rename_i same
    rw [same]
    cases a.vertices.get? id <;> rfl
  · rfl

theorem has_applied {e : Edit} (fits : e.Fits a.graph) (t : Transition) : (a.apply e.forward).graph.Has t ↔
    t ∈ Edit.added [e] ∨ a.graph.Has t ∧ t ∉ Edit.removed [e] := by
  rw [graph_apply e.forward]
  exact Graph.has_edit fits t

/-- Where no transition is added or removed, the lists stay. -/
private theorem Indexed.unchanged (indexed : a.Indexed) {e : Edit} (fits : e.Fits a.graph)
    (added : Edit.added [e] = []) (removed : Edit.removed [e] = [])
    (outgoing : ∀ i, (a.apply e.forward).outgoing i = a.outgoing i)
    (ingoing : ∀ i, (a.apply e.forward).ingoing i = a.ingoing i) : (a.apply e.forward).Indexed := by
  have has := has_applied fits
  simp only [added,removed,List.not_mem_nil,false_or,not_false_eq_true,and_true] at has
  refine ⟨graph_apply (a := a) e.forward ▸ indexed.closed.edit fits,?_,?_,?_,?_⟩
  · intro s t; rw [outgoing,has]; exact indexed.outgoing_iff s t
  · intro s t; rw [ingoing,has]; exact indexed.ingoing_iff s t
  · intro s; rw [outgoing]; exact indexed.outgoing_nodup s
  · intro s; rw [ingoing]; exact indexed.ingoing_nodup s

private theorem Indexed.edit_addTransition (indexed : a.Indexed) {t : Transition}
    (fits : (Edit.addTransition t).Fits a.graph) : (a.apply (Edit.addTransition t).forward).Indexed := by
  have new : ¬a.graph.Has t := by rw [Graph.Has,fits.1]; exact (Option.some_ne_none t).symm
  have has (u : Transition) : (a.apply (Edit.addTransition t).forward).graph.Has u ↔ u = t ∨ a.graph.Has u := by
    rw [has_applied fits u]
    simp [Edit.added,Edit.removed,Edit.addedTransition?]
  have outgoing (i : Nat) : (a.apply (Edit.addTransition t).forward).outgoing i =
      if i = t.source then a.outgoing i ++ [t] else a.outgoing i := outgoing_addTransition fits.2.1 i
  have ingoing (i : Nat) : (a.apply (Edit.addTransition t).forward).ingoing i =
      if i = t.target then a.ingoing i ++ [t] else a.ingoing i := ingoing_addTransition t i
  have longer {ts : List Transition} (nodup : ts.Nodup) (absent : t ∉ ts) : (ts ++ [t]).Nodup := by
    refine List.nodup_append.mpr ⟨nodup,List.nodup_singleton t,?_⟩
    rintro u member v single rfl
    exact absent (List.mem_singleton.mp single ▸ member)
  refine ⟨graph_apply (a := a) (Edit.addTransition t).forward ▸ indexed.closed.edit fits,?_,?_,?_,?_⟩
  · intro s u
    rw [outgoing,has]
    split <;> grind [indexed.outgoing_iff s u]
  · intro s u
    rw [ingoing,has]
    split <;> grind [indexed.ingoing_iff s u]
  · intro s
    rw [outgoing]
    split
    · exact longer (indexed.outgoing_nodup s) fun member => new ((indexed.outgoing_iff s t).mp member).1
    · exact indexed.outgoing_nodup s
  · intro s
    rw [ingoing]
    split
    · exact longer (indexed.ingoing_nodup s) fun member => new ((indexed.ingoing_iff s t).mp member).1
    · exact indexed.ingoing_nodup s

private theorem Indexed.edit_removeTransition (indexed : a.Indexed) {t : Transition}
    (fits : (Edit.removeTransition t).Fits a.graph) : (a.apply (Edit.removeTransition t).forward).Indexed := by
  have found : a.transition? t.id = some t := fits
  have has (u : Transition) : (a.apply (Edit.removeTransition t).forward).graph.Has u ↔ a.graph.Has u ∧ u ≠ t := by
    rw [has_applied fits u]
    simp [Edit.added,Edit.removed,Edit.addedTransition?]
  have other {u : Transition} (here : a.graph.Has u) : (u.id != t.id) = true ↔ u ≠ t := by
    rw [bne_iff_ne]
    exact ⟨fun ids same => ids (congrArg Transition.id same),fun different ids => different (here.eq_of_id fits ids)⟩
  have outgoing (i : Nat) : (a.apply (Edit.removeTransition t).forward).outgoing i =
      if i = t.source then (a.outgoing i).filter (·.id != t.id) else a.outgoing i :=
    outgoing_removeTransition found i
  have ingoing (i : Nat) : (a.apply (Edit.removeTransition t).forward).ingoing i =
      if i = t.target then (a.ingoing i).filter (·.id != t.id) else a.ingoing i :=
    ingoing_removeTransition found i
  refine ⟨graph_apply (a := a) (Edit.removeTransition t).forward ▸ indexed.closed.edit fits,?_,?_,?_,?_⟩
  · intro s u
    rw [outgoing,has]
    split
    · rw [List.mem_filter,indexed.outgoing_iff]
      grind
    · grind [indexed.outgoing_iff s u]
  · intro s u
    rw [ingoing,has]
    split
    · rw [List.mem_filter,indexed.ingoing_iff]
      grind
    · grind [indexed.ingoing_iff s u]
  · intro s
    rw [outgoing]
    split
    · exact (indexed.outgoing_nodup s).filter _
    · exact indexed.outgoing_nodup s
  · intro s
    rw [ingoing]
    split
    · exact (indexed.ingoing_nodup s).filter _
    · exact indexed.ingoing_nodup s

/-- An edit that fits keeps the lists in agreement with the graph. -/
theorem Indexed.edit (indexed : a.Indexed) {e : Edit} (fits : e.Fits a.graph) : (a.apply e.forward).Indexed := by
  cases e with
  | addState s => exact indexed.unchanged fits rfl rfl (outgoing_addState fits) fun _ => rfl
  | removeState s =>
    have unused : a.outgoing s.id = [] := by
      refine List.eq_nil_iff_forall_not_mem.mpr fun t member => ?_
      obtain ⟨here,source⟩ := (indexed.outgoing_iff s.id t).mp member
      exact (fits.2.2 t here).1 source
    exact indexed.unchanged fits rfl rfl (outgoing_removeState unused) (ingoing_removeState s.id)
  | setFinal id isFinal wasFinal =>
    exact indexed.unchanged fits rfl rfl (outgoing_setFinal id isFinal) fun _ => rfl
  | addTransition t => exact indexed.edit_addTransition fits
  | removeTransition t => exact indexed.edit_removeTransition fits

theorem Indexed.editAll (indexed : a.Indexed) {es : List Edit} (takes : a.graph.Takes es) :
    (a.applyAll (es.map Edit.forward)).Indexed := by
  induction es generalizing a with
  | nil => exact indexed
  | cons e es ih =>
    have same : (a.apply e.forward).graph = a.graph.edit e := graph_apply e.forward
    exact ih (indexed.edit takes.1) (same ▸ takes.2)

end Automaton
end StepwiseAutomata
