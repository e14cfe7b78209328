import StepwiseAutomata.Proofs.Labels
import StepwiseAutomata.Proofs.ListOrder

namespace StepwiseAutomata

namespace Automaton

variable {a : Automaton}

/-- Among all transitions, those that leave a state are in the order of its list. -/
theorem Indexed.filter_transitions (indexed : a.Indexed) (s : Nat) :
    (a.transitions.filter fun t : Transition => t.source == s) = a.outgoing s := by
  have only (ids : List Nat) (nodup : ids.Nodup) :
      ((ids.flatMap a.outgoing).filter fun t : Transition => t.source == s) =
        if s ∈ ids then a.outgoing s else [] := by
    induction ids with
    | nil => rfl
    | cons i ids ih =>
      obtain ⟨new,nodup⟩ := List.nodup_cons.mp nodup
      rw [List.flatMap_cons,List.filter_append,ih nodup]
      have source {t : Transition} (member : t ∈ a.outgoing i) : t.source = i :=
        ((indexed.outgoing_iff i t).mp member).2
      by_cases here : i = s
      · subst here
        rw [List.filter_eq_self.mpr fun t member => by simp [source member],if_neg new,if_pos List.mem_cons_self,
          List.append_nil]
      · rw [List.filter_eq_nil_iff.mpr fun t member => by simp [source member,here],List.nil_append]
        simp [Ne.symm here]
  rw [transitions_eq,only _ a.stateIds_nodup]
  split
  · rfl
  · rename_i absent
    have none : a.vertices.get? s = none := by
      rw [mem_stateIds_iff,Graph.HasState] at absent
      simpa [graph] using absent
    rw [outgoing,none]
    rfl

end Automaton

namespace Snapshot

section
variable [Ids] {s : Snapshot} {start : State} {ts : List Transition}

/-- The automaton has the states of the picture and the transitions that were read, which its lists have in the order
    of the picture. -/
structure Shown (s : Snapshot) (start : State) (ts : List Transition) (a : Automaton) : Prop where
  indexed : a.Indexed
  start : a.start = start.id
  counters : a.counters = s.counters
  flag : ∀ r ∈ s.states, a.graph.flag? r.id = some r.isFinal
  no_flag : ∀ i, i ∉ s.stateIds → a.graph.flag? i = none
  listed : ∀ e i, a.listed e i = ts.filter fun t : Transition => t.tip e == i

section
variable (checked : s.check = .ok (start,ts))
include checked

/-- No transition is removed while the automaton is made, and so all lists are in the order of the picture. -/
theorem listed_changes (e : End) (i : Nat) : ((s.base start).applyAll (s.changes start ts)).listed e i =
    ts.filter fun t : Transition => t.tip e == i := by
  have base := s.indexed_base start
  have tidy : (s.base start).Tidy := Automaton.tidy_withStart start.id start.isFinal
  have removed : Edit.removed (s.edits start ts) = [] := by simp [edits]
  have nodup : ts.Nodup := by
    obtain ⟨ids,nodup,_⟩ := readEntries_ok (check_ok checked).2.2
    exact List.Nodup.of_map Transition.id (ids ▸ nodup)
  have unrepeated : (s.base start).graph.Unrepeated ([] ++ s.edits start ts ++ []) := by
    rw [List.nil_append,List.append_nil]
    exact ⟨takes_edits checked,(added_edits start ts).symm ▸ nodup,fun t _ => not_has_base start t⟩
  have empty : (s.base start).listed e i = [] := List.eq_nil_iff_forall_not_mem.mpr fun t member =>
    not_has_base start t (base.mem_listed.mp member).1
  have listed := (Automaton.Lined.forwardAll unrepeated (Automaton.lined_base base tidy _)).listed e i
  rw [List.nil_append,List.append_nil,removed,empty,List.nil_append,← changes_eq,Edit.addedAt,added_edits] at listed
  simpa using listed

theorem shown : ∃ a, s.restore = .ok a ∧ Shown s start ts a := by
  have restored := restore_eq checked
  have graph : ((s.base start).applyAll (s.changes start ts)).graph =
      (s.base start).graph.editAll (s.edits start ts) := by
    rw [changes_eq,Automaton.graph_applyAll]
  obtain ⟨flag,no_flag⟩ := flag?_edits checked
  refine ⟨_,restored,indexed_restore restored,?_,?_,graph ▸ flag,graph ▸ no_flag,listed_changes checked⟩
  · rw [← Automaton.start_graph,graph,Graph.start_editAll]
    rfl
  · rw [Automaton.counters_applyAll]
    rfl

end

section
variable {a : Automaton} (shown : Shown s start ts a)
include shown

theorem Shown.states_perm (unique : s.stateIds.Nodup) : a.states.Perm s.states := by
  have nodup : a.states.Nodup := .of_map State.id (a.states_map_id.symm ▸ a.stateIds_nodup)
  refine (List.perm_ext_iff_of_nodup nodup (.of_map State.id unique)).mpr fun r => ?_
  rw [Automaton.mem_states_iff]
  constructor
  · intro flag
    have listed : r.id ∈ s.stateIds := by
      by_contra absent
      rw [shown.no_flag r.id absent] at flag
      cases flag
    obtain ⟨q,member,same⟩ := List.mem_map.mp listed
    have isFinal : q.isFinal = r.isFinal := by
      have flag' := shown.flag q member
      rw [same] at flag'
      exact Option.some.inj (flag'.symm.trans flag)
    obtain ⟨id,_⟩ := r
    obtain ⟨_,_⟩ := q
    cases same
    cases isFinal
    exact member
  · exact shown.flag r

theorem Shown.transitions_perm (unique : (ts.map Transition.id).Nodup) : a.transitions.Perm ts := by
  refine (List.perm_ext_iff_of_nodup shown.indexed.transitions_nodup (.of_map Transition.id unique)).mpr fun t => ?_
  have member : t ∈ a.outgoing t.source ↔ t ∈ ts := by
    rw [show a.outgoing t.source = _ from shown.listed .source t.source,List.mem_filter]
    exact and_iff_left (beq_self_eq_true t.source)
  rw [shown.indexed.mem_transitions_iff,← member,shown.indexed.outgoing_iff,and_iff_left rfl]

end

end

def Entry.ofTransition (t : Transition) : Entry := ⟨t.id,t.source,t.target,toString t.label⟩

/-- What is written of transitions with different ids and known ends is read as those transitions. -/
theorem readEntries_ofTransition {ts : List Transition} {states seen : List Nat} (ids : (ts.map Transition.id).Nodup)
    (new : ∀ t ∈ ts, t.id ∉ seen) (ends : ∀ t ∈ ts, t.source ∈ states ∧ t.target ∈ states)
    (writable : ∀ t ∈ ts, t.label.Writable) :
    readEntries states seen (ts.map Entry.ofTransition) = .ok ts := by
  refine readEntries_eq_ok.mpr ⟨?_,?_,?_⟩
  · refine List.forall₂_map_left_iff.mpr (List.forall₂_same.mpr fun t member => ?_)
    exact ⟨rfl,rfl,rfl,(writable t member).parse_toString⟩
  · rwa [List.map_map]
  · intro x listed
    obtain ⟨t,member,rfl⟩ := List.mem_map.mp listed
    exact ⟨new t member,ends t member⟩

end Snapshot

namespace Automaton

variable {a : Automaton}

theorem stateIds_snapshot : a.snapshot.stateIds = a.stateIds := a.states_map_id

/-- The picture is in order. -/
theorem Indexed.check_snapshot (indexed : a.Indexed) (legible : a.Legible) :
    ∃ start : State, start.id = a.start ∧ a.snapshot.check = .ok (start,a.transitions) := by
  have unique : Snapshot.repeated? [] a.snapshot.stateIds = none :=
    Snapshot.repeated?_eq_none.mpr ⟨stateIds_snapshot ▸ a.stateIds_nodup,fun _ _ => List.not_mem_nil⟩
  obtain ⟨start,listed⟩ : ∃ start, a.states.find? (·.id == a.start) = some start := by
    obtain ⟨isFinal,flag⟩ := Option.isSome_iff_exists.mp indexed.closed.start_present
    refine Option.isSome_iff_exists.mp (List.find?_isSome.mpr ⟨⟨a.start,isFinal⟩,mem_states_iff.mpr flag,?_⟩)
    exact beq_self_eq_true a.start
  have has {t : Transition} (member : t ∈ a.transitions) : a.graph.Has t := indexed.mem_transitions_iff.mp member
  have read : Snapshot.readEntries a.snapshot.stateIds [] (a.transitions.map Snapshot.Entry.ofTransition) =
      .ok a.transitions := by
    refine Snapshot.readEntries_ofTransition ?_ (fun _ _ => List.not_mem_nil) (fun t member => ?_)
      fun t member => legible t (has member)
    · refine indexed.transitions_nodup.map_on fun t first u second same => ?_
      exact (has first).eq_of_id (has second) same
    · rw [stateIds_snapshot,mem_stateIds_iff,mem_stateIds_iff]
      exact ⟨indexed.closed.source_present t (has member),indexed.closed.target_present t (has member)⟩
  have found : a.snapshot.states.find? (·.id == a.snapshot.start) = some start := listed
  refine ⟨start,by simpa using List.find?_some listed,?_⟩
  unfold Snapshot.check
  rw [unique]
  dsimp only
  rw [found]
  exact congrArg (Except.map (start,·)) read

section
variable [Ids]

/-- The counters are at least those that follow from the ids. -/
structure Counted (a : Automaton) : Prop where
  start : Ids.after a.start ≤ a.counters.nextState
  states : Snapshot.above a.stateIds ≤ a.counters.nextState
  transitions : Snapshot.above (a.transitions.map Transition.id) ≤ a.counters.nextTransition

theorem Consistent.counted (consistent : a.Consistent) : a.Counted where
  start := Nat.le_trans (Ids.after_le _) (consistent.below.state _ consistent.closed.start_present)
  states := Snapshot.above_le fun i member => consistent.below.state i (mem_stateIds_iff.mp member)
  transitions := by
    refine Snapshot.above_le fun i member => ?_
    obtain ⟨t,there,rfl⟩ := List.mem_map.mp member
    exact consistent.below.transition t (consistent.mem_transitions_iff.mp there)

theorem Counted.counters_snapshot (counted : a.Counted) : a.snapshot.counters = a.counters := by
  have states : Snapshot.above a.snapshot.stateIds ≤ a.counters.nextState := stateIds_snapshot ▸ counted.states
  have transitions : Snapshot.above (a.snapshot.transitions.map Snapshot.Entry.id) ≤ a.counters.nextTransition := by
    rw [snapshot,List.map_map]
    exact counted.transitions
  have given : (Counters.max ⟨Ids.after a.start,0⟩ a.counters) = a.counters :=
    congrArg₂ Counters.mk (Nat.max_eq_right counted.start) (Nat.max_eq_right (Nat.zero_le _))
  show (Counters.max ⟨Ids.after a.start,0⟩ a.counters).max _ = a.counters
  rw [given]
  exact congrArg₂ Counters.mk (Nat.max_eq_left states) (Nat.max_eq_left transitions)

/-- What is restored has the counters of the picture, which follow from the same ids. -/
theorem counted_restore {picture : Snapshot} (restored : picture.restore = .ok a) : a.Counted := by
  obtain ⟨start,ts,checked,_⟩ := Snapshot.restore_ok restored
  obtain ⟨unique,⟨_,first⟩,read⟩ := Snapshot.check_ok checked
  obtain ⟨ids,nodup,_⟩ := Snapshot.readEntries_ok read
  obtain ⟨b,again,shown⟩ := Snapshot.shown checked
  cases restored.symm.trans again
  have states := (shown.states_perm unique).map State.id
  have transitions := (shown.transitions_perm (ids ▸ nodup)).map Transition.id
  rw [a.states_map_id] at states
  rw [ids] at transitions
  constructor
  · rw [shown.start,first,shown.counters]
    exact Nat.le_trans (Nat.le_max_left _ _) (Nat.le_max_left _ _)
  · rw [Snapshot.above_perm states,shown.counters]
    exact Nat.le_max_right _ _
  · rw [Snapshot.above_perm transitions,shown.counters]
    exact Nat.le_max_right _ _

/-- The automaton of the picture is the same but for the order in the lists of what enters a state. -/
theorem Indexed.restore_snapshot (indexed : a.Indexed) (counted : a.Counted) (legible : a.Legible) : ∃ b,
    a.snapshot.restore = .ok b ∧ b = { a with entering := b.entering } ∧
      (∀ i, (b.ingoing i).Perm (a.ingoing i)) ∧ b.snapshot = a.snapshot := by
  obtain ⟨start,first,checked⟩ := indexed.check_snapshot legible
  obtain ⟨b,restored,shown⟩ := Snapshot.shown checked
  have outgoing (i : Nat) : b.outgoing i = a.outgoing i :=
    (shown.listed .source i).trans (indexed.filter_transitions i)
  have has (t : Transition) : b.graph.Has t ↔ a.graph.Has t := by
    have here := shown.indexed.outgoing_iff t.source t
    rw [outgoing,indexed.outgoing_iff,and_iff_left rfl,and_iff_left rfl] at here
    exact here.symm
  have start := shown.start.trans first
  have flags : b.graph.flag? = a.graph.flag? := by
    funext i
    by_cases present : i ∈ a.snapshot.stateIds
    · obtain ⟨r,listed,rfl⟩ := List.mem_map.mp present
      exact (shown.flag r listed).trans (mem_states_iff.mp listed).symm
    · rw [shown.no_flag i present]
      rw [stateIds_snapshot,mem_stateIds_iff,Graph.HasState,Option.isSome_iff_ne_none,not_not] at present
      exact present.symm
  have transitions : b.graph.transition? = a.graph.transition? := by
    funext i
    refine Option.ext fun t => ?_
    rw [shown.indexed.closed.transition?_eq_some_iff,indexed.closed.transition?_eq_some_iff,has]
  have graph : b.graph = a.graph := by
    show Graph.mk b.start b.graph.flag? b.graph.transition? = Graph.mk a.start a.graph.flag? a.graph.transition?
    rw [start,flags,transitions]
  have vertices := vertices_eq graph outgoing
  have same : b = { a with entering := b.entering } := by
    have counters := shown.counters.trans counted.counters_snapshot
    have byId := byId_eq graph
    cases b
    cases vertices
    cases counters
    cases start
    cases byId
    rfl
  refine ⟨b,restored,same,fun i => ?_,?_⟩
  · rw [List.perm_ext_iff_of_nodup (shown.indexed.ingoing_nodup i) (indexed.ingoing_nodup i)]
    intro t
    rw [shown.indexed.ingoing_iff,indexed.ingoing_iff,has]
  · rw [same]
    rfl

end

end Automaton

/-- A consistent automaton whose labels can be read back comes back from its picture: the start state, the states with
    their flags and the transitions that leave them in their order, and the counters are the same, and so is the
    picture. Only what enters a state may be listed in another order. So the automaton of a picture that is in order
    has a picture that shows just what it shows again; and whatever is asked of a session, its automaton stays of this
    kind as long as the ids suffice. -/
theorem Snapshot.round_trip_exact [Ids] :
    (∀ a : Automaton, a.Consistent → a.Legible → ∃ b, a.snapshot.restore = .ok b ∧
      b.start = a.start ∧ b.states = a.states ∧ (∀ i, b.outgoing i = a.outgoing i) ∧
      (∀ i, b.transition? i = a.transition? i) ∧ b.counters = a.counters ∧ b = { a with entering := b.entering } ∧
      (∀ i, (b.ingoing i).Perm (a.ingoing i)) ∧ b.snapshot = a.snapshot) ∧
    (∀ (picture : Snapshot) a, picture.restore = .ok a → ∃ b, a.snapshot.restore = .ok b ∧ b.snapshot = a.snapshot) ∧
    ∀ s, Session.Begins s → ∀ calls, Ids.Suffice (s.afterAll calls).automaton.counters →
      (s.afterAll calls).automaton.Consistent ∧ (s.afterAll calls).automaton.Legible := by
  refine ⟨fun a consistent legible => ?_,fun picture a restored => ?_,fun s begins calls room => ?_⟩
  · obtain ⟨b,restored,same,ingoing,picture⟩ := consistent.toIndexed.restore_snapshot consistent.counted legible
    refine ⟨b,restored,by rw [same],?_,fun i => ?_,fun i => ?_,by rw [same],same,ingoing,picture⟩
    all_goals
      rw [same]
      rfl
  · obtain ⟨b,again,_,_,same⟩ := (Snapshot.indexed_restore restored).restore_snapshot
      (Automaton.counted_restore restored) (Snapshot.legible_restore restored)
    exact ⟨b,again,same⟩
  · rw [(s.agree_afterAll calls).2 room]
    have coherent := begins.coherent
    exact ⟨(coherent.moves (Session.moves_afterAll coherent calls)).consistent,
      (Session.legible_afterAll coherent (@Session.Begins.legible s begins.endless) calls).automaton⟩

/-- A picture with gaps between its ids, a loop and two like transitions. What enters the last state is listed by id at
    first, and once it has been written, by source. -/
theorem Snapshot.round_trip_exact_reordered : ∃ (picture : Snapshot) (a b : Automaton), picture.restore = .ok a ∧
    a.snapshot.restore = .ok b ∧ b = { a with entering := b.entering } ∧ b.snapshot = a.snapshot ∧
    (b.ingoing 7).Perm (a.ingoing 7) ∧ (a.ingoing 7).map Transition.id = [2,5,9] ∧
    (b.ingoing 7).map Transition.id = [5,9,2] := by
  let picture : Snapshot :=
    ⟨4,[⟨7,true⟩,⟨4,false⟩],[⟨2,7,7,"(a|b)*c"⟩,⟨5,4,7,"ε"⟩,⟨9,4,7,"ε"⟩],none,some 20⟩
  have first : (picture.restore.toOption.map fun a => (a.ingoing 7).map Transition.id) = some [2,5,9] := by
    decide +kernel
  have second : (picture.restore.toOption.bind fun a => a.snapshot.restore.toOption.map fun b =>
      (b.ingoing 7).map Transition.id) = some [5,9,2] := by decide +kernel
  cases restored : picture.restore with
  | error e => rw [restored] at first; cases first
  | ok a =>
    obtain ⟨b,again,_,_,_,_,_,same,ingoing,written⟩ :=
      round_trip_exact.1 a (consistent_restore (by decide) restored) (legible_restore restored)
    rw [restored] at first second
    have second : a.snapshot.restore.toOption.map (fun b => (b.ingoing 7).map Transition.id) = some [5,9,2] := second
    rw [again] at second
    exact ⟨picture,a,b,restored,again,same,written,ingoing 7,Option.some.inj first,Option.some.inj second⟩

end StepwiseAutomata
