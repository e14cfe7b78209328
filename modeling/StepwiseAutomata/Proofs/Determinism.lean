import StepwiseAutomata.Proofs.Reachability
import StepwiseAutomata.Proofs.Rewriting

namespace StepwiseAutomata

namespace Bindings

variable {b : Bindings} {a : Automaton}

theorem hasState_of_find? {set : StateSet} {s : Nat} (found : b.find? a set = some s) : a.graph.HasState s := by
  unfold find? at found
  split at found
  · rename_i e listed
    cases found
    have holds := List.find?_some listed
    rw [Bool.and_eq_true] at holds
    exact Automaton.hasState_iff.mp holds.2
  · split at found
    · split at found
      · rename_i holds
        cases found
        rw [Bool.and_eq_true] at holds
        exact Automaton.hasState_iff.mp holds.1
      · cases found
    · cases found

end Bindings

namespace Automaton

variable {a : Automaton} {b : Bindings} {state : Nat} {symbol : Regex}

/-- A state goes with all transitions that enter or leave it. -/
def detaching (a : Automaton) (s : State) : Rewriting where
  removed := a.ingoing s.id ++ (a.outgoing s.id).filter (·.target != s.id)
  dropped := [s]

theorem Indexed.mem_detaching_removed (indexed : a.Indexed) {s : State} {t : Transition} :
    t ∈ (a.detaching s).removed ↔ a.graph.Has t ∧ (t.source = s.id ∨ t.target = s.id) := by
  simp only [detaching,List.mem_append,List.mem_filter,indexed.ingoing_iff,indexed.outgoing_iff,bne_iff_ne]
  by_cases target : t.target = s.id <;> simp [target]

/-- The states that `symbol` leads to from `state`. -/
def targets (a : Automaton) (state : Nat) (symbol : Regex) : StateSet :=
  .ofList ((a.onSymbol state symbol).map (·.target))

/-- One transition to a state that stands for all the targets. -/
def resolving (a : Automaton) (b : Bindings) (state : Nat) (symbol : Regex) : Rewriting :=
  match b.find? a (b.resolve (a.targets state symbol)) with
  | some destination => { removed := a.onSymbol state symbol,arcs := [⟨state,destination,symbol⟩] }
  | none =>
    { removed := a.onSymbol state symbol
      created := [⟨a.counters.nextState,(a.targets state symbol).members.any a.isFinal⟩]
      arcs := a.copiesFrom (a.targets state symbol) a.counters.nextState ++ [⟨state,a.counters.nextState,symbol⟩] }

theorem Indexed.mem_onSymbol (indexed : a.Indexed) {t : Transition} :
    t ∈ a.onSymbol state symbol ↔ a.graph.Has t ∧ t.source = state ∧ t.label = symbol := by
  simp only [onSymbol,List.mem_filter,indexed.outgoing_iff,beq_iff_eq,and_assoc]

theorem Indexed.mem_targets (indexed : a.Indexed) {s : Nat} :
    s ∈ a.targets state symbol ↔ a.graph.HasArc ⟨state,s,symbol⟩ := by
  simp only [targets,StateSet.mem_ofList,List.mem_map,indexed.mem_onSymbol,Graph.HasArc]
  constructor
  · rintro ⟨t,⟨has,rfl,rfl⟩,rfl⟩
    exact ⟨t,has,rfl⟩
  · rintro ⟨t,has,same⟩
    exact ⟨t,⟨has,by rw [same],by rw [same]⟩,by rw [same]⟩

theorem mem_copiesFrom (indexed : a.Indexed) {targets : StateSet} {new : Nat} {arc : Arc} :
    arc ∈ a.copiesFrom targets new ↔
      arc.source = new ∧ ∃ s ∈ targets, a.graph.HasArc ⟨s,arc.target,arc.label⟩ := by
  simp only [copiesFrom,List.mem_eraseDups,List.mem_flatMap,List.mem_map,StateSet.mem_members,indexed.outgoing_iff]
  constructor
  · rintro ⟨_,member,t,⟨has,rfl⟩,rfl⟩
    exact ⟨rfl,_,member,t,has,rfl⟩
  · rintro ⟨source,s,member,t,has,same⟩
    refine ⟨s,member,t,⟨has,by rw [same]⟩,?_⟩
    rw [same,← source]

section
variable [Ids]

theorem detachEdits_eq (s : State) : a.detachEdits s = (a.detaching s).edits a := by
  rw [detachEdits,Rewriting.edits,Rewriting.removals,detaching]
  show _ = _ ++ [] ++ [] ++ []
  simp only [List.append_nil]
  rfl

/-- No id is taken for that. -/
theorem plan_detaching (s : State) (title : String) :
    (a.detaching s).plan a title [] = ⟨.ofEdits title (a.detachEdits s),a.counters,[]⟩ := by
  rw [Rewriting.plan,Plan.ofEdits,Rewriting.addedStates_edits,Rewriting.added_edits,Counters.length_number,
    ← detachEdits_eq]
  rfl

theorem detaching_fits (consistent : a.Consistent) {s : State} (flag : a.graph.flag? s.id = some s.isFinal)
    (other : s.id ≠ a.start) : (a.detaching s).Fits a where
  removed_nodup := by
    refine List.nodup_append.mpr ⟨consistent.ingoing_nodup s.id,(consistent.outgoing_nodup s.id).filter _,?_⟩
    rintro t into u leaving rfl
    have away := (List.mem_filter.mp leaving).2
    rw [((consistent.ingoing_iff s.id t).mp into).2] at away
    simp at away
  removed_has := fun t member => (consistent.mem_detaching_removed.mp member).1
  dropped_nodup := List.nodup_singleton s.id
  dropped_flag := by
    intro r member
    rw [List.mem_singleton.mp member]
    exact flag
  dropped_other := by
    intro r member
    rw [List.mem_singleton.mp member]
    exact other
  dropped_unused := by
    intro r member t has touches
    rw [List.mem_singleton.mp member] at touches
    exact consistent.mem_detaching_removed.mpr ⟨has,touches⟩
  created_ids := rfl
  ends := nofun
  promoted_flag := nofun

theorem removeUnreachable_cases (indexed : a.Indexed) {state : Nat} {p : Plan}
    (made : a.removeUnreachable state = .ok p) : ¬a.graph.Reaches a.start state ∧ ∃ isFinal title notes,
      a.graph.flag? state = some isFinal ∧ p = (a.detaching ⟨state,isFinal⟩).plan a title notes := by
  unfold removeUnreachable at made
  split at made
  · cases made
  · rename_i s found
    obtain ⟨rfl,flag⟩ := state?_eq_some_iff.mp found
    split at made
    · rename_i listed
      rw [List.contains_iff_mem,indexed.mem_unreachable] at listed
      refine ⟨listed.2,s.isFinal,s!"Remove unreachable state {s.id}",[],flag,(Except.ok.inj made).symm.trans ?_⟩
      exact (plan_detaching s _).symm
    · cases made

theorem removeUnreachable_eq (indexed : a.Indexed) {state : Nat} {isFinal : Bool}
    (flag : a.graph.flag? state = some isFinal) (apart : ¬a.graph.Reaches a.start state) :
    a.removeUnreachable state = .ok ((a.detaching ⟨state,isFinal⟩).plan a s!"Remove unreachable state {state}" []) := by
  have found : a.state? state = some ⟨state,isFinal⟩ := state?_eq_some_iff.mpr ⟨rfl,flag⟩
  have listed : a.unreachable.contains state = true := by
    rw [List.contains_iff_mem,indexed.mem_unreachable]
    exact ⟨by rw [Graph.HasState,flag]; rfl,apart⟩
  unfold removeUnreachable
  rw [found]
  simp only [listed,if_true,plan_detaching]

theorem resolveSymbol_eq (a : Automaton) (b : Bindings) (state : Nat) (symbol : Regex) : ∃ title notes,
    (a.resolveSymbol b state symbol).1 = (a.resolving b state symbol).plan a title notes := by
  unfold resolveSymbol resolving
  show ∃ title notes,Prod.fst (match b.find? a (b.resolve (a.targets state symbol)) with | some _ => _ | none => _) = _
  cases b.find? a (b.resolve (a.targets state symbol)) with
  | some destination =>
    refine ⟨s!"Remove non-determinism on {symbol} from state {state}",[],?_⟩
    simp only [Rewriting.plan,Rewriting.edits,Rewriting.removals,List.map_nil,List.append_nil,Option.toList_none]
  | none =>
    refine ⟨s!"Remove non-determinism on {symbol} from state {state}",
      [.standsFor a.counters.nextState (b.resolve (a.targets state symbol))],?_⟩
    simp only [Rewriting.plan,Rewriting.edits,Rewriting.removals,List.map_nil,List.append_nil,Option.toList_none]
    rfl

theorem resolving_fits (consistent : a.Consistent) (present : a.graph.HasState state) :
    (a.resolving b state symbol).Fits a := by
  have nodup : (a.onSymbol state symbol).Nodup := (consistent.outgoing_nodup state).filter _
  have has : ∀ t ∈ a.onSymbol state symbol, a.graph.Has t :=
    fun t member => (consistent.mem_onSymbol.mp member).1
  unfold resolving
  split
  · rename_i destination found
    refine ⟨nodup,has,List.nodup_nil,nofun,nofun,nofun,rfl,?_,nofun⟩
    intro arc member s here
    rw [List.mem_singleton.mp member] at here
    rcases here with rfl | rfl
    · exact .inr ⟨present,List.not_mem_nil⟩
    · exact .inr ⟨Bindings.hasState_of_find? found,List.not_mem_nil⟩
  · refine ⟨nodup,has,List.nodup_nil,nofun,nofun,nofun,rfl,?_,nofun⟩
    intro arc member s here
    have new : a.counters.nextState ∈ [a.counters.nextState] := List.mem_singleton_self _
    rcases List.mem_append.mp member with copy | last
    · obtain ⟨source,r,_,t,has,same⟩ := (mem_copiesFrom consistent.toIndexed).mp copy
      have target : t.target = arc.target := by rw [same]
      rcases here with rfl | rfl
      · rw [source]
        exact .inl new
      · exact .inr ⟨target ▸ consistent.closed.target_present t has,List.not_mem_nil⟩
    · rw [List.mem_singleton.mp last] at here
      rcases here with rfl | rfl
      · exact .inr ⟨present,List.not_mem_nil⟩
      · exact .inl new

/-- A state can be resolved when it is present and its labels are symbols. -/
theorem resolveState_cases {p : Plan} {b' : Bindings} (made : a.resolveState b state = .ok (some (p,b'))) :
    a.graph.HasState state ∧ ∃ symbol, ambiguousLabel? (a.outgoing state) = some symbol ∧
      (p,b') = a.resolveSymbol b state symbol := by
  unfold resolveState at made
  split at made
  · cases made
  · rename_i present
    split at made
    · cases made
    · obtain ⟨symbol,found,same⟩ := Option.map_eq_some_iff.mp (Except.ok.inj made)
      exact ⟨hasState_iff.mp (by simpa using present),symbol,found,same.symm⟩

end

section
attribute [local instance] Ids.endless

theorem removeUnreachable_sound (consistent : a.Consistent) {state : Nat} {p : Plan}
    (made : a.removeUnreachable state = .ok p) : p.Sound a := by
  obtain ⟨apart,isFinal,title,notes,flag,rfl⟩ := removeUnreachable_cases consistent.toIndexed made
  refine Rewriting.sound consistent (detaching_fits consistent flag ?_) title notes
  rintro rfl
  exact apart .refl

theorem resolveSymbol_sound (consistent : a.Consistent) (present : a.graph.HasState state) (b : Bindings)
    (symbol : Regex) : (a.resolveSymbol b state symbol).1.Sound a := by
  obtain ⟨title,notes,plan⟩ := a.resolveSymbol_eq b state symbol
  rw [plan]
  exact Rewriting.sound consistent (resolving_fits consistent present) title notes

theorem resolveState_sound (consistent : a.Consistent) {p : Plan} {b' : Bindings}
    (made : a.resolveState b state = .ok (some (p,b'))) : p.Sound a := by
  obtain ⟨present,symbol,_,same⟩ := resolveState_cases made
  have sound := resolveSymbol_sound consistent present b symbol
  rwa [← same] at sound

variable {s : State} (consistent : a.Consistent) (flag : a.graph.flag? s.id = some s.isFinal)
  (apart : ¬a.graph.Reaches a.start s.id)
include consistent flag apart

omit consistent flag in
private theorem start_other : s.id ≠ a.start := by
  intro same
  rw [same] at apart
  exact apart .refl

theorem hasArc_detaching (arc : Arc) : (a.graph.editAll ((a.detaching s).edits a)).HasArc arc ↔
    a.graph.HasArc arc ∧ arc.source ≠ s.id ∧ arc.target ≠ s.id := by
  rw [Rewriting.hasArc consistent (detaching_fits consistent flag (start_other apart))]
  simp only [consistent.mem_detaching_removed]
  constructor
  · rintro (new | ⟨t,⟨has,kept⟩,rfl⟩)
    · cases new
    · exact ⟨⟨t,has,rfl⟩,fun same => kept ⟨has,.inl same⟩,fun same => kept ⟨has,.inr same⟩⟩
  · rintro ⟨⟨t,has,rfl⟩,source,target⟩
    exact .inr ⟨t,⟨has,fun touches => touches.2.elim source target⟩,rfl⟩

theorem flag?_detaching (i : Nat) : (a.graph.editAll ((a.detaching s).edits a)).flag? i =
    if i = s.id then none else a.graph.flag? i := by
  have fits := detaching_fits consistent flag (start_other apart)
  rw [Rewriting.flag?_other consistent fits List.not_mem_nil,if_neg nofun]
  show (if i ∈ [s.id] then none else a.graph.flag? i) = _
  by_cases same : i = s.id
  · rw [if_pos same,if_pos (List.mem_singleton.mpr same)]
  · rw [if_neg same,if_neg fun member => same (List.mem_singleton.mp member)]

/-- What is reached does not change. -/
theorem reaches_detaching (i : Nat) : (a.graph.editAll ((a.detaching s).edits a)).Reaches a.start i ↔
    a.graph.Reaches a.start i := by
  constructor
  · intro path
    refine Relation.ReflTransGen.mono (fun p q step => ?_) _ _ path
    obtain ⟨l,arc⟩ := step
    exact ⟨l,((hasArc_detaching consistent flag apart _).mp arc).1⟩
  · intro path
    induction path with
    | refl => exact .refl
    | @tail p q before step ih =>
      obtain ⟨l,arc⟩ := step
      refine ih.tail ⟨l,(hasArc_detaching consistent flag apart _).mpr ⟨arc,?_,?_⟩⟩
      · rintro rfl
        exact apart before
      · rintro rfl
        exact apart (before.tail ⟨l,arc⟩)

/-- A state that is not reached accepts for nothing. -/
theorem language_detaching : (a.graph.editAll ((a.detaching s).edits a)).language = a.graph.language := by
  classical
  rw [Graph.language,Graph.language,Graph.start_editAll]
  have final {i : Nat} (other : i ≠ s.id) :
      (a.graph.editAll ((a.detaching s).edits a)).IsFinal i ↔ a.graph.IsFinal i := by
    rw [Graph.IsFinal,flag?_detaching consistent flag apart,if_neg other]
    rfl
  apply le_antisymm
  · refine Graph.accepts_le (fun i isFinal => ?_) (fun p q l arc => ?_) _
    · have other : i ≠ s.id := by
        rintro rfl
        rw [Graph.IsFinal,flag?_detaching consistent flag apart,if_pos rfl] at isFinal
        cases isFinal
      exact Graph.one_le_accepts ((final other).mp isFinal)
    · exact Graph.mul_accepts_le ((hasArc_detaching consistent flag apart _).mp arc).1
  · -- Of a state that is not reached nothing is asked.
    have solution := Graph.accepts_le (g := a.graph)
      (Z := fun i => if a.graph.Reaches a.start i then (a.graph.editAll ((a.detaching s).edits a)).accepts i else ⊤)
      (fun i isFinal => by
        by_cases reached : a.graph.Reaches a.start i
        · rw [if_pos reached]
          have other : i ≠ s.id := by
            rintro rfl
            exact apart reached
          exact Graph.one_le_accepts ((final other).mpr isFinal)
        · rw [if_neg reached]
          exact le_top)
      (fun p q l arc => by
        by_cases reached : a.graph.Reaches a.start p
        · have next : a.graph.Reaches a.start q := reached.tail ⟨l,arc⟩
          rw [if_pos reached,if_pos next]
          refine Graph.mul_accepts_le ((hasArc_detaching consistent flag apart _).mpr ⟨arc,?_,?_⟩)
          · rintro rfl
            exact apart reached
          · rintro rfl
            exact apart next
        · rw [if_neg reached]
          exact le_top)
      a.graph.start
    have reached : a.graph.Reaches a.start a.graph.start := .refl
    simp only [if_pos reached] at solution
    exact solution

end

end Automaton
end StepwiseAutomata
