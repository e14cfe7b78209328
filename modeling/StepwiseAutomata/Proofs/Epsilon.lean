import StepwiseAutomata.Proofs.Ordering
import StepwiseAutomata.Proofs.Reachability
import StepwiseAutomata.Proofs.Rewriting

namespace StepwiseAutomata
open scoped Computability

/-- What slides into a state accepts what the state accepts. -/
theorem Graph.Slides.accepts_le {g : Graph} {p q : Nat} (slides : g.Slides p q) : g.accepts q ≤ g.accepts p := by
  induction slides with
  | refl => exact le_rfl
  | tail _ arc ih => exact (Graph.accepts_le_of_epsilon arc).trans ih

namespace EpsilonContext

variable {ctx : EpsilonContext}

theorem mem_of_classOf? {state : Nat} {c : StateSet} (found : ctx.classOf? state = some c) : state ∈ c := by
  have holds := List.find?_some found
  exact StateSet.contains_iff.mp holds

/-- The states whose closure is `c`. -/
def sharing (a : Automaton) (c : StateSet) : StateSet :=
  .ofList (((a.vertices.map fun s _ => a.closure s).entries.filter (·.2 == c)).map Prod.fst)

theorem mem_sharing {a : Automaton} {c : StateSet} {x : Nat} :
    x ∈ sharing a c ↔ a.graph.HasState x ∧ a.closure x = c := by
  rw [sharing,StateSet.mem_ofList,← Automaton.mem_stateIds_iff]
  simp only [IdMap.map,Automaton.stateIds,IdMap.keys,List.mem_map,List.mem_filter,beq_iff_eq]
  constructor
  · rintro ⟨_,⟨⟨entry,listed,rfl⟩,rfl⟩,rfl⟩
    exact ⟨⟨entry,listed,rfl⟩,rfl⟩
  · rintro ⟨⟨entry,listed,rfl⟩,rfl⟩
    exact ⟨_,⟨⟨entry,listed,rfl⟩,rfl⟩,rfl⟩

/-- The closures of the states, each of them once, in the order of the first states that have them. -/
def distinct (a : Automaton) : List StateSet := (a.vertices.map fun s _ => a.closure s).values.eraseDups

theorem mem_distinct {a : Automaton} {c : StateSet} : c ∈ distinct a ↔ ∃ x, a.graph.HasState x ∧ a.closure x = c := by
  simp only [distinct,List.mem_eraseDups,IdMap.values,IdMap.map,List.map_map,List.mem_map,← Automaton.mem_stateIds_iff,
    Automaton.stateIds,IdMap.keys]
  constructor
  · rintro ⟨entry,listed,rfl⟩
    exact ⟨entry.1,⟨entry,listed,rfl⟩,rfl⟩
  · rintro ⟨_,⟨entry,listed,rfl⟩,rfl⟩
    exact ⟨entry,listed,rfl⟩

theorem classes_eq (a : Automaton) : (ofAutomaton a).classes = (distinct a).map (sharing a) := rfl

theorem mem_classes {a : Automaton} {c : StateSet} :
    c ∈ (ofAutomaton a).classes ↔ ∃ x, a.graph.HasState x ∧ c = sharing a (a.closure x) := by
  simp only [classes_eq,List.mem_map,mem_distinct]
  constructor
  · rintro ⟨_,⟨x,here,rfl⟩,rfl⟩
    exact ⟨x,here,rfl⟩
  · rintro ⟨x,here,rfl⟩
    exact ⟨_,⟨x,here,rfl⟩,rfl⟩

/-- The class of a state holds the states with the same closure. -/
theorem mem_classOf? {a : Automaton} {x y : Nat} {c : StateSet} (found : (ofAutomaton a).classOf? x = some c) :
    y ∈ c ↔ a.graph.HasState y ∧ a.closure y = a.closure x := by
  obtain ⟨z,_,rfl⟩ := mem_classes.mp (List.mem_of_find?_eq_some found)
  rw [mem_sharing,(mem_sharing.mp (mem_of_classOf? found)).2]

theorem exists_classOf? {a : Automaton} {x : Nat} (present : a.graph.HasState x) :
    ∃ c, (ofAutomaton a).classOf? x = some c := by
  have inside : (sharing a (a.closure x)).contains x = true :=
    StateSet.contains_iff.mpr (mem_sharing.mpr ⟨present,rfl⟩)
  exact Option.isSome_iff_exists.mp (List.find?_isSome.mpr ⟨_,mem_classes.mpr ⟨x,present,rfl⟩,inside⟩)

theorem hasEquivalent_iff {a b : Automaton} {x : Nat} {c : StateSet}
    (found : (ofAutomaton a).classOf? x = some c) :
    (ofAutomaton a).hasEquivalent b x = true ↔ ∃ y ∈ c, y ≠ x ∧ b.graph.HasState y := by
  rw [hasEquivalent,found]
  show c.members.any (fun s => s != x && b.hasState s) = true ↔ _
  simp only [List.any_eq_true,Bool.and_eq_true,bne_iff_ne,Automaton.hasState_iff]
  rfl

end EpsilonContext

namespace Automaton

variable {a : Automaton}

/-- The state that becomes final, if one does. -/
def heir (a : Automaton) (state : Nat) (others : List Nat) : Option Nat :=
  if !a.isFinal state && others.any a.isFinal then some state else none

theorem inheritFinal_eq (state : Nat) (others : List Nat) :
    a.inheritFinal state others = (a.heir state others).toList.map (.setFinal · true false) := by
  unfold inheritFinal heir
  by_cases gains : (!a.isFinal state && others.any a.isFinal) = true
  · have no : a.isFinal state = false := by
      rw [Bool.and_eq_true,Bool.not_eq_true'] at gains
      exact gains.1
    rw [if_pos gains,if_pos gains]
    simp [Command.setFinal,no]
  · rw [if_neg gains,if_neg gains]
    rfl

theorem heir_flag {state s : Nat} {others : List Nat} (present : a.graph.HasState state)
    (found : s ∈ a.heir state others) : s = state ∧ a.graph.flag? s = some false := by
  unfold heir at found
  split at found
  · rename_i gains
    cases found
    refine ⟨rfl,?_⟩
    rw [Bool.and_eq_true,Bool.not_eq_true'] at gains
    obtain ⟨b,flag⟩ := Option.isSome_iff_exists.mp present
    cases b with
    | true => rw [isFinal_iff.mpr flag] at gains; exact absurd gains.1 nofun
    | false => exact flag
  · cases found

theorem heir_eq_some_iff {state s : Nat} {others : List Nat} : a.heir state others = some s ↔
    s = state ∧ ¬a.graph.IsFinal state ∧ ∃ r ∈ others, a.graph.IsFinal r := by
  unfold heir
  simp only [← isFinal_iff,← List.any_eq_true]
  cases a.isFinal state <;> cases others.any a.isFinal <;> simp [eq_comm]

/-! ### Merging -/

/-- The present states of `merged` become its member `state`. -/
def merging (a : Automaton) (merged : StateSet) (state : Nat) : Rewriting :=
  let touched := a.mergeTouched (merged.erase state)
  { removed := touched.filter (fun t => (merged.erase state).contains t.target) ++
      touched.filter fun t => !(merged.erase state).contains t.target
    dropped := (merged.erase state).members.filterMap a.state?
    arcs := a.mergeArcs merged state
    promoted := a.heir state (merged.erase state).members }

theorem mergeEdits_eq [Ids] (merged : StateSet) (state : Nat) :
    a.mergeEdits merged state (a.counters.number (a.mergeArcs merged state)) = (a.merging merged state).edits a := by
  unfold mergeEdits
  simp only [List.partition_eq_filter_filter,inheritFinal_eq,Rewriting.edits,Rewriting.removals,merging,
    List.map_nil,List.append_nil]
  rfl

theorem map_id_present {ids : List Nat} (present : ∀ s ∈ ids, a.graph.HasState s) :
    (ids.filterMap a.state?).map State.id = ids := by
  induction ids with
  | nil => rfl
  | cons s ids ih =>
    obtain ⟨b,flag⟩ := Option.isSome_iff_exists.mp (present s (by simp))
    have found : a.state? s = some ⟨s,b⟩ := state?_eq_some_iff.mpr ⟨rfl,flag⟩
    rw [List.filterMap_cons_some found,List.map_cons,ih fun r member => present r (by simp [member])]

section
variable {merged : StateSet} {state : Nat}

theorem Indexed.mem_merging_removed (indexed : a.Indexed) {t : Transition} :
    t ∈ (a.merging merged state).removed ↔
      a.graph.Has t ∧ (t.source ∈ merged.erase state ∨ t.target ∈ merged.erase state) := by
  have touched : t ∈ a.mergeTouched (merged.erase state) ↔
      a.graph.Has t ∧ (t.source ∈ merged.erase state ∨ t.target ∈ merged.erase state) := by
    simp only [mergeTouched,List.mem_filter,indexed.mem_transitions_iff,Bool.or_eq_true,StateSet.contains_iff]
  rw [← touched]
  simp only [merging,List.mem_append,List.mem_filter]
  cases (merged.erase state).contains t.target <;> simp

/-- The transitions that were touched are put on `state`; `ε` loops and what is there already are left out. -/
theorem Indexed.mem_merging_arcs (indexed : a.Indexed) {arc : Arc} : arc ∈ (a.merging merged state).arcs ↔
    (∃ t ∈ (a.merging merged state).removed, redirect merged state t.toArc = arc) ∧
      arc.isEpsilonLoop = false ∧ ¬a.graph.HasArc arc := by
  have removed (t : Transition) : t ∈ (a.merging merged state).removed ↔ t ∈ a.mergeTouched (merged.erase state) := by
    simp only [merging,List.mem_append,List.mem_filter]
    cases (merged.erase state).contains t.target <;> simp
  rw [← indexed.hasArc_iff]
  simp only [removed]
  simp only [merging,mergeArcs,List.mem_filter,mem_eraseReps,List.mem_mergeSort,List.mem_map,Bool.not_eq_true',
    Bool.not_eq_true,and_assoc]

variable (consistent : a.Consistent) (present : ∀ s ∈ merged, a.graph.HasState s) (member : state ∈ merged)
  (first : a.start ∈ merged → state = a.start)
include consistent present member first

theorem merging_fits [Ids] : (a.merging merged state).Fits a := by
  have dropped : (a.merging merged state).dropped.map State.id = (merged.erase state).members :=
    map_id_present fun s listed => present s (StateSet.mem_erase.mp listed).1
  have gone : ∀ s ∈ (a.merging merged state).dropped, s.id ∈ merged.erase state := by
    intro s listed
    have there : s.id ∈ (a.merging merged state).dropped.map State.id := List.mem_map_of_mem listed
    rw [dropped] at there
    exact there
  refine ⟨?_,?_,?_,?_,?_,?_,rfl,?_,?_⟩
  · have touched : (a.mergeTouched (merged.erase state)).Nodup := consistent.transitions_nodup.filter _
    refine List.nodup_append.mpr ⟨touched.filter _,touched.filter _,?_⟩
    rintro t into u from' rfl
    have := (List.mem_filter.mp into).2
    have := (List.mem_filter.mp from').2
    simp_all
  · exact fun t listed => (consistent.mem_merging_removed.mp listed).1
  · rw [dropped]
    exact (merged.erase state).ascending.imp fun lt => Nat.ne_of_lt lt
  · intro s listed
    obtain ⟨i,_,found⟩ := List.mem_filterMap.mp listed
    obtain ⟨rfl,flag⟩ := state?_eq_some_iff.mp found
    exact flag
  · intro s listed same
    have here := gone s listed
    rw [StateSet.mem_erase,same] at here
    exact here.2 (first here.1).symm
  · intro s listed t has touches
    have here := gone s listed
    refine consistent.mem_merging_removed.mpr ⟨has,?_⟩
    rcases touches with same | same
    · exact .inl (same ▸ here)
    · exact .inr (same ▸ here)
  · intro arc listed s here
    rw [dropped]
    obtain ⟨⟨t,touched,rfl⟩,_⟩ := consistent.mem_merging_arcs.mp listed
    obtain ⟨has,_⟩ := consistent.mem_merging_removed.mp touched
    have put (i : Nat) (there : a.graph.HasState i) (same : s = if merged.contains i then state else i) :
        a.graph.HasState s ∧ s ∉ (merged.erase state).members := by
      rw [same]
      split
      · exact ⟨present state member,fun old => (StateSet.mem_erase.mp old).2 rfl⟩
      · rename_i other
        exact ⟨there,fun old => other (StateSet.contains_iff.mpr (StateSet.mem_erase.mp old).1)⟩
    rcases here with same | same
    · exact .inr (put t.source (consistent.closed.source_present t has) same)
    · exact .inr (put t.target (consistent.closed.target_present t has) same)
  · intro s listed
    obtain ⟨rfl,flag⟩ := heir_flag (present state member) listed
    rw [dropped]
    exact ⟨flag,fun old => (StateSet.mem_erase.mp old).2 rfl⟩

end

/-- What a merge that is not refused does. -/
theorem mergeEquivalent_cases [Ids] {ctx : EpsilonContext} {state : Nat} {p : Plan}
    (made : a.mergeEquivalent ctx state = .ok p) : ∃ c, ctx.classOf? state = some c ∧ a.graph.HasState state ∧
      (a.start ∈ c.filter a.hasState → state = a.start) ∧
      ∃ title notes, p = (a.merging (c.filter a.hasState) state).plan a title notes := by
  unfold mergeEquivalent at made
  split at made
  · cases made
  · rename_i present
    split at made
    · cases made
    · rename_i c found
      simp only at made
      split at made
      · cases made
      · rename_i first
        split at made
        · cases made
        · refine ⟨c,found,hasState_iff.mp (by simpa using present),?_,s!"Merge states equivalent to {state}",
            [.merging ((c.filter a.hasState).erase state).members state],?_⟩
          · intro member
            by_contra other
            exact first (by simp [StateSet.contains_iff.mpr member,other])
          · rw [mergeEdits_eq] at made
            exact (Except.ok.inj made).symm

/-- A merge is not refused when there is something to merge and the start state is not merged into another. -/
theorem mergeEquivalent_eq [Ids] {ctx : EpsilonContext} {state : Nat} {c : StateSet} (found : ctx.classOf? state = some c)
    (here : a.graph.HasState state) (first : a.start ∈ c.filter a.hasState → state = a.start)
    (some : ∃ y ∈ c, y ≠ state ∧ a.graph.HasState y) : a.mergeEquivalent ctx state =
      .ok ((a.merging (c.filter a.hasState) state).plan a s!"Merge states equivalent to {state}"
        [.merging ((c.filter a.hasState).erase state).members state]) := by
  have guard : ((c.filter a.hasState).contains a.start && state != a.start) = false := by
    rw [Bool.and_eq_false_iff]
    by_cases same : state = a.start
    · exact .inr (by simp [same])
    · refine .inl (Bool.not_eq_true _ |>.mp fun inside => same (first (StateSet.contains_iff.mp inside)))
  have full : ((c.filter a.hasState).erase state).isEmpty = false := by
    obtain ⟨y,member,other,there⟩ := some
    have inside : y ∈ (c.filter a.hasState).erase state :=
      StateSet.mem_erase.mpr ⟨StateSet.mem_filter.mpr ⟨member,hasState_iff.mpr there⟩,other⟩
    rw [StateSet.isEmpty,List.isEmpty_eq_false_iff]
    exact List.ne_nil_of_mem inside
  unfold mergeEquivalent
  rw [hasState_iff.mpr here,found]
  simp only [Bool.not_true,Bool.false_eq_true,if_false,guard,full,mergeEdits_eq]
  rfl

section
attribute [local instance] Ids.endless

theorem mergeEquivalent_sound (consistent : a.Consistent) {ctx : EpsilonContext} {state : Nat} {p : Plan}
    (made : a.mergeEquivalent ctx state = .ok p) : p.Sound a := by
  obtain ⟨c,found,here,first,title,notes,rfl⟩ := mergeEquivalent_cases made
  have present : ∀ s ∈ c.filter a.hasState, a.graph.HasState s :=
    fun s member => hasState_iff.mp (StateSet.mem_filter.mp member).2
  have member : state ∈ c.filter a.hasState :=
    StateSet.mem_filter.mpr ⟨EpsilonContext.mem_of_classOf? found,hasState_iff.mpr here⟩
  exact Rewriting.sound consistent (merging_fits consistent present member first) title notes

variable {merged : StateSet} {state : Nat}

/-- Where a merge puts a state. -/
def put (merged : StateSet) (state s : Nat) : Nat := if merged.contains s then state else s

theorem put_of_mem {s : Nat} (member : s ∈ merged) : put merged state s = state :=
  if_pos (StateSet.contains_iff.mpr member)

/-- Only the members that go are put elsewhere. -/
theorem put_of_not_removed {s : Nat} (kept : s ∉ merged.erase state) : put merged state s = s := by
  unfold put
  split
  · rename_i member
    by_contra other
    exact kept (StateSet.mem_erase.mpr ⟨StateSet.contains_iff.mp member,fun same => other same.symm⟩)
  · rfl

variable (consistent : a.Consistent) (present : ∀ s ∈ merged, a.graph.HasState s) (member : state ∈ merged)
  (first : a.start ∈ merged → state = a.start)
include consistent present member first

/-- The arcs after a merge are the arcs before it, put on `state`. -/
theorem hasArc_merging {arc : Arc} (has : (a.graph.editAll ((a.merging merged state).edits a)).HasArc arc) :
    ∃ p q, a.graph.HasArc ⟨p,q,arc.label⟩ ∧ arc = ⟨put merged state p,put merged state q,arc.label⟩ := by
  rw [Rewriting.hasArc consistent (merging_fits consistent present member first)] at has
  rcases has with new | ⟨t,⟨has,kept⟩,rfl⟩
  · obtain ⟨⟨t,touched,rfl⟩,_⟩ := consistent.mem_merging_arcs.mp new
    exact ⟨t.source,t.target,⟨t,(consistent.mem_merging_removed.mp touched).1,rfl⟩,rfl⟩
  · rw [consistent.mem_merging_removed] at kept
    refine ⟨t.source,t.target,⟨t,has,rfl⟩,?_⟩
    rw [put_of_not_removed fun old => kept ⟨has,.inl old⟩,put_of_not_removed fun old => kept ⟨has,.inr old⟩]

/-- No arc is lost but `ε` loops. -/
theorem hasArc_merging_put {p q : Nat} {l : Regex} (has : a.graph.HasArc ⟨p,q,l⟩) :
    (a.graph.editAll ((a.merging merged state).edits a)).HasArc ⟨put merged state p,put merged state q,l⟩ ∨
      l = .epsilon ∧ put merged state p = put merged state q := by
  obtain ⟨t,has,same⟩ := has
  rw [Rewriting.hasArc consistent (merging_fits consistent present member first)]
  have redirected : redirect merged state t.toArc = ⟨put merged state p,put merged state q,l⟩ := by
    rw [same]
    rfl
  by_cases touched : t ∈ (a.merging merged state).removed
  · by_cases loop : (⟨put merged state p,put merged state q,l⟩ : Arc).isEpsilonLoop = true
    · rw [Arc.isEpsilonLoop,Bool.and_eq_true,beq_iff_eq,isEpsilon_iff] at loop
      exact .inr ⟨loop.2,loop.1⟩
    · refine .inl ?_
      by_cases old : a.graph.HasArc ⟨put merged state p,put merged state q,l⟩
      · -- An arc that is there already is not touched, as its ends stay.
        obtain ⟨u,there,same⟩ := old
        refine .inr ⟨u,⟨there,fun touched => ?_⟩,same⟩
        have stays (s : Nat) : put merged state s ∉ merged.erase state := by
          unfold put
          split
          · exact fun old => (StateSet.mem_erase.mp old).2 rfl
          · rename_i outside
            exact fun old => outside (StateSet.contains_iff.mpr (StateSet.mem_erase.mp old).1)
        have ends := (consistent.mem_merging_removed.mp touched).2
        rw [same] at ends
        exact ends.elim (stays p) (stays q)
      · exact .inl (consistent.mem_merging_arcs.mpr ⟨⟨t,touched,redirected⟩,Bool.not_eq_true _ |>.mp loop,old⟩)
  · refine .inl (.inr ⟨t,⟨has,touched⟩,?_⟩)
    rw [consistent.mem_merging_removed] at touched
    have source : t.source = p := by rw [same]
    have target : t.target = q := by rw [same]
    rw [put_of_not_removed fun old => touched ⟨has,.inl (source ▸ old)⟩,
      put_of_not_removed fun old => touched ⟨has,.inr (target ▸ old)⟩,same]

theorem hasState_merging (s : Nat) : (a.graph.editAll ((a.merging merged state).edits a)).HasState s ↔
    a.graph.HasState s ∧ s ∉ merged.erase state := by
  have dropped : (a.merging merged state).dropped.map State.id = (merged.erase state).members :=
    map_id_present fun s listed => present s (StateSet.mem_erase.mp listed).1
  rw [Rewriting.hasState_iff consistent (merging_fits consistent present member first),dropped]
  exact ⟨fun cases => cases.resolve_left List.not_mem_nil,.inr⟩

theorem isFinal_merging (s : Nat) : (a.graph.editAll ((a.merging merged state).edits a)).IsFinal s ↔
    ∃ r, a.graph.IsFinal r ∧ s = put merged state r := by
  have dropped : (a.merging merged state).dropped.map State.id = (merged.erase state).members :=
    map_id_present fun s listed => present s (StateSet.mem_erase.mp listed).1
  rw [Rewriting.isFinal_iff consistent (merging_fits consistent present member first),dropped]
  show _ ∨ a.heir state (merged.erase state).members = some s ∨ _ ↔ _
  rw [heir_eq_some_iff]
  constructor
  · rintro (created | ⟨rfl,_,r,gone,final⟩ | ⟨final,kept⟩)
    · cases created
    · exact ⟨r,final,(put_of_mem (StateSet.mem_erase.mp gone).1).symm⟩
    · exact ⟨s,final,(put_of_not_removed kept).symm⟩
  · rintro ⟨r,final,rfl⟩
    by_cases gone : r ∈ merged.erase state
    · rw [put_of_mem (StateSet.mem_erase.mp gone).1]
      by_cases already : a.graph.IsFinal state
      · exact .inr (.inr ⟨already,fun old => (StateSet.mem_erase.mp old).2 rfl⟩)
      · exact .inr (.inl ⟨rfl,already,r,gone,final⟩)
    · rw [put_of_not_removed gone]
      exact .inr (.inr ⟨final,gone⟩)

/-- Merging states that slide into each other keeps what is accepted from the start state. -/
theorem language_merging (slides : ∀ s ∈ merged, a.graph.Slides state s ∧ a.graph.Slides s state) :
    (a.graph.editAll ((a.merging merged state).edits a)).language = a.graph.language := by
  have same (s : Nat) : a.graph.accepts (put merged state s) = a.graph.accepts s := by
    by_cases inside : s ∈ merged
    · obtain ⟨there,back⟩ := slides s inside
      rw [put_of_mem inside]
      exact le_antisymm back.accepts_le there.accepts_le
    · rw [put_of_not_removed fun old => inside (StateSet.mem_erase.mp old).1]
  have start : put merged state a.graph.start = a.graph.start := by
    by_cases inside : a.start ∈ merged
    · rw [start_graph,put_of_mem inside,first inside]
    · rw [start_graph,put_of_not_removed fun old => inside (StateSet.mem_erase.mp old).1]
  rw [Graph.language,Graph.language,Graph.start_editAll]
  apply le_antisymm
  · refine Graph.accepts_le (fun s final => ?_) (fun p q l arc => ?_) _
    · obtain ⟨r,before,rfl⟩ := (isFinal_merging consistent present member first s).mp final
      rw [same]
      exact Graph.one_le_accepts before
    · obtain ⟨p',q',arc,ends⟩ := hasArc_merging consistent present member first arc
      cases ends
      rw [same,same]
      exact Graph.mul_accepts_le arc
  · have solution := Graph.accepts_le (g := a.graph)
      (Z := fun s => (a.graph.editAll ((a.merging merged state).edits a)).accepts (put merged state s))
      (fun s final => Graph.one_le_accepts ((isFinal_merging consistent present member first _).mpr ⟨s,final,rfl⟩))
      (fun p q l arc => by
        rcases hasArc_merging_put consistent present member first arc with kept | ⟨rfl,loop⟩
        · exact Graph.mul_accepts_le kept
        · rw [Regex.language_epsilon,one_mul,loop])
      a.graph.start
    rw [start] at solution
    exact solution

/-- Slides go on between the states that are left. -/
theorem slides_merging {p q : Nat} (slides : a.graph.Slides p q) :
    (a.graph.editAll ((a.merging merged state).edits a)).Slides (put merged state p) (put merged state q) := by
  induction slides with
  | refl => exact .refl
  | tail _ arc ih =>
    rcases hasArc_merging_put consistent present member first arc with kept | ⟨_,loop⟩
    · exact ih.tail kept
    · exact loop ▸ ih

end

/-! ### Removing `ε` transitions -/

/-- What the `ε` transitions of `state` give way to. -/
def sliding (a : Automaton) (state : Nat) : Rewriting where
  removed := a.epsilonTransitions state
  arcs := a.slidingArcs state
  promoted := a.heir state (a.closure state).members

section
variable {state : Nat}

theorem Indexed.mem_sliding_removed (indexed : a.Indexed) {t : Transition} :
    t ∈ (a.sliding state).removed ↔ a.graph.Has t ∧ t.source = state ∧ t.label = .epsilon := by
  simp only [sliding,epsilonTransitions,List.mem_filter,indexed.outgoing_iff,isEpsilon_iff,and_assoc]

theorem Indexed.mem_sliding_arcs (indexed : a.Indexed) {arc : Arc} : arc ∈ (a.sliding state).arcs ↔
    arc.source = state ∧ arc.label ≠ .epsilon ∧ ¬a.graph.HasArc arc ∧
      ∃ s, a.graph.Slides state s ∧ s ≠ state ∧ a.graph.HasArc ⟨s,arc.target,arc.label⟩ := by
  rw [← indexed.hasArc_iff]
  simp only [sliding,slidingArcs,List.mem_eraseDups,List.mem_filter,List.mem_map,List.mem_flatMap,StateSet.mem_members,
    StateSet.mem_erase,indexed.mem_closure,indexed.outgoing_iff,Bool.not_eq_true',← Bool.not_eq_true,isEpsilon_iff]
  constructor
  · rintro ⟨⟨t,⟨⟨s,⟨slides,other⟩,has,rfl⟩,visible⟩,rfl⟩,new⟩
    exact ⟨rfl,visible,new,_,slides,other,t,has,rfl⟩
  · rintro ⟨rfl,visible,new,s,slides,other,t,has,same⟩
    have source : t.source = s := by rw [same]
    have target : t.target = arc.target := by rw [same]
    have label : t.label = arc.label := by rw [same]
    refine ⟨⟨t,⟨⟨s,⟨slides,other⟩,has,source⟩,label ▸ visible⟩,?_⟩,new⟩
    rw [target,label]

theorem sliding_fits [Ids] (consistent : a.Consistent) (present : a.graph.HasState state) : (a.sliding state).Fits a where
  removed_nodup := (consistent.outgoing_nodup state).filter _
  removed_has := fun t member => (consistent.mem_sliding_removed.mp member).1
  dropped_nodup := List.nodup_nil
  dropped_flag := nofun
  dropped_other := nofun
  dropped_unused := nofun
  created_ids := rfl
  ends := by
    intro arc member s here
    obtain ⟨source,_,_,r,_,_,t,has,same⟩ := consistent.mem_sliding_arcs.mp member
    have target : t.target = arc.target := by rw [same]
    refine .inr ⟨?_,List.not_mem_nil⟩
    rcases here with rfl | rfl
    · rw [source]
      exact present
    · rw [← target]
      exact consistent.closed.target_present t has
  promoted_flag := by
    intro s found
    obtain ⟨rfl,flag⟩ := heir_flag present found
    exact ⟨flag,List.not_mem_nil⟩

theorem removeEpsilon_cases [Ids] {p : Plan} (made : a.removeEpsilon state = .ok p) :
    a.graph.HasState state ∧ ∃ title notes, p = (a.sliding state).plan a title notes := by
  unfold removeEpsilon at made
  split at made
  · cases made
  · rename_i present
    split at made
    · cases made
    · refine ⟨hasState_iff.mp (by simpa using present),s!"Remove epsilon transitions from state {state}",[],
        (Except.ok.inj made).symm.trans ?_⟩
      rw [inheritFinal_eq]
      simp only [Rewriting.plan,Rewriting.edits,Rewriting.removals,sliding,List.map_nil,List.append_nil]

theorem removeEpsilon_eq [Ids] (present : a.graph.HasState state) (some : (a.outgoing state).any (·.isEpsilon) = true) :
    a.removeEpsilon state =
      .ok ((a.sliding state).plan a s!"Remove epsilon transitions from state {state}" []) := by
  have full : (a.epsilonTransitions state).isEmpty = false := by
    obtain ⟨t,member,hidden⟩ := List.any_eq_true.mp some
    rw [List.isEmpty_eq_false_iff]
    exact List.ne_nil_of_mem (List.mem_filter.mpr ⟨member,hidden⟩)
  unfold removeEpsilon
  simp only [hasState_iff.mpr present,Bool.not_true,Bool.false_eq_true,if_false,full,inheritFinal_eq,Rewriting.plan,
    Rewriting.edits,Rewriting.removals,sliding,List.map_nil,List.append_nil]

attribute [local instance] Ids.endless

theorem removeEpsilon_sound (consistent : a.Consistent) {p : Plan} (made : a.removeEpsilon state = .ok p) :
    p.Sound a := by
  obtain ⟨present,title,notes,rfl⟩ := removeEpsilon_cases made
  exact Rewriting.sound consistent (sliding_fits consistent present) title notes

variable (consistent : a.Consistent) (present : a.graph.HasState state)
include consistent present

/-- Afterwards the state has no `ε` arcs, but all other arcs of the states it slid into. -/
theorem hasArc_sliding (arc : Arc) : (a.graph.editAll ((a.sliding state).edits a)).HasArc arc ↔
    a.graph.HasArc arc ∧ ¬(arc.source = state ∧ arc.label = .epsilon) ∨
      arc.source = state ∧ arc.label ≠ .epsilon ∧
        ∃ s, a.graph.Slides state s ∧ a.graph.HasArc ⟨s,arc.target,arc.label⟩ := by
  rw [Rewriting.hasArc consistent (sliding_fits consistent present)]
  simp only [consistent.mem_sliding_arcs,consistent.mem_sliding_removed]
  have kept : (∃ t, (a.graph.Has t ∧ ¬(a.graph.Has t ∧ t.source = state ∧ t.label = .epsilon)) ∧ t.toArc = arc) ↔
      a.graph.HasArc arc ∧ ¬(arc.source = state ∧ arc.label = .epsilon) := by
    constructor
    · rintro ⟨t,⟨has,visible⟩,rfl⟩
      exact ⟨⟨t,has,rfl⟩,fun hidden => visible ⟨has,hidden⟩⟩
    · rintro ⟨⟨t,has,rfl⟩,visible⟩
      exact ⟨t,⟨has,fun hidden => visible hidden.2⟩,rfl⟩
  rw [kept]
  constructor
  · rintro (⟨source,label,_,s,slides,_,arc⟩ | old)
    · exact .inr ⟨source,label,s,slides,arc⟩
    · exact .inl old
  · rintro (old | ⟨source,label,s,slides,copied⟩)
    · exact .inr old
    · by_cases new : a.graph.HasArc arc
      · exact .inr ⟨new,fun hidden => label hidden.2⟩
      · refine .inl ⟨source,label,new,s,slides,?_,copied⟩
        rintro rfl
        rw [← source] at copied
        exact new copied

theorem isFinal_sliding (s : Nat) : (a.graph.editAll ((a.sliding state).edits a)).IsFinal s ↔
    a.graph.IsFinal s ∨ s = state ∧ ∃ r, a.graph.Slides state r ∧ a.graph.IsFinal r := by
  rw [Rewriting.isFinal_iff consistent (sliding_fits consistent present)]
  show (⟨s,true⟩ : State) ∈ [] ∨ a.heir state (a.closure state).members = some s ∨ a.graph.IsFinal s ∧ s ∉ [] ↔ _
  rw [heir_eq_some_iff]
  simp only [StateSet.mem_members,consistent.mem_closure]
  constructor
  · rintro (created | ⟨same,_,r,slides,final⟩ | ⟨final,_⟩)
    · cases created
    · exact .inr ⟨same,r,slides,final⟩
    · exact .inl final
  · rintro (final | ⟨rfl,r,slides,final⟩)
    · exact .inr (.inr ⟨final,List.not_mem_nil⟩)
    · by_cases already : a.graph.IsFinal s
      · exact .inr (.inr ⟨already,List.not_mem_nil⟩)
      · exact .inr (.inl ⟨rfl,already,r,slides,final⟩)

/-- Removing the `ε` transitions of a state keeps what is accepted from any state. A state that it slides into passes on
    to it all that it accepts itself. -/
theorem accepts_sliding (s : Nat) : (a.graph.editAll ((a.sliding state).edits a)).accepts s = a.graph.accepts s := by
  classical
  apply le_antisymm
  · refine Graph.accepts_le (fun s final => ?_) (fun p q l arc => ?_) _
    · rcases (isFinal_sliding consistent present s).mp final with before | ⟨rfl,r,slides,before⟩
      · exact Graph.one_le_accepts before
      · exact (Graph.one_le_accepts before).trans slides.accepts_le
    · rcases (hasArc_sliding consistent present _).mp arc with ⟨old,_⟩ | ⟨rfl,_,s,slides,copied⟩
      · exact Graph.mul_accepts_le old
      · exact (Graph.mul_accepts_le copied).trans slides.accepts_le
  · have passed := Graph.accepts_le (g := a.graph)
      (Z := fun s => (a.graph.editAll ((a.sliding state).edits a)).accepts s ⊓
        if a.graph.Slides state s then (a.graph.editAll ((a.sliding state).edits a)).accepts state else ⊤)
      (fun s final => by
        refine le_inf (Graph.one_le_accepts ((isFinal_sliding consistent present s).mpr (.inl final))) ?_
        split
        · rename_i slides
          exact Graph.one_le_accepts ((isFinal_sliding consistent present state).mpr (.inr ⟨rfl,s,slides,final⟩))
        · exact le_top)
      (fun p q l arc => by
        have toState (slides : a.graph.Slides state p) :
            l.language * ((a.graph.editAll ((a.sliding state).edits a)).accepts q ⊓
              if a.graph.Slides state q then (a.graph.editAll ((a.sliding state).edits a)).accepts state else ⊤) ≤
            (a.graph.editAll ((a.sliding state).edits a)).accepts state := by
          by_cases hidden : l = .epsilon
          · subst hidden
            have further : a.graph.Slides state q := slides.tail arc
            rw [if_pos further,Regex.language_epsilon,one_mul]
            exact inf_le_right
          · have copied := (hasArc_sliding consistent present ⟨state,q,l⟩).mpr (.inr ⟨rfl,hidden,p,slides,arc⟩)
            exact (mul_le_mul' le_rfl inf_le_left).trans (Graph.mul_accepts_le copied)
        refine le_inf ?_ ?_
        · by_cases gone : p = state ∧ l = .epsilon
          · obtain ⟨rfl,rfl⟩ := gone
            exact toState .refl
          · have kept := (hasArc_sliding consistent present ⟨p,q,l⟩).mpr (.inl ⟨arc,gone⟩)
            exact (mul_le_mul' le_rfl inf_le_left).trans (Graph.mul_accepts_le kept)
        · by_cases slides : a.graph.Slides state p
          · rw [if_pos slides]
            exact toState slides
          · rw [if_neg slides]
            exact le_top)
      s
    exact passed.trans inf_le_left

end

end Automaton
end StepwiseAutomata
