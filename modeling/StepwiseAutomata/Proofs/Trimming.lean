import StepwiseAutomata.Proofs.Actions
import StepwiseAutomata.Proofs.Determinism
import StepwiseAutomata.Proofs.ListOrder

namespace StepwiseAutomata

attribute [local instance] Ids.endless

namespace Automaton

/-- The states are removed one after the other, until one of them is refused. -/
def removeUnreachablesOf (a : Automaton) (order : List Nat) : Except Refusal Automaton :=
  order.foldlM (fun b state => (b.removeUnreachable state).map b.perform) a

variable {a b : Automaton}

/-- The second automaton is what is reached of the first, with the same flags and the same lists of what leaves a
    state. -/
structure Trimmed (a b : Automaton) : Prop where
  consistent : b.Consistent
  start : b.start = a.start
  hasState : ∀ s, b.hasState s = true ↔ a.graph.Reaches a.start s
  state : ∀ s, a.graph.Reaches a.start s → b.state? s = a.state? s
  outgoing : ∀ s, a.graph.Reaches a.start s → b.outgoing s = a.outgoing s
  transitions : ∀ t, t ∈ b.transitions ↔ t ∈ a.transitions ∧ a.graph.Reaches a.start t.source
  apart : ∀ t ∈ b.transitions, t.source ∉ a.unreachable ∧ t.target ∉ a.unreachable
  language : b.language = a.language

theorem unreachable_ascending : a.unreachable.Pairwise (· < ·) :=
  (List.pairwise_map.mpr a.vertices.ascending).filter _

section
variable {s : State} (consistent : a.Consistent) (flag : a.graph.flag? s.id = some s.isFinal)
  (apart : ¬a.graph.Reaches a.start s.id) (title : String) (notes : List Note)
include consistent flag apart

/-- No transition from a state that is reached is removed, as it would lead to one that is not. -/
theorem outgoing_detaching {i : Nat} (reached : a.graph.Reaches a.start i) :
    (a.perform ((a.detaching s).plan a title notes)).outgoing i = a.outgoing i := by
  have other : s.id ≠ a.start := fun same => apart (same ▸ .refl)
  have takes := Rewriting.takes consistent (detaching_fits consistent flag other)
  rw [← Rewriting.edits_plan (a := a) title notes] at takes
  refine consistent.listed_perform_elsewhere (e := .source) takes (fun t member => ?_) fun t member here => ?_
  · rw [Rewriting.edits_plan,Rewriting.added_edits] at member
    cases member
  · have here : t.source = i := here
    rw [Rewriting.edits_plan,Rewriting.removed_edits] at member
    obtain ⟨has,touches⟩ := consistent.mem_detaching_removed.mp member
    rcases touches with source | target
    · exact apart (source ▸ here ▸ reached)
    · exact apart (target ▸ reached.tail ⟨t.label,t,has,by rw [← here]⟩)

end

/-- What removing a state that is not reached does. -/
structure Detached (a : Automaton) (state : Nat) (b : Automaton) : Prop where
  consistent : b.Consistent
  start : b.start = a.start
  flag : ∀ i, b.graph.flag? i = if i = state then none else a.graph.flag? i
  old : ∀ t, b.graph.Has t → a.graph.Has t
  reaches : ∀ i, b.graph.Reaches b.start i ↔ a.graph.Reaches a.start i
  outgoing : ∀ i, a.graph.Reaches a.start i → b.outgoing i = a.outgoing i
  language : b.language = a.language

theorem detached_removeUnreachable (consistent : a.Consistent) {state : Nat} (present : a.graph.HasState state)
    (apart : ¬a.graph.Reaches a.start state) :
    ∃ p, a.removeUnreachable state = .ok p ∧ Detached a state (a.perform p) := by
  obtain ⟨isFinal,flag⟩ : ∃ isFinal, a.graph.flag? (⟨state,isFinal⟩ : State).id = some isFinal :=
    Option.isSome_iff_exists.mp present
  have other : (⟨state,isFinal⟩ : State).id ≠ a.start := fun same => apart (same ▸ .refl)
  have made := removeUnreachable_eq consistent.toIndexed flag apart
  have graph := graph_perform (a := a) ((a.detaching ⟨state,isFinal⟩).plan a s!"Remove unreachable state {state}" [])
  rw [Rewriting.edits_plan] at graph
  have start : (a.perform ((a.detaching ⟨state,isFinal⟩).plan a s!"Remove unreachable state {state}" [])).start =
      a.start := by
    rw [← start_graph,graph,Graph.start_editAll,start_graph]
  refine ⟨_,made,consistent.perform (removeUnreachable_sound consistent made),start,fun i => ?_,fun t has => ?_,
    fun i => ?_,fun i => outgoing_detaching consistent flag apart _ _,?_⟩
  · rw [graph,flag?_detaching consistent flag apart]
  · rw [graph] at has
    rcases (Rewriting.has_iff consistent (detaching_fits consistent flag other) t).mp has with new | ⟨old,_⟩
    · cases new
    · exact old
  · rw [start,graph,reaches_detaching consistent flag apart]
  · rw [Automaton.language,graph,language_detaching consistent flag apart]
    rfl

/-- On the way: what is reached is there as it was, and of the other states those that are still to come. -/
structure Trimming (a : Automaton) (order : List Nat) (b : Automaton) : Prop where
  consistent : b.Consistent
  start : b.start = a.start
  reaches : ∀ s, b.graph.Reaches b.start s ↔ a.graph.Reaches a.start s
  nodup : order.Nodup
  pending : ∀ s, s ∈ order ↔ b.graph.HasState s ∧ ¬a.graph.Reaches a.start s
  state : ∀ s, a.graph.Reaches a.start s → b.state? s = a.state? s
  outgoing : ∀ s, a.graph.Reaches a.start s → b.outgoing s = a.outgoing s
  language : b.language = a.language

theorem Trimming.step {state : Nat} {order : List Nat} (trimming : Trimming a (state :: order) b) :
    ∃ p, b.removeUnreachable state = .ok p ∧ Trimming a order (b.perform p) := by
  obtain ⟨present,far⟩ := (trimming.pending state).mp List.mem_cons_self
  obtain ⟨fresh,nodup⟩ := List.nodup_cons.mp trimming.nodup
  obtain ⟨p,made,detached⟩ :=
    detached_removeUnreachable trimming.consistent present (mt (trimming.reaches state).mp far)
  refine ⟨p,made,detached.consistent,detached.start.trans trimming.start,
    fun s => (detached.reaches s).trans (trimming.reaches s),nodup,fun s => ?_,fun s reached => ?_,fun s reached => ?_,
    detached.language.trans trimming.language⟩
  · rw [Graph.HasState,detached.flag]
    by_cases same : s = state
    · rw [if_pos same,same]
      exact ⟨fun member => absurd member fresh,fun gone => by cases gone.1⟩
    · rw [if_neg same]
      exact (List.mem_cons.trans (or_iff_right same)).symm.trans (trimming.pending s)
  · have other : s ≠ state := fun same => far (same ▸ reached)
    rw [← trimming.state s reached]
    refine Option.ext fun r => ?_
    rw [state?_eq_some_iff,state?_eq_some_iff,detached.flag,if_neg other]
  · exact (detached.outgoing s ((trimming.reaches s).mpr reached)).trans (trimming.outgoing s reached)

theorem Trimming.run {order : List Nat} (trimming : Trimming a order b) :
    ∃ c, b.removeUnreachablesOf order = .ok c ∧ Trimming a [] c :=
  exists_foldlM_perform (Trimming a) (fun _ _ _ trimming => trimming.step) order trimming

theorem trimming_start (consistent : a.Consistent) {order : List Nat} (listed : order.Perm a.unreachable) :
    Trimming a order a where
  consistent := consistent
  start := rfl
  reaches := fun _ => Iff.rfl
  nodup := listed.nodup_iff.mpr (a.stateIds_nodup.filter _)
  pending := fun _ => listed.mem_iff.trans consistent.mem_unreachable
  state := fun _ _ => rfl
  outgoing := fun _ _ => rfl
  language := rfl

theorem Trimming.trimmed (indexed : a.Indexed) (done : Trimming a [] b) : Trimmed a b := by
  have there {s : Nat} (present : b.graph.HasState s) : a.graph.Reaches a.start s := by
    by_contra far
    exact List.not_mem_nil ((done.pending s).mpr ⟨present,far⟩)
  have present {s : Nat} (reached : a.graph.Reaches a.start s) : b.graph.HasState s :=
    done.consistent.closed.present_of_reaches ((done.reaches s).mpr reached)
  have kept {t : Transition} (reached : a.graph.Reaches a.start t.source) : b.graph.Has t ↔ a.graph.Has t := by
    have same := done.outgoing t.source reached
    rw [← and_iff_left (a := b.graph.Has t) (rfl : t.source = t.source),← done.consistent.outgoing_iff,same,
      indexed.outgoing_iff,and_iff_left rfl]
  have closed := done.consistent.closed
  refine ⟨done.consistent,done.start,fun s => hasState_iff.trans ⟨there,present⟩,done.state,done.outgoing,fun t => ?_,
    fun t member => ?_,done.language⟩
  · rw [done.consistent.mem_transitions_iff,indexed.mem_transitions_iff]
    constructor
    · intro has
      have source := there (closed.source_present t has)
      exact ⟨(kept source).mp has,source⟩
    · exact fun ⟨has,source⟩ => (kept source).mpr has
  · have has := done.consistent.mem_transitions_iff.mp member
    exact ⟨fun listed => (indexed.mem_unreachable.mp listed).2 (there (closed.source_present t has)),
      fun listed => (indexed.mem_unreachable.mp listed).2 (there (closed.target_present t has))⟩

end Automaton

namespace Session

variable {s : Session}

/-- What can be removed from an automaton one by one can be removed so by commands. -/
theorem completes_removeEach {order : List Nat} {b : Automaton} (ready : s.Ready)
    (run : s.automaton.removeUnreachablesOf order = .ok b) :
    Completes (removeEach order) s fun _ t => t.automaton = b := by
  rw [removeEach_eq]
  induction order generalizing s with
  | nil => exact completes_pure (Except.ok.inj run)
  | cons state order ih =>
    rw [Automaton.removeUnreachablesOf,List.foldlM_cons] at run
    cases made : s.automaton.removeUnreachable state with
    | error e => rw [made] at run; cases run
    | ok p =>
      rw [made] at run
      refine (completes_carryOut ready made).bind fun _ t performed => ih (.inl performed.undone) ?_
      rw [performed.automaton]
      exact run

end Session

namespace Automaton

variable {a : Automaton}

/-- Whatever the order, the states can be removed one by one, also by the commands of a session. -/
theorem exists_trimmed (consistent : a.Consistent) {order : List Nat} (listed : order.Perm a.unreachable) :
    ∃ b, a.removeUnreachablesOf order = .ok b ∧ a.Trimmed b ∧ ∀ s : Session, s.automaton = a → s.Ready →
      ∃ t, (Session.removeEach order).run s = (.ok (),t) ∧ t.automaton = b := by
  obtain ⟨b,run,done⟩ := (trimming_start consistent listed).run
  refine ⟨b,run,done.trimmed consistent.toIndexed,?_⟩
  rintro s rfl ready
  obtain ⟨_,t,result,same⟩ := Session.completes_removeEach ready run
  exact ⟨t,result,same⟩

/-- The states that are listed as unreachable are in ascending order just those that no path leads to. They can be
    removed one by one in any order, also by the commands of a session, which takes them in the order of the list. Then
    what is reached is left as it was, and the language is the same. -/
theorem removeUnreachable_exact (consistent : a.Consistent) :
    a.unreachable.Pairwise (· < ·) ∧
    (∀ s, s ∈ a.unreachable ↔ a.hasState s = true ∧ ¬a.graph.Reaches a.start s) ∧
    (∀ order : List Nat, order.Perm a.unreachable → ∃ b, a.removeUnreachablesOf order = .ok b ∧ a.Trimmed b ∧
      ∀ s : Session, s.automaton = a → s.Ready →
        ∃ t, (Session.removeEach order).run s = (.ok (),t) ∧ t.automaton = b) ∧
    ∀ s : Session, s.automaton = a → s.Ready →
      ∃ t, Session.removeUnreachables.run s = (.ok (),t) ∧ a.Trimmed t.automaton := by
  refine ⟨unreachable_ascending,fun s => ?_,fun order => exists_trimmed consistent,?_⟩
  · rw [consistent.mem_unreachable,hasState_iff]
  · rintro s rfl ready
    obtain ⟨b,_,trimmed,runs⟩ := exists_trimmed consistent (.refl _)
    obtain ⟨t,result,rfl⟩ := runs s rfl ready
    exact ⟨t,result,trimmed⟩

/-- Three states that are not reached lead to each other, one of them to itself, and two of them into what is reached.
    They are removed in an order that is neither that of their ids nor that of the transitions. -/
theorem removeUnreachable_exact_cycle : ∃ a b : Automaton, a.Consistent ∧ a.unreachable = [1,3,7] ∧
    a.removeUnreachablesOf [3,7,1] = .ok b ∧ a.Trimmed b ∧ b.stateIds = [0,4] ∧
    (b.outgoing 0).map Transition.id = [2,9] ∧ b.language = a.language := by
  let picture : Snapshot := ⟨4,[⟨1,false⟩,⟨0,true⟩,⟨7,true⟩,⟨3,false⟩,⟨4,false⟩],
    [⟨0,1,3,"ε"⟩,⟨1,3,7,"a"⟩,⟨2,0,0,"b"⟩,⟨3,7,1,"(a|b)*c"⟩,⟨4,7,7,"a"⟩,⟨5,3,0,"d"⟩,⟨6,4,0,"a"⟩,⟨8,1,4,"a"⟩,⟨9,0,4,"ε"⟩],
    none,none⟩
  obtain ⟨a,consistent,states,left,leaving⟩ : ∃ a : Automaton, a.Consistent ∧ a.unreachable = [1,3,7] ∧
      (a.removeUnreachablesOf [3,7,1]).toOption.map stateIds = some [0,4] ∧
      (a.outgoing 0).map Transition.id = [2,9] :=
    ⟨_,Snapshot.consistent_restore (by decide) (show picture.restore = .ok _ from rfl),by decide +kernel,by decide +kernel,
      by decide +kernel⟩
  obtain ⟨_,_,each,_⟩ := removeUnreachable_exact consistent
  obtain ⟨b,run,trimmed,_⟩ := each [3,7,1] (states ▸ by decide)
  rw [run] at left
  have left := Option.some.inj left
  have reached : a.graph.Reaches a.start 0 := by
    rw [← trimmed.hasState,hasState_iff,← mem_stateIds_iff,left]
    exact List.mem_cons_self
  exact ⟨a,b,consistent,states,run,trimmed,left,(trimmed.outgoing 0 reached).symm ▸ leaving,trimmed.language⟩

end Automaton
end StepwiseAutomata
