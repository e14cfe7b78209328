import StepwiseAutomata.Proofs.Rewriting

namespace StepwiseAutomata

/-- One of the two ends of a transition. -/
inductive End where
  | source
  | target
  deriving DecidableEq

def End.other : End → End
  | source => target
  | target => source

/-- The state at an end. -/
def Arc.tip (arc : Arc) : End → Nat
  | .source => arc.source
  | .target => arc.target

/-- Whether that end is isolated. -/
def Isolation.side (level : Isolation) : End → Bool
  | .source => level.atSource
  | .target => level.atTarget

namespace Automaton

variable {a : Automaton} {e : End} {p : Nat}

/-- The number of transitions with that end at the state. -/
def degree (a : Automaton) (e : End) (p : Nat) : Nat := a.transitions.countP fun t : Transition => t.tip e == p

/-- The first transition of a kind leaves a state that is not greater than others of the kind leave. -/
theorem Indexed.source_le_of_find? (indexed : a.Indexed) {kind : Transition → Bool} {t u : Transition}
    (found : a.transitions.find? kind = some t) (has : a.graph.Has u) (holds : kind u = true) :
    t.source ≤ u.source := by
  have lists : ∀ x ∈ a.vertices.entries, ∀ v ∈ x.2.outgoing, v.source = x.1 := by
    intro x member v listed
    refine ((indexed.outgoing_iff x.1 v).mp ?_).2
    rw [outgoing,(IdMap.mem_entries_iff _ _ _).mp member]
    exact listed
  have sorted : a.transitions.Pairwise fun v w => v.source ≤ w.source := by
    rw [transitions,IdMap.values,List.flatMap_map,List.pairwise_flatMap]
    constructor
    · intro x member
      refine List.pairwise_iff_forall_sublist.mpr fun {v w} listed => ?_
      have first := lists x member v (listed.subset (by simp))
      have second := lists x member w (listed.subset (by simp))
      omega
    · refine a.vertices.ascending.imp_of_mem ?_
      intro x y first second lt v listed w listed'
      rw [lists x first v listed,lists y second w listed']
      exact Nat.le_of_lt lt
  obtain ⟨_,before,after,split,none⟩ := List.find?_eq_some_iff_append.mp found
  have member := indexed.mem_transitions_iff.mpr has
  rw [split] at member sorted
  rcases List.mem_append.mp member with early | late
  · have failed := none u early
    rw [holds] at failed
    cases failed
  · rcases List.mem_cons.mp late with rfl | later
    · exact Nat.le_refl _
    · exact (List.pairwise_cons.mp (List.pairwise_append.mp sorted).2.1).1 u later

theorem Indexed.degree_pos (indexed : a.Indexed) {t : Transition} (has : a.graph.Has t) (tip : t.tip e = p) :
    0 < a.degree e p :=
  List.countP_pos_iff.mpr ⟨t,indexed.mem_transitions_iff.mpr has,beq_iff_eq.mpr tip⟩

theorem Indexed.tip_ne_of_degree (indexed : a.Indexed) (none : a.degree e p = 0) {t : Transition}
    (has : a.graph.Has t) : t.tip e ≠ p := by
  intro tip
  have := indexed.degree_pos has tip
  omega

theorem Indexed.two_le_degree (indexed : a.Indexed) {t u : Transition} (has : a.graph.Has t) (has' : a.graph.Has u)
    (tip : t.tip e = p) (tip' : u.tip e = p) (other : t ≠ u) : 2 ≤ a.degree e p := by
  have both : [t,u].Subperm (a.transitions.filter fun t : Transition => t.tip e == p) := by
    refine List.subperm_of_subset (List.nodup_cons.mpr ⟨by simpa using other,List.nodup_singleton u⟩) ?_
    intro v member
    rcases List.mem_cons.mp member with rfl | last
    · exact List.mem_filter.mpr ⟨indexed.mem_transitions_iff.mpr has,beq_iff_eq.mpr tip⟩
    · rw [List.mem_singleton.mp last]
      exact List.mem_filter.mpr ⟨indexed.mem_transitions_iff.mpr has',beq_iff_eq.mpr tip'⟩
  rw [degree,List.countP_eq_length_filter]
  exact both.length_le

theorem Indexed.eq_of_degree (indexed : a.Indexed) (one : a.degree e p = 1) {t u : Transition} (has : a.graph.Has t)
    (has' : a.graph.Has u) (tip : t.tip e = p) (tip' : u.tip e = p) : t = u := by
  by_contra other
  have := indexed.two_le_degree has has' tip tip' other
  omega

theorem Indexed.exists_other (indexed : a.Indexed) (many : 2 ≤ a.degree e p) (t : Transition) :
    ∃ u, a.graph.Has u ∧ u.tip e = p ∧ u ≠ t := by
  by_contra alone
  have only : ∀ u ∈ a.transitions.filter (fun t : Transition => t.tip e == p), u = t := by
    intro u member
    obtain ⟨listed,tip⟩ := List.mem_filter.mp member
    by_contra other
    exact alone ⟨u,indexed.mem_transitions_iff.mp listed,eq_of_beq tip,other⟩
  have few : (a.transitions.filter fun t : Transition => t.tip e == p).Subperm [t] :=
    List.subperm_of_subset (indexed.transitions_nodup.filter _) fun u member => List.mem_singleton.mpr (only u member)
  have short := few.length_le
  rw [← List.countP_eq_length_filter] at short
  have : a.degree e p ≤ 1 := short
  omega

/-- A side needs isolation when another transition has the same end there. -/
theorem Indexed.side_optimal (indexed : a.Indexed) {t : Transition} (has : a.graph.Has t) :
    (Breakdown.optimalIsolation a t).side e = true ↔ 2 ≤ a.degree e (t.tip e) := by
  have someOther : (Breakdown.optimalIsolation a t).side e = true ↔
      ∃ u, (a.graph.Has u ∧ u.tip e = t.tip e) ∧ u.id ≠ t.id := by
    cases e with
    | source =>
      simp only [Isolation.side,Breakdown.optimalIsolation,List.any_eq_true,bne_iff_ne,indexed.outgoing_iff,Arc.tip]
    | target =>
      simp only [Isolation.side,Breakdown.optimalIsolation,List.any_eq_true,bne_iff_ne,indexed.ingoing_iff,Arc.tip]
  rw [someOther]
  constructor
  · rintro ⟨u,⟨has',tip⟩,other⟩
    exact indexed.two_le_degree has has' rfl tip fun same => other (same ▸ rfl)
  · intro many
    obtain ⟨u,has',tip,other⟩ := indexed.exists_other many t
    exact ⟨u,⟨has',tip⟩,fun same => other (has'.eq_of_id has same)⟩

end Automaton

namespace Rewriting

attribute [local instance] Ids.endless

variable {r : Rewriting} {a a' : Automaton} (consistent : a.Consistent) (fits : r.Fits a) (indexed : a'.Indexed)
  (graph : a'.graph = a.graph.editAll (r.edits a))
include consistent fits indexed graph

/-- The transitions are those there were, without the removed and with the new. -/
theorem transitions_perm : (a'.transitions ++ r.removed).Perm (a.transitions ++ a.counters.number r.arcs) := by
  have old {t : Transition} (has : a.graph.Has t) : t ∉ a.counters.number r.arcs := by
    intro new
    have := consistent.below.transition t has
    have := (Counters.id_of_mem_number new).1
    omega
  have numbered : (a.counters.number r.arcs).Nodup := by
    refine List.Nodup.of_map Transition.id ?_
    rw [Counters.map_id_number]
    exact Ids.nodup_series _ _
  have after (t : Transition) : t ∈ a'.transitions ↔ t ∈ a.counters.number r.arcs ∨ a.graph.Has t ∧ t ∉ r.removed := by
    rw [indexed.mem_transitions_iff,graph,has_iff consistent fits]
  refine (List.perm_ext_iff_of_nodup ?_ ?_).mpr fun t => ?_
  · refine List.nodup_append.mpr ⟨indexed.transitions_nodup,fits.removed_nodup,fun t first u second same => ?_⟩
    subst same
    rcases (after t).mp first with new | ⟨_,kept⟩
    · exact old (fits.removed_has t second) new
    · exact kept second
  · refine List.nodup_append.mpr ⟨consistent.transitions_nodup,numbered,fun t first u second same => ?_⟩
    subst same
    exact old (consistent.mem_transitions_iff.mp first) second
  · rw [List.mem_append,List.mem_append,after,consistent.mem_transitions_iff]
    constructor
    · rintro ((new | ⟨has,_⟩) | removed)
      · exact .inr new
      · exact .inl has
      · exact .inl (fits.removed_has t removed)
    · rintro (has | new)
      · by_cases removed : t ∈ r.removed
        · exact .inr removed
        · exact .inl (.inr ⟨has,removed⟩)
      · exact .inl (.inl new)

theorem degree_eq (e : End) (p : Nat) : a'.degree e p + r.removed.countP (fun t : Transition => t.tip e == p) =
    a.degree e p + r.arcs.countP fun arc => arc.tip e == p := by
  have counted := (transitions_perm consistent fits indexed graph).countP_eq fun t : Transition => t.tip e == p
  rw [List.countP_append,List.countP_append] at counted
  rw [Automaton.degree,Automaton.degree,counted]
  congr 1
  rw [← Counters.map_toArc_number a.counters r.arcs,List.countP_map,Counters.map_toArc_number]
  rfl

end Rewriting
end StepwiseAutomata
