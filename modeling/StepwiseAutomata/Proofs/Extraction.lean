import StepwiseAutomata.Proofs.Calls
import StepwiseAutomata.Proofs.Runs
import StepwiseAutomata.Proofs.Simulation

namespace StepwiseAutomata
open scoped Computability

section
attribute [local instance] Ids.endless

namespace Regex

end Regex

namespace Graph

variable {g : Graph}

/-- The words of the labels from one state to another. -/
def between (g : Graph) (p q : Nat) : Language Char := {w | ∃ l, g.HasArc ⟨p,q,l⟩ ∧ w ∈ l.language}

/-- There is at most one final state, and nothing leaves it. -/
structure Isolated (g : Graph) : Prop where
  unique : ∀ p q, g.IsFinal p → g.IsFinal q → p = q
  last : ∀ p q l, g.IsFinal p → ¬g.HasArc ⟨p,q,l⟩

end Graph

namespace Automaton

variable {a : Automaton}

/-! ### Isolation -/

theorem Consistent.hasArc_isolationEdits (consistent : a.Consistent) (arc : Arc) :
    (a.graph.editAll a.isolationEdits).HasArc arc ↔ arc ∈ a.isolationArcs ∨ a.graph.HasArc arc := by
  rw [consistent.hasArc_editAll consistent.takes_isolationEdits.1 added_isolationEdits,removed_isolationEdits]
  · simp [Graph.HasArc]
  · rw [removed_isolationEdits]
    exact fun t member => absurd member List.not_mem_nil

theorem mem_isolationArcs {arc : Arc} :
    arc ∈ a.isolationArcs ↔ ∃ s, a.graph.IsFinal s ∧ arc = ⟨s,a.counters.nextState,.epsilon⟩ := by
  simp only [isolationArcs,List.mem_map,mem_finalIds]
  exact exists_congr fun s => and_congr_right fun _ => eq_comm

theorem Consistent.isFinal_isolationEdits (consistent : a.Consistent) (s : Nat) :
    (a.graph.editAll a.isolationEdits).IsFinal s ↔ s = a.counters.nextState := by
  rw [Graph.IsFinal,consistent.takes_isolationEdits.2]
  split
  · rename_i same; simp [same]
  · rename_i other
    split
    · simp [other]
    · rename_i notFinal
      rw [mem_finalIds] at notFinal
      exact ⟨fun final => (notFinal final).elim,fun same => (other same).elim⟩

theorem Consistent.isolated_isolationEdits (consistent : a.Consistent) :
    (a.graph.editAll a.isolationEdits).Isolated := by
  have absent : ¬a.graph.HasState a.counters.nextState := by
    rw [Graph.HasState,consistent.below.absent_state (Nat.le_refl _)]
    exact Bool.false_ne_true
  constructor
  · intro p q first second
    rw [consistent.isFinal_isolationEdits] at first second
    rw [first,second]
  · intro p q l final arc
    rw [consistent.isFinal_isolationEdits] at final
    subst final
    rcases (consistent.hasArc_isolationEdits _).mp arc with new | ⟨t,has,same⟩
    · obtain ⟨s,final,same⟩ := mem_isolationArcs.mp new
      cases same
      exact absent (by rw [Graph.HasState,final]; rfl)
    · have source := consistent.closed.source_present t has
      rw [same] at source
      exact absent source

/-- Where no isolation is needed, the final state is isolated. -/
theorem Indexed.isolated_of_isolateFinal (indexed : a.Indexed) (none : a.isolateFinal = none) :
    a.graph.Isolated := by
  have needless : a.needsIsolation = false := by
    unfold isolateFinal at none
    by_cases needed : a.needsIsolation = true
    · rw [if_pos needed] at none; cases none
    · exact Bool.not_eq_true _ |>.mp needed
  unfold needsIsolation at needless
  have listed {p : Nat} (final : a.graph.IsFinal p) : (⟨p,true⟩ : State) ∈ a.finalStates :=
    mem_finalStates_iff.mpr ⟨rfl,final⟩
  split at needless
  · rename_i empty
    constructor
    · intro p q first
      have := listed first
      rw [empty] at this
      cases this
    · intro p q l final
      have := listed final
      rw [empty] at this
      cases this
  · rename_i s single
    have only {p : Nat} (final : a.graph.IsFinal p) : p = s.id := by
      have here := listed final
      rw [single,List.mem_singleton] at here
      rw [← here]
    constructor
    · intro p q first second
      rw [only first,only second]
    · rintro p q l final ⟨t,has,same⟩
      have outgoing : a.outgoing s.id = [] := by
        simpa [hasOutgoing] using needless
      have leaves : t ∈ a.outgoing s.id := (indexed.outgoing_iff _ t).mpr ⟨has,by rw [same]; exact only final⟩
      rw [outgoing] at leaves
      cases leaves
  · cases needless

/-! ### Elimination -/

theorem Indexed.mem_labels (indexed : a.Indexed) {p q : Nat} {l : Regex} :
    l ∈ ((a.outgoing p).filter (·.target == q)).map (·.label) ↔ a.graph.HasArc ⟨p,q,l⟩ := by
  simp only [List.mem_map,List.mem_filter,indexed.outgoing_iff,beq_iff_eq,Graph.HasArc]
  constructor
  · rintro ⟨⟨⟨source,target,label⟩,id⟩,⟨⟨has,rfl⟩,rfl⟩,rfl⟩
    exact ⟨_,has,rfl⟩
  · rintro ⟨t,has,same⟩
    exact ⟨t,⟨⟨has,by rw [same]⟩,by rw [same]⟩,by rw [same]⟩

/-- The choice of the labels from one state to another. -/
theorem Indexed.choiceOf_sound (indexed : a.Indexed) (flat : a.graph.Flat) {p q : Nat}
    (some : (a.outgoing p).filter (·.target == q) ≠ []) :
    (Regex.choiceOf (((a.outgoing p).filter (·.target == q)).map (·.label))).Flat ∧
      (Regex.choiceOf (((a.outgoing p).filter (·.target == q)).map (·.label))).language = a.graph.between p q := by
  have flats : ∀ l ∈ ((a.outgoing p).filter (·.target == q)).map (·.label), l.Flat :=
    fun l member => flat _ (indexed.mem_labels.mp member)
  refine ⟨Regex.flat_choiceOf flats,?_⟩
  rw [Regex.language_choiceOf flats fun none => some (List.map_eq_nil_iff.mp none)]
  ext w
  rw [Regex.mem_languageSum]
  exact exists_congr fun l => and_congr_left fun _ => indexed.mem_labels

theorem Indexed.between_eq_zero (indexed : a.Indexed) {p q : Nat}
    (none : (a.outgoing p).filter (·.target == q) = []) : a.graph.between p q = 0 := by
  refine Set.eq_empty_of_forall_notMem fun w member => ?_
  obtain ⟨l,arc,_⟩ := member
  have listed := indexed.mem_labels.mpr arc
  rw [none] at listed
  cases listed

/-- The loops at a state are read any number of times. -/
theorem Indexed.loops?_sound (indexed : a.Indexed) (flat : a.graph.Flat) (state : Nat) :
    (∀ r ∈ a.loops? state, r.Flat) ∧
      ((a.loops? state).map Regex.language).getD 1 = (a.graph.between state state)∗ := by
  unfold loops?
  split
  · rename_i none
    refine ⟨nofun,?_⟩
    rw [indexed.between_eq_zero none,kstar_zero]
    rfl
  · rename_i ts found
    have some : (a.outgoing state).filter (·.target == state) ≠ [] := fun none => found none
    obtain ⟨flats,language⟩ := indexed.choiceOf_sound flat some
    refine ⟨?_,?_⟩
    · intro r member
      cases member
      exact .quant .star flats
    · show (Regex.quant .star _).language = _
      rw [Regex.language_quant,language]
      rfl

theorem bypassLabel_sound {entering leaving : Regex} {loops : Option Regex} (first : entering.Flat)
    (flats : ∀ r ∈ loops, r.Flat) (last : leaving.Flat) : (bypassLabel entering loops leaving).Flat ∧
      (bypassLabel entering loops leaving).language =
        entering.language * (loops.map Regex.language).getD 1 * leaving.language := by
  have each : ∀ r ∈ entering :: loops.toList ++ [leaving], r.Flat := by
    intro r member
    rcases List.mem_append.mp member with front | back
    · rcases List.mem_cons.mp front with rfl | middle
      · exact first
      · exact flats r (Option.mem_toList.mp middle)
    · rw [List.mem_singleton.mp back]
      exact last
  obtain ⟨flat,language⟩ := Regex.optimiseToDepth_sound 1 (Regex.flat_sequenceOf each)
  refine ⟨flat,language.trans ?_⟩
  rw [Regex.language_sequenceOf]
  cases loops with
  | none => simp
  | some r => simp [mul_assoc]

section
variable {state : Nat} (consistent : a.Consistent) (flat : a.graph.Flat) (other : state ≠ a.start)
  (flag : a.graph.flag? state = some false)
include consistent flat other flag

omit flat in
theorem isolated_eliminationEdits (isolated : a.graph.Isolated) :
    (a.graph.editAll (a.eliminationEdits ⟨state,false⟩)).Isolated := by
  have final (s : Nat) (isFinal : (a.graph.editAll (a.eliminationEdits ⟨state,false⟩)).IsFinal s) :
      a.graph.IsFinal s := by
    rw [Graph.IsFinal,flag?_eliminationEdits other] at isFinal
    split at isFinal
    · cases isFinal
    · exact isFinal
  constructor
  · intro p q first second
    exact isolated.unique p q (final p first) (final q second)
  · intro p q l isFinal arc
    rcases (hasArc_eliminationEdits consistent other flag _).mp arc with way | ⟨old,_⟩
    · obtain ⟨r,s,_,_,k,m,into,leaving,same⟩ := consistent.mem_bypasses.mp way
      cases same
      exact isolated.last p state k (final p isFinal) into
    · exact isolated.last p q l (final p isFinal) old

end

/-! ### The expression that is left -/

theorem mem_eliminable {state : Nat} : state ∈ a.eliminable ↔ a.graph.flag? state = some false ∧ state ≠ a.start := by
  simp only [eliminable,List.mem_map,List.mem_filter,mem_states_iff,Bool.and_eq_true,bne_iff_ne,Bool.not_eq_true']
  constructor
  · rintro ⟨s,⟨flag,other,no⟩,rfl⟩
    exact ⟨no ▸ flag,other⟩
  · rintro ⟨flag,other⟩
    exact ⟨⟨state,false⟩,⟨flag,other,rfl⟩,rfl⟩

theorem eliminable_nodup (a : Automaton) : a.eliminable.Nodup := by
  have sub : a.eliminable.Sublist a.stateIds := by
    rw [eliminable,← states_map_id]
    exact List.filter_sublist.map _
  exact sub.nodup a.stateIds_nodup

theorem eliminate_eq {state : Nat} (flag : a.graph.flag? state = some false) (other : state ≠ a.start) :
    a.eliminate state = .ok (.ofEdits a s!"Eliminate state {state}" (a.eliminationEdits ⟨state,false⟩) []) := by
  have found : a.state? state = some ⟨state,false⟩ := state?_eq_some_iff.mpr ⟨rfl,flag⟩
  unfold eliminate
  rw [found]
  simp only [other,if_false,Bool.false_eq_true]
  rfl

/-- The states of the list, in whatever order, are those that are still to be eliminated. -/
structure Pending (a : Automaton) (order : List Nat) : Prop where
  nodup : order.Nodup
  mem_iff : ∀ x, x ∈ order ↔ x ∈ a.eliminable

/-- Once a state is eliminated, the others are left. -/
theorem Pending.step {a b : Automaton} {state : Nat} {order : List Nat} (pending : a.Pending (state :: order))
    (graph : b.graph = a.graph.editAll (a.eliminationEdits ⟨state,false⟩)) : b.Pending order := by
  obtain ⟨_,other⟩ := mem_eliminable.mp ((pending.mem_iff state).mp List.mem_cons_self)
  obtain ⟨fresh,nodup⟩ := List.nodup_cons.mp pending.nodup
  refine ⟨nodup,fun x => ?_⟩
  have before := pending.mem_iff x
  have start : b.start = a.start := by
    rw [← start_graph,graph,Graph.start_editAll,start_graph]
  rw [List.mem_cons,mem_eliminable] at before
  rw [mem_eliminable,graph,flag?_eliminationEdits other,start]
  by_cases here : x = state
  · rw [if_pos here,here]
    exact ⟨fun member => (fresh member).elim,fun impossible => by cases impossible.1⟩
  · rw [if_neg here,← before]
    simp [here]

/-- An isolated final state is the only one listed, and no transitions are listed with it. -/
theorem Indexed.finalStates_cases (indexed : a.Indexed) (isolated : a.graph.Isolated) :
    a.finalStates = [] ∧ (∀ p, ¬a.graph.IsFinal p) ∨
      ∃ s, a.finalStates = [s] ∧ a.graph.IsFinal s.id ∧ a.outgoing s.id = [] := by
  have final {s : State} (member : s ∈ a.finalStates) : a.graph.IsFinal s.id := (mem_finalStates_iff.mp member).2
  rcases states : a.finalStates with _ | ⟨s,_ | ⟨t,rest⟩⟩
  · refine .inl ⟨rfl,fun p isFinal => ?_⟩
    have listed : (⟨p,true⟩ : State) ∈ a.finalStates := mem_finalStates_iff.mpr ⟨rfl,isFinal⟩
    rw [states] at listed
    cases listed
  · have isFinal := final (states ▸ List.mem_cons_self)
    refine .inr ⟨s,rfl,isFinal,List.eq_nil_iff_forall_not_mem.mpr fun t member => ?_⟩
    obtain ⟨has,source⟩ := (indexed.outgoing_iff s.id t).mp member
    exact isolated.last s.id t.target t.label isFinal ⟨t,has,by rw [← source]⟩
  · have first := final (states ▸ List.mem_cons_self)
    have second := final (states ▸ List.mem_cons_of_mem s List.mem_cons_self)
    have nodup := a.finalIds_nodup
    rw [finalIds,states,List.map_cons,List.map_cons,isolated.unique _ _ first second] at nodup
    exact absurd List.mem_cons_self (List.nodup_cons.mp nodup).1

/-- An answer is exact when it is an expression of the language, and is missing just when the language is empty. -/
def Exact (l : Language Char) (answer : Option Regex) : Prop :=
  (answer = none ↔ l = 0) ∧ ∀ r ∈ answer, r.Flat ∧ r.language = l

end Automaton

/-! ### Reading an expression off in a session -/

namespace Session

variable {s : Session}

/-- The final state has been isolated by steps that keep the language. -/
structure Isolates (s t : Session) : Prop where
  keeps : Keeps s t
  flat : t.automaton.graph.Flat
  isolated : t.automaton.graph.Isolated

section
variable (consistent : s.automaton.Consistent) (flat : s.automaton.graph.Flat) (ready : s.Ready)
include consistent flat ready

end

/-- The states of the list, in whatever order, are those that are still to be eliminated. -/
structure Eliminating (s : Session) (order : List Nat) (t : Session) : Prop extends Isolates s t where
  nodup : order.Nodup
  mem_iff : ∀ x, x ∈ order ↔ x ∈ t.automaton.eliminable

section
variable (consistent : s.automaton.Consistent) (ready : s.Ready)
include consistent ready

omit ready in
/-- After the eliminations nothing is to be isolated and nothing to be eliminated. -/
theorem Eliminating.finished {t : Session} (start : Eliminating s [] t) :
    t.automaton.isolateFinal = none ∧ t.automaton.eliminable = [] := by
  have indexed := start.keeps.consistent consistent
  refine ⟨?_,List.eq_nil_iff_forall_not_mem.mpr fun x member => List.not_mem_nil ((start.mem_iff x).mpr member)⟩
  have needless : t.automaton.needsIsolation = false := by
    unfold Automaton.needsIsolation
    rcases indexed.finalStates_cases start.isolated with ⟨states,_⟩ | ⟨r,states,_,still⟩
    · rw [states]
    · rw [states]
      show t.automaton.hasOutgoing r.id = false
      rw [Automaton.hasOutgoing,still]
      rfl
  rw [Automaton.isolateFinal,needless]
  rfl

end

end Session
end

namespace Session

section
variable [Ids] {s : Session}

end

end Session
end StepwiseAutomata
