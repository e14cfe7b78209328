import StepwiseAutomata.Proofs.Agreement
import StepwiseAutomata.Proofs.Elimination
import StepwiseAutomata.Proofs.Epsilon
import StepwiseAutomata.Proofs.Locality

/-!
Making a command is not executing it. It leaves the automaton as it is but for the counters, and takes exactly the ids of
what the command adds. A transformation that is refused, or that has nothing to do, takes none, so that ids are given out
without gaps.
-/
namespace StepwiseAutomata

section
variable [Ids]

/-- What the plan adds has the next ids, in the order of the edits, and no other ids are taken for it. -/
structure Plan.Numbered (p : Plan) (a : Automaton) : Prop where
  states : p.command.addedStates.map State.id = Ids.series a.counters.nextState p.command.addedStates.length
  transitions : p.command.addedTransitions.map Transition.id =
    Ids.series a.counters.nextTransition p.command.addedTransitions.length
  counters : p.counters = a.counters.advance p.command.addedStates.length p.command.addedTransitions.length

section
variable {a : Automaton} {title : String} {notes : List Note}

theorem numbered_ofEdits {es : List Edit} {arcs : List Arc} (transitions : Edit.added es = a.counters.number arcs)
    (states : (Edit.addedStates es).map State.id = Ids.series a.counters.nextState (Edit.addedStates es).length) :
    (Plan.ofEdits a title es notes).Numbered a := by
  have edits : (Plan.ofEdits a title es notes).command.edits = es := Command.edits_ofEdits title es
  constructor
  · rw [Command.addedStates,edits]
    exact states
  · rw [Command.addedTransitions,edits]
    show (Edit.added es).map Transition.id = Ids.series _ (Edit.added es).length
    rw [transitions,Counters.map_id_number,Counters.length_number]
  · rw [Command.addedStates,Command.addedTransitions,edits]
    rfl

theorem Rewriting.numbered {r : Rewriting}
    (created : r.created.map State.id = Ids.series a.counters.nextState r.created.length) :
    (r.plan a title notes).Numbered a := by
  refine numbered_ofEdits Rewriting.added_edits ?_
  rw [Rewriting.addedStates_edits]
  exact created

theorem Breakdown.numbered_replacing {t : Transition} (n : Nat) (arcs : List Arc) :
    (replacing a t (Ids.series a.counters.nextState n) arcs notes).Numbered a := by
  rw [replacing_eq]
  refine Rewriting.numbered ?_
  rw [map_id_created]
  simp [replacement]

theorem Breakdown.BreaksDown.numbered {t : Transition} {p : Plan} (breaks : BreaksDown a t p) : p.Numbered a := by
  obtain ⟨_,⟨_,_,_,rfl⟩ | ⟨_,_,_,_,_,rfl⟩⟩ := breaks.cases
  · exact numbered_replacing _ _
  · exact numbered_replacing _ _

end

namespace Automaton

variable {a : Automaton} {b b' : Bindings} {state : Nat} {p : Plan}

theorem mergeEquivalent_numbered {ctx : EpsilonContext} (made : a.mergeEquivalent ctx state = .ok p) : p.Numbered a := by
  obtain ⟨_,_,_,_,_,_,rfl⟩ := mergeEquivalent_cases made
  exact Rewriting.numbered rfl

theorem removeEpsilon_numbered (made : a.removeEpsilon state = .ok p) : p.Numbered a := by
  obtain ⟨_,_,_,rfl⟩ := removeEpsilon_cases made
  exact Rewriting.numbered rfl

theorem removeUnreachable_numbered (made : a.removeUnreachable state = .ok p) : p.Numbered a := by
  unfold removeUnreachable at made
  split at made
  · cases made
  · rename_i s _
    split at made
    · cases made
      rw [← plan_detaching s]
      exact Rewriting.numbered (r := a.detaching s) rfl
    · cases made

theorem isolateFinal_numbered (made : a.isolateFinal = some p) : p.Numbered a := by
  obtain ⟨_,rfl⟩ := isolateFinal_cases made
  refine numbered_ofEdits added_isolationEdits ?_
  rw [addedStates_isolationEdits]
  rfl

theorem eliminate_numbered (made : a.eliminate state = .ok p) : p.Numbered a := by
  obtain ⟨_,_,_,rfl⟩ := eliminate_cases made
  refine numbered_ofEdits (added_eliminationEdits _) ?_
  rw [addedStates_eliminationEdits]
  rfl

end Automaton

end

namespace Bindings

/-- The state is bound to the set, and all others are bound as they were. -/
structure Gains (b : Bindings) (state : Nat) (set : StateSet) (b' : Bindings) : Prop where
  get? : ∀ i, b'.get? i = if i = state then some set else b.get? i
  others : b'.remove state = b.remove state

/-- An entry once the state is bound anew. -/
def rebind (state : Nat) (set : StateSet) (e : Nat × StateSet) : Nat × StateSet :=
  if e.1 == state then (state,set) else e

theorem rebind_self {state : Nat} {e : Nat × StateSet} (here : e.1 = state) (set : StateSet) :
    rebind state set e = (state,set) := if_pos (beq_iff_eq.mpr here)

theorem rebind_other {state : Nat} {e : Nat × StateSet} (other : e.1 ≠ state) (set : StateSet) :
    rebind state set e = e := if_neg fun same => other (eq_of_beq same)

theorem fst_rebind (state : Nat) (set : StateSet) (e : Nat × StateSet) : (rebind state set e).1 = e.1 := by
  by_cases here : e.1 = state
  · rw [rebind_self here,here]
  · rw [rebind_other here]

/-- A state that is bound already keeps its place. -/
theorem put_of_bound {b : Bindings} {state : Nat} (bound : b.entries.any (·.1 == state) = true) (set : StateSet) :
    b.put state set = ⟨b.entries.map (rebind state set)⟩ := if_pos bound

theorem gains_put (b : Bindings) (state : Nat) (set : StateSet) : b.Gains state set (b.put state set) := by
  by_cases bound : b.entries.any (·.1 == state) = true
  · rw [put_of_bound bound]
    constructor
    · intro i
      have found : (⟨b.entries.map (rebind state set)⟩ : Bindings).get? i =
          ((b.entries.find? (·.1 == i)).map (rebind state set)).map Prod.snd := by
        rw [Bindings.get?,List.find?_map]
        simp only [Function.comp_def,fst_rebind]
      have key {f : Nat × StateSet} (first : b.entries.find? (·.1 == i) = some f) : f.1 = i :=
        eq_of_beq (List.find?_some (p := fun e : Nat × StateSet => e.1 == i) first)
      rw [found,Bindings.get?]
      by_cases here : i = state
      · subst here
        obtain ⟨e,member,same⟩ := List.any_eq_true.mp bound
        cases first : b.entries.find? (·.1 == i) with
        | none => exact absurd same (List.find?_eq_none.mp first e member)
        | some f => rw [if_pos rfl,Option.map_some,rebind_self (key first),Option.map_some]
      · rw [if_neg here]
        cases first : b.entries.find? (·.1 == i) with
        | none => rfl
        | some f => rw [Option.map_some,rebind_other (key first ▸ here)]
    · rw [remove,remove,Bindings.mk.injEq,List.filter_map]
      simp only [Function.comp_def,fst_rebind]
      refine (List.map_congr_left fun e member => ?_).trans (List.map_id _)
      exact rebind_other (bne_iff_ne.mp (List.mem_filter.mp member).2) set
  · have new : ∀ e ∈ b.entries, e.1 ≠ state := fun e member same =>
      bound (List.any_eq_true.mpr ⟨e,member,beq_iff_eq.mpr same⟩)
    constructor
    · intro i
      by_cases here : i = state
      · rw [here,get?_put_self new,if_pos rfl]
      · rw [get?_put_other new set here,if_neg here]
    · rw [remove,remove,put_of_new new,List.filter_append]
      simp

end Bindings

section
variable [Ids]

theorem Automaton.resolveState_numbered {a : Automaton} {b b' : Bindings} {state : Nat} {p : Plan}
    (made : a.resolveState b state = .ok (some (p,b'))) : p.Numbered a ∧ (b' = b ∨
      ∃ s set, p.command.addedStates = [s] ∧ b.Gains s.id set b') := by
  obtain ⟨_,symbol,_,same⟩ := resolveState_cases made
  obtain ⟨title,notes,plan⟩ := a.resolveSymbol_eq b state symbol
  have bindings := a.resolveSymbol_snd b state symbol
  rw [← same] at plan bindings
  have states : p.command.addedStates = (a.resolving b state symbol).created := by
    rw [show p = _ from plan,Command.addedStates,Rewriting.edits_plan]
    exact Rewriting.addedStates_edits
  rw [states,show p = _ from plan,show b' = _ from bindings,Automaton.resolving]
  cases b.find? a (b.resolve (a.targets state symbol)) with
  | some destination => exact ⟨Rewriting.numbered rfl,.inl rfl⟩
  | none => exact ⟨Rewriting.numbered rfl,.inr ⟨_,_,rfl,Bindings.gains_put _ _ _⟩⟩

namespace Transformation

/-- The ids are given out in order, and only a state that is added can be bound. -/
theorem numbered {a : Automaton} {b b' : Bindings} {x : Transformation} {p : Plan}
    (planned : x.plan a b = .ok (some (p,b'))) : p.Numbered a ∧ (b' = b ∨
      ∃ s set, p.command.addedStates = [s] ∧ b.Gains s.id set b') := by
  cases broken : x.transition? with
  | some t =>
    obtain ⟨breaks,same⟩ := Breakdown.breaksDown_of_plan broken planned
    exact ⟨breaks.numbered,.inl same⟩
  | none =>
    cases x with
    | creation r =>
      cases planned
      rw [Automaton.creation_eq]
      exact ⟨Rewriting.numbered rfl,.inl rfl⟩
    | mergeEquivalent ctx state =>
      obtain ⟨made,same⟩ := eq_ok_of_always planned
      exact ⟨Automaton.mergeEquivalent_numbered made,.inl same⟩
    | removeEpsilon state =>
      obtain ⟨made,same⟩ := eq_ok_of_always planned
      exact ⟨Automaton.removeEpsilon_numbered made,.inl same⟩
    | resolveState state => exact Automaton.resolveState_numbered planned
    | removeUnreachable state =>
      obtain ⟨made,same⟩ := eq_ok_of_always planned
      exact ⟨Automaton.removeUnreachable_numbered made,.inl same⟩
    | isolateFinal =>
      rw [plan] at planned
      obtain ⟨made,same⟩ := eq_ok_of_optional planned
      exact ⟨Automaton.isolateFinal_numbered (Except.ok.inj made),.inl same⟩
    | eliminate state =>
      obtain ⟨made,same⟩ := eq_ok_of_always planned
      exact ⟨Automaton.eliminate_numbered made,.inl same⟩
    | _ => cases broken

/-- The automaton is the same but for its counters. -/
def Frames (w w' : Workbench) : Prop := w'.automaton = { w.automaton with counters := w'.automaton.counters }

/-- What the commands add has the ids from the counters on, in order, and the counters have gone on as far. -/
structure Allots (w : Workbench) (cs : List Command) (w' : Workbench) : Prop where
  states : (cs.flatMap Command.addedStates).map State.id =
    Ids.series w.automaton.counters.nextState (cs.flatMap Command.addedStates).length
  transitions : (cs.flatMap Command.addedTransitions).map Transition.id =
    Ids.series w.automaton.counters.nextTransition (cs.flatMap Command.addedTransitions).length
  counters : w'.automaton.counters = w.automaton.counters.advance
    (cs.flatMap Command.addedStates).length (cs.flatMap Command.addedTransitions).length

variable {w w' w'' : Workbench}

omit [Ids] in
theorem Frames.trans (first : Frames w w') (second : Frames w' w'') : Frames w w'' := by
  rw [Frames,second,first]

theorem Allots.trans {cs ds : List Command} (first : Allots w cs w') (second : Allots w' ds w'') :
    Allots w (cs ++ ds) w'' := by
  have states := second.states
  have transitions := second.transitions
  have counters := second.counters
  rw [first.counters] at states transitions counters
  constructor
  · rw [List.flatMap_append,List.map_append,List.length_append,first.states,states,Ids.series_add]
    rfl
  · rw [List.flatMap_append,List.map_append,List.length_append,first.transitions,transitions,Ids.series_add]
    rfl
  · rw [counters,List.flatMap_append,List.flatMap_append,List.length_append,List.length_append,
      Counters.advance_advance]

end Transformation

end

end StepwiseAutomata
