import StepwiseAutomata.Proofs.BreakdownAll
import StepwiseAutomata.Proofs.ListOrder

namespace StepwiseAutomata

section
attribute [local instance] Ids.endless

theorem Automaton.states_ascending (a : Automaton) : a.states.Pairwise fun r s : State => r.id < s.id :=
  List.pairwise_map.mpr a.vertices.ascending

namespace Rewriting

variable {r : Rewriting} {a a' : Automaton} (consistent : a.Consistent) (fits : r.Fits a)
  (dropped : r.dropped = []) (promoted : r.promoted = none)
include consistent fits dropped promoted

theorem flag?_iff (s : State) : (a.graph.editAll (r.edits a)).flag? s.id = some s.isFinal ↔
    a.graph.flag? s.id = some s.isFinal ∨ s ∈ r.created := by
  by_cases new : s.id ∈ r.created.map State.id
  · have absent := created_new consistent fits new
    obtain ⟨c,member,same⟩ := List.mem_map.mp new
    rw [absent,or_iff_right (Option.some_ne_none _).symm,← same,flag?_created consistent fits member,Option.some.injEq]
    constructor
    · intro flags
      obtain rfl : c = s := by
        cases c
        cases s
        cases same
        cases flags
        rfl
      exact member
    · intro listed
      rw [List.inj_on_of_nodup_map (created_nodup fits) member listed same]
  · have outside : s ∉ r.created := fun member => new (List.mem_map_of_mem member)
    rw [flag?_other consistent fits new,promoted,dropped,if_neg (Option.some_ne_none _).symm,List.map_nil,
      if_neg List.not_mem_nil,or_iff_left outside]

/-- A rewriting that drops no state and makes none final puts its new states behind the others. -/
theorem states_eq (graph : a'.graph = a.graph.editAll (r.edits a)) : a'.states = a.states ++ r.created := by
  have : Std.Irrefl fun r s : State => r.id < s.id := ⟨fun r => Nat.lt_irrefl r.id⟩
  have : Std.Antisymm fun r s : State => r.id < s.id := ⟨fun r s lt gt => absurd gt (Nat.lt_asymm lt)⟩
  have created : r.created.Pairwise fun r s : State => r.id < s.id := by
    rw [← List.pairwise_map (f := State.id) (R := (· < ·)),fits.created_ids]
    exact Ids.pairwise_series _ _
  refine a'.states_ascending.eq_of_mem_iff (List.pairwise_append.mpr ⟨a.states_ascending,created,?_⟩) fun s => ?_
  · intro s old c member
    have present : a.graph.HasState s.id := by
      rw [Graph.HasState,Automaton.mem_states_iff.mp old]
      rfl
    have listed : c.id ∈ r.created.map State.id := List.mem_map_of_mem member
    rw [fits.created_ids,Ids.mem_series] at listed
    exact Nat.lt_of_lt_of_le (consistent.below.state s.id present) listed.1
  · rw [Automaton.mem_states_iff,graph,flag?_iff consistent fits dropped promoted,List.mem_append,
      Automaton.mem_states_iff]

end Rewriting

theorem Automaton.Indexed.listed_perform {a : Automaton} (indexed : a.Indexed) {p : Plan} {e : End} {s : Nat}
    (takes : a.graph.Takes p.command.edits)
    (apart : ∀ t ∈ Edit.added p.command.edits, t ∉ Edit.removed p.command.edits) : (a.perform p).listed e s =
      (a.listed e s).filter (· ∉ Edit.removed p.command.edits) ++ Edit.addedAt e s p.command.edits := by
  refine ((indexed.counted p.counters).listed_editAll takes apart e s).trans ?_
  cases e <;> rfl

end

namespace Breakdown

/-- The command has taken the transition out and put new states and transitions in its place. Other transitions and other
    states have stayed as they were, in the lists as well. -/
structure Exchanges (a : Automaton) (t : Transition) (c : Command) (a' : Automaton) : Prop where
  present : a.graph.Has t
  start : a'.start = a.start
  states : a'.states = a.states ++ c.addedStates
  /-- The new states have the next ids, and none of them is final. -/
  numbered : c.addedStates = (List.range' a.counters.nextState c.addedStates.length).map fun s => ⟨s,false⟩
  counters : a'.counters =
    ⟨a.counters.nextState + c.addedStates.length,a.counters.nextTransition + c.addedTransitions.length⟩
  has_iff : ∀ u, a'.graph.Has u ↔ u ∈ c.addedTransitions ∨ a.graph.Has u ∧ u ≠ t
  listed : ∀ e s, a'.listed e s =
    (a.listed e s).filter (· ≠ t) ++ c.addedTransitions.filter fun u : Transition => u.tip e == s
  /-- The new transitions have new ids, and lead between the ends of the old one and the new states. -/
  fresh : ∀ u ∈ c.addedTransitions, a.transition? u.id = none
  joins : ∀ u ∈ c.addedTransitions, ∀ e, u.tip e = t.source ∨ u.tip e = t.target ∨ u.tip e ∈ c.addedStates.map State.id
  operators : Regex.operatorTotal (c.addedTransitions.map fun u : Transition => u.label) + 1 = t.label.operatorCount
  sequence : ∀ rs, t.label = .seq rs → c.addedStates.length = rs.length - 1 ∧ c.addedTransitions.length = rs.length
  choice : ∀ rs, t.label = .choice rs → c.addedStates = [] ∧ c.addedTransitions.length = rs.length

section
attribute [local instance] Ids.endless

variable {a a' : Automaton} {t : Transition}

section
variable {n : Nat} {arcs : List Arc} {notes : List Note}

theorem addedStates_replacing : (replacing a t (Ids.series a.counters.nextState n) arcs notes).command.addedStates =
    (Ids.series a.counters.nextState n).map fun s => ⟨s,false⟩ := by
  rw [replacing_eq,Command.addedStates,Rewriting.edits_plan]
  exact Rewriting.addedStates_edits

theorem addedTransitions_replacing :
    (replacing a t (Ids.series a.counters.nextState n) arcs notes).command.addedTransitions = a.counters.number arcs := by
  rw [replacing_eq,Command.addedTransitions,Rewriting.edits_plan]
  exact Rewriting.added_edits

theorem listed_replacing (consistent : a.Consistent) (has : a.graph.Has t) (joins : Joins a t n arcs) (e : End)
    (s : Nat) :
    (a.perform (replacing a t (Ids.series a.counters.nextState n) arcs notes)).listed e s =
      (a.listed e s).filter (· ≠ t) ++ (a.counters.number arcs).filter fun u : Transition => u.tip e == s := by
  have fits := replacement_fits consistent has joins
  have apart : ∀ u ∈ Edit.added ((replacement a t n arcs).edits a),
      u ∉ Edit.removed ((replacement a t n arcs).edits a) := by
    rw [Rewriting.added_edits,Rewriting.removed_edits]
    intro u new gone
    have old := consistent.below.transition u (fits.removed_has u gone)
    have := (Counters.id_of_mem_number new).1
    omega
  have listed := consistent.toIndexed.listed_perform
    (p := replacing a t (Ids.series a.counters.nextState n) arcs notes) (e := e) (s := s)
  rw [replacing_eq,Rewriting.edits_plan] at listed
  rw [replacing_eq,listed (Rewriting.takes consistent fits) apart,Edit.addedAt,Rewriting.added_edits,
    Rewriting.removed_edits]
  refine congrArg (· ++ _) (List.filter_congr fun u _ => ?_)
  exact decide_eq_decide.mpr (not_congr List.mem_singleton)

theorem counters_replacing (notes : List Note) :
    (replacing a t (Ids.series a.counters.nextState n) arcs notes).counters =
      ⟨a.counters.nextState + n,a.counters.nextTransition + arcs.length⟩ := by
  have states := congrArg List.length (Rewriting.addedStates_edits (r := replacement a t n arcs) (a := a))
  have transitions := congrArg List.length (Rewriting.added_edits (r := replacement a t n arcs) (a := a))
  rw [replacing_eq]
  show a.counters.advance (Edit.addedStates ((replacement a t n arcs).edits a)).length
    (Edit.added ((replacement a t n arcs).edits a)).length = _
  rw [states,transitions,Counters.advance_endless,Counters.length_number]
  simp [replacement]

/-- What breaking a transition down with these states and arcs exchanges. -/
theorem exchanges_replacing (consistent : a.Consistent) (has : a.graph.Has t)
    (joins : Joins a t n arcs) (operators : Regex.operatorTotal (arcs.map Arc.label) + 1 = t.label.operatorCount)
    (sequence : ∀ rs, t.label = .seq rs → n = rs.length - 1 ∧ arcs.length = rs.length)
    (choice : ∀ rs, t.label = .choice rs → n = 0 ∧ arcs.length = rs.length) :
    Exchanges a t (replacing a t (Ids.series a.counters.nextState n) arcs notes).command
      (a.perform (replacing a t (Ids.series a.counters.nextState n) arcs notes)) := by
  have fits := replacement_fits consistent has joins
  have swaps : Swaps a t n arcs (a.perform (replacing a t (Ids.series a.counters.nextState n) arcs notes)) :=
    ⟨consistent,has,joins,graph_replacing n arcs notes⟩
  constructor
  case present => exact has
  case start => exact swaps.start_eq
  case states =>
    rw [addedStates_replacing]
    exact Rewriting.states_eq consistent fits rfl rfl swaps.graph
  case numbered =>
    rw [addedStates_replacing,List.length_map,Ids.length_series,Ids.series_endless]
  case counters =>
    rw [Automaton.counters_perform,addedStates_replacing,addedTransitions_replacing,List.length_map,Ids.length_series,
      Counters.length_number]
    exact counters_replacing notes
  case has_iff =>
    rw [addedTransitions_replacing]
    exact swaps.has_iff
  case listed =>
    rw [addedTransitions_replacing]
    exact listed_replacing consistent has joins
  case fresh =>
    rw [addedTransitions_replacing]
    intro u member
    exact consistent.below.absent_transition consistent.closed (Counters.id_of_mem_number member).1
  case joins =>
    rw [addedTransitions_replacing,addedStates_replacing]
    intro u member e
    have ends := joins u.toArc (Counters.toArc_mem_of_mem_number member) (u.tip e) (by cases e <;> simp [Arc.tip])
    rwa [List.map_map,show State.id ∘ (fun s : Nat => (⟨s,false⟩ : State)) = id from rfl,List.map_id]
  case operators =>
    rw [addedTransitions_replacing,Counters.map_label_number,operators]
  case sequence =>
    rw [addedStates_replacing,addedTransitions_replacing,List.length_map,Ids.length_series,Counters.length_number]
    exact sequence
  case choice =>
    intro rs label
    obtain ⟨rfl,count⟩ := choice rs label
    rw [addedStates_replacing,addedTransitions_replacing,Counters.length_number]
    exact ⟨rfl,count⟩

end

theorem length_chain_eq (source target n : Nat) (rs : List Regex) :
    (chain source (Ids.series n (rs.length - 1)) target rs).length = rs.length := by
  cases rs with
  | nil => rfl
  | cons r rs =>
    have labels : (chain source (Ids.series n rs.length) target (r :: rs)).map Arc.label = r :: rs :=
      map_label_chain (by rw [Ids.length_series,List.length_cons])
    exact (List.length_map Arc.label).symm.trans (congrArg List.length labels)

/-- Each way to break a transition down exchanges it for its parts. -/
theorem BreaksDown.exchanges {p : Plan} (breaks : BreaksDown a t p) (consistent : a.Consistent) :
    Exchanges a t p.command (a.perform p) ∧ (a.perform p).weight + 1 = a.weight := by
  obtain ⟨has,⟨compound,policy,notes,rfl⟩ | ⟨level,isStar,body,label,notes,rfl⟩⟩ := breaks.cases
  · have joins := joins_expansion (a := a) (t := t) policy
    have operators := operatorTotal_expansion (a := a) policy compound
    refine ⟨exchanges_replacing consistent has joins operators ?_ ?_,
      weight_replacing consistent has joins operators notes⟩
    · intro rs label
      simp only [expansion,label,true_and]
      exact length_chain_eq _ _ _ rs
    · intro rs label
      simp only [expansion,label,true_and]
      exact List.length_map _
  · have joins := joins_loop (a := a) (t := t) level isStar body
    have operators : Regex.operatorTotal ((loop a t level isStar body).2.map Arc.label) + 1 = t.label.operatorCount := by
      rw [operatorTotal_loop,label,Regex.operatorCount]
    refine ⟨exchanges_replacing consistent has joins operators ?_ ?_,
      weight_replacing consistent has joins operators notes⟩
    · intro rs sequence
      rw [label] at sequence
      cases sequence
    · intro rs choice
      rw [label] at choice
      cases choice

end

theorem breaksDown_of_plan [Ids] {a : Automaton} {t : Transition} {b b' : Bindings} {x : Transformation} {p : Plan}
    (breaks : x.transition? = some t) (planned : x.plan a b = .ok (some (p,b'))) : BreaksDown a t p ∧ b' = b := by
  cases x with
  | choice v => cases breaks; exact (Transformation.eq_ok_of_always planned).imp_left .choice
  | sequence v => cases breaks; exact (Transformation.eq_ok_of_always planned).imp_left .sequence
  | option v => cases breaks; exact (Transformation.eq_ok_of_always planned).imp_left .option
  | iteration v level => cases breaks; exact (Transformation.eq_ok_of_always planned).imp_left .iteration
  | breakdown v policy =>
    cases breaks
    exact (Transformation.eq_ok_of_optional planned).imp_left breaksDown_of_ofLabel
  | _ => cases breaks

/-- Breakdowns that are carried out one after the other, each on a transition that is there then. -/
inductive Descends [Ids] (policy : IsolationPolicy) : Automaton → List Command → Automaton → Prop
  | done (a : Automaton) : Descends policy a [] a
  | breakdown {a a' : Automaton} {b : Bindings} {notes : List Note} {t : Transition} {c : Command} {w : Workbench}
      {cs : List Command} (made : (Builder.breakdown t policy).run ⟨a,b,notes⟩ = (.ok (some c),w))
      (exchanges : Exchanges a t c (w.automaton.applyAll c.forward))
      (rest : Descends policy (w.automaton.applyAll c.forward) cs a') : Descends policy a (c :: cs) a'

/-- Where the ids suffice at the end, they have sufficed on the way. -/
theorem Descends.agree [Ids] {policy : IsolationPolicy} {a a' : Automaton} {cs : List Command}
    (descends : @Descends Ids.endless policy a cs a') :
    a.counters ≤ a'.counters ∧ (a'.counters.Fits → Descends policy a cs a') := by
  induction descends with
  | done a => exact ⟨Counters.le_refl _,fun _ => .done a⟩
  | @breakdown a a' b notes t c w cs made exchanges rest ih =>
    have agree := Builder.agree_breakdown t policy
    have grows := agree.grows ⟨a,b,notes⟩
    have same := agree.run (s := ⟨a,b,notes⟩)
    rw [made] at grows same
    rw [Automaton.counters_applyAll] at ih
    refine ⟨Counters.le_trans grows ih.1,fun room => .breakdown (same ?_) exchanges (ih.2 room)⟩
    show (((@Builder.breakdown t Ids.endless policy).run ⟨a,b,notes⟩).2.automaton.counters).Fits
    rw [made]
    exact room.mono ih.1

end Breakdown

namespace Session

open Breakdown

variable {s t : Session}

section
attribute [local instance] Ids.endless

theorem Turn.made (turn : Turn s t) (consistent : s.automaton.Consistent) : ∃ v p,
    ofLabel s.automaton v s.settings.isolation = .ok (some p) ∧ Performed p s t := by
  obtain ⟨v,_,found,performed⟩ := turn
  obtain ⟨has,compound⟩ := has_of_find? consistent found
  obtain ⟨notes,made⟩ := ofLabel_eq has s.settings.isolation compound
  -- The notes of a plan have no part in what is performed.
  exact ⟨v,_,made,⟨performed.automaton,performed.done,performed.undone,performed.settings⟩⟩

end

section
variable [Ids]

end

end Session
end StepwiseAutomata
