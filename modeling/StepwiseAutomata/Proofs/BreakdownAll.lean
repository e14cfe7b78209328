import StepwiseAutomata.Proofs.Actions
import StepwiseAutomata.Proofs.Fragments
import StepwiseAutomata.Proofs.Simulation

namespace StepwiseAutomata

attribute [local instance] Ids.endless

namespace Regex

theorem operatorTotal_eq (rs : List Regex) : operatorTotal rs = (rs.map operatorCount).sum := by
  induction rs with
  | nil => rfl
  | cons r rs ih => rw [operatorTotal,ih,List.map_cons,List.sum_cons]

theorem operatorTotal_perm {rs ss : List Regex} (perm : rs.Perm ss) : operatorTotal rs = operatorTotal ss := by
  rw [operatorTotal_eq,operatorTotal_eq]
  exact (perm.map operatorCount).sum_nat

theorem operatorCount_pos_iff {r : Regex} : 0 < r.operatorCount ↔ r.isCompound = true := by
  cases r <;> simp [operatorCount,isCompound]

end Regex

namespace Automaton

variable {a : Automaton}

/-- The number of operators in the labels. -/
def weight (a : Automaton) : Nat := Regex.operatorTotal (a.transitions.map fun t : Transition => t.label)

theorem Indexed.byId_perm (indexed : a.Indexed) : a.byId.values.Perm a.transitions := by
  have filed {x : Nat × Transition} (member : x ∈ a.byId.entries) : a.graph.Has x.2 :=
    indexed.closed.has ((IdMap.mem_entries_iff _ _ _).mp member)
  have ids : ∀ x ∈ a.byId.entries, (Transition.id ∘ Prod.snd) x = Prod.fst x := fun x member =>
    indexed.closed.keyed x.1 x.2 ((IdMap.mem_entries_iff _ _ _).mp member)
  have nodup : a.byId.values.Nodup := by
    refine List.Nodup.of_map Transition.id ?_
    rw [IdMap.values,List.map_map,List.map_congr_left ids]
    exact (List.pairwise_map.mpr a.byId.ascending).imp Nat.ne_of_lt
  refine (List.perm_ext_iff_of_nodup nodup indexed.transitions_nodup).mpr fun t => ?_
  rw [indexed.mem_transitions_iff]
  constructor
  · intro member
    obtain ⟨x,listed,rfl⟩ := List.mem_map.mp member
    exact filed listed
  · exact fun has => List.mem_map.mpr ⟨(t.id,t),(IdMap.mem_entries_iff _ _ _).mpr has,rfl⟩

theorem Indexed.operatorTotal_byId (indexed : a.Indexed) :
    Regex.operatorTotal (a.byId.values.map (·.label)) = a.weight :=
  Regex.operatorTotal_perm (indexed.byId_perm.map _)

theorem Indexed.weight_pos_iff (indexed : a.Indexed) :
    0 < a.weight ↔ ∃ t, a.graph.Has t ∧ t.label.isCompound = true := by
  rw [weight,Regex.operatorTotal_eq,List.map_map,List.sum_pos_iff_exists_pos_nat]
  constructor
  · rintro ⟨n,member,positive⟩
    obtain ⟨t,listed,rfl⟩ := List.mem_map.mp member
    exact ⟨t,indexed.mem_transitions_iff.mp listed,Regex.operatorCount_pos_iff.mp positive⟩
  · rintro ⟨t,has,compound⟩
    exact ⟨_,List.mem_map.mpr ⟨t,indexed.mem_transitions_iff.mpr has,rfl⟩,Regex.operatorCount_pos_iff.mpr compound⟩

end Automaton

namespace Breakdown

variable {a a' : Automaton} {t : Transition}

theorem operatorTotal_unlessPresent (p q : Nat) :
    Regex.operatorTotal ((a.unlessPresent ⟨p,q,.epsilon⟩).map Arc.label) = 0 := by
  unfold Automaton.unlessPresent
  cases a.hasArc ⟨p,q,.epsilon⟩ <;> rfl

/-- All labels of a loop but the body are `ε`, which has no operator. -/
theorem operatorTotal_loop (level : Isolation) (isStar : Bool) (body : Regex) :
    Regex.operatorTotal ((loop a t level isStar body).2.map Arc.label) = body.operatorCount := by
  have epsilon : Regex.epsilon.operatorCount = 0 := rfl
  obtain ⟨atSource,atTarget⟩ := level
  cases atSource <;> cases atTarget <;> cases isStar <;>
    simp [loop,directLoop,isolatedLoop,Regex.operatorTotal_append,operatorTotal_unlessPresent,Regex.operatorTotal,epsilon]

/-- The fragment has all operators of the label but the outermost. -/
theorem operatorTotal_expansion (policy : IsolationPolicy) (compound : t.label.isCompound = true) :
    Regex.operatorTotal ((expansion a t policy).2.map Arc.label) + 1 = t.label.operatorCount := by
  unfold expansion
  cases label : t.label with
  | char c =>
    rw [label] at compound
    cases compound
  | choice rs =>
    rw [List.map_map,Regex.operatorCount]
    show Regex.operatorTotal (rs.map id) + 1 = _
    rw [List.map_id]
  | seq rs =>
    rw [Regex.operatorCount]
    cases rs with
    | nil => rfl
    | cons r rs => rw [map_label_chain (by rw [Ids.length_series]; rfl)]
  | quant q r =>
    cases q with
    | option => simp [Regex.operatorTotal,operatorTotal_unlessPresent,Regex.operatorCount]
    | star => rw [Regex.operatorCount,operatorTotal_loop]
    | plus => rw [Regex.operatorCount,operatorTotal_loop]

/-- The first transition that has an operator is broken down. -/
def BreaksFirst (policy : IsolationPolicy) (a a' : Automaton) : Prop :=
  ∃ t notes, a.transitions.find? (fun t : Transition => t.label.isCompound) = some t ∧
    a' = a.perform (replacing a t (Ids.series a.counters.nextState (expansion a t policy).1)
      (expansion a t policy).2 notes)

section
variable {policy : IsolationPolicy} (good : a.Consistent)
include good

theorem has_of_find? (found : a.transitions.find? (fun t : Transition => t.label.isCompound) = some t) :
    a.graph.Has t ∧ t.label.isCompound = true :=
  ⟨good.mem_transitions_iff.mp (List.mem_of_find?_eq_some found),
    List.find?_some (p := fun t : Transition => t.label.isCompound) found⟩

theorem BreaksFirst.consistent (breaks : BreaksFirst policy a a') : a'.Consistent := by
  obtain ⟨t,notes,found,rfl⟩ := breaks
  exact good.perform (sound good (has_of_find? good found).1 policy notes)

/-- Whatever is broken down, one operator less is left. -/
theorem weight_replacing (has : a.graph.Has t) {n : Nat} {arcs : List Arc} (joins : Joins a t n arcs)
    (operators : Regex.operatorTotal (arcs.map Arc.label) + 1 = t.label.operatorCount) (notes : List Note) :
    (a.perform (replacing a t (Ids.series a.counters.nextState n) arcs notes)).weight + 1 = a.weight := by
  have fits := replacement_fits good has joins
  have after := good.perform (replacing_sound good has joins notes)
  have perm := Rewriting.transitions_perm good fits after.toIndexed (graph_replacing n arcs notes)
  have counted := Regex.operatorTotal_perm (perm.map fun t : Transition => t.label)
  have gone : Regex.operatorTotal ((replacement a t n arcs).removed.map fun t : Transition => t.label) =
      t.label.operatorCount := Nat.add_zero _
  have come : (replacement a t n arcs).arcs = arcs := rfl
  rw [List.map_append,List.map_append,Regex.operatorTotal_append,Regex.operatorTotal_append,gone,come,
    Counters.map_label_number] at counted
  unfold Automaton.weight
  omega

theorem BreaksFirst.weight (breaks : BreaksFirst policy a a') : a'.weight + 1 = a.weight := by
  obtain ⟨t,notes,found,rfl⟩ := breaks
  obtain ⟨has,compound⟩ := has_of_find? good found
  exact weight_replacing good has (joins_expansion policy) (operatorTotal_expansion policy compound) notes

end
end Breakdown

namespace Session

open Breakdown

variable {s : Session}

section
variable [Ids]

theorem completes_made (ready : s.Ready) {t : Transition} (has : s.automaton.graph.Has t) {p : Plan}
    (made : ofLabel s.automaton t s.settings.isolation = .ok (some p)) :
    Completes (breakdownTransition t.id) s fun changed u => changed = true ∧ Performed p s u := by
  rw [breakdownTransition_eq]
  refine completes_get ?_
  rw [show s.automaton.transition? t.id = some t from has]
  refine completes_attempt made ?_
  exact (completes_perform ready p).bind fun _ u performed => completes_pure ⟨rfl,performed⟩

/-- A transition that has an operator is broken down when that is asked for. -/
theorem completes_breakdownTransition (ready : s.Ready) {t : Transition} (has : s.automaton.graph.Has t)
    (compound : t.label.isCompound = true) : Completes (breakdownTransition t.id) s fun changed u =>
      changed = true ∧ ∃ notes, Performed (replacing s.automaton t
        (Ids.series s.automaton.counters.nextState (expansion s.automaton t s.settings.isolation).1)
        (expansion s.automaton t s.settings.isolation).2 notes) s u := by
  obtain ⟨notes,made⟩ := ofLabel_eq has s.settings.isolation compound
  exact (completes_made ready has made).imp fun _ _ ⟨changed,performed⟩ => ⟨changed,notes,performed⟩

end

/-- The first transition that has an operator has been broken down. -/
def Turn (s t : Session) : Prop :=
  ∃ v notes, s.automaton.transitions.find? (fun t : Transition => t.label.isCompound) = some v ∧
    Performed (replacing s.automaton v
      (Ids.series s.automaton.counters.nextState (expansion s.automaton v s.settings.isolation).1)
      (expansion s.automaton v s.settings.isolation).2 notes) s t

theorem Turn.breaks {t : Session} (turn : Turn s t) : BreaksFirst s.settings.isolation s.automaton t.automaton := by
  obtain ⟨v,notes,found,performed⟩ := turn
  exact ⟨v,notes,found,performed.automaton⟩

/-- With a step for every operator and one more, all transitions are broken down, in a command each. -/
theorem completes_breakdownFirst {steps : Nat} (consistent : s.automaton.Consistent) (ready : s.Ready)
    (enough : s.automaton.weight < steps) : Completes (breakdownFirst steps) s fun n t =>
      n = s.automaton.weight ∧ t.automaton.graph.Plain ∧ t.history.position = s.history.position + n ∧
        Relation.ReflTransGen Turn s t := by
  induction steps generalizing s with
  | zero => omega
  | succ steps ih =>
    refine completes_get ?_
    cases found : s.automaton.transitions.find? (fun t : Transition => t.label.isCompound) with
    | none =>
      have plain : s.automaton.graph.Plain := consistent.plain_iff.mpr fun t member =>
        Bool.not_eq_true _ |>.mp (List.find?_eq_none.mp found t member)
      have light : s.automaton.weight = 0 := by
        refine Nat.eq_zero_of_not_pos fun positive => ?_
        obtain ⟨t,has,compound⟩ := consistent.weight_pos_iff.mp positive
        rw [plain t.toArc ⟨t,has,rfl⟩] at compound
        cases compound
      exact completes_pure ⟨light.symm,plain,rfl,.refl⟩
    | some t =>
      obtain ⟨has,compound⟩ := has_of_find? consistent found
      refine (completes_breakdownTransition ready has compound).bind ?_
      rintro _ u ⟨_,notes,performed⟩
      have turn : Turn s u := ⟨t,notes,found,performed⟩
      have lighter := turn.breaks.weight consistent
      have longer : u.history.position = s.history.position + 1 := congrArg List.length performed.done
      refine (ih (turn.breaks.consistent consistent) (.inl performed.undone) (by omega)).bind ?_
      rintro n v ⟨count,plain,position,run⟩
      exact completes_pure ⟨by omega,plain,by omega,.head turn run⟩

/-- Everything can be broken down, with a command for every operator. -/
theorem completes_turns (consistent : s.automaton.Consistent) (ready : s.Ready) :
    Completes breakdownAll s fun n t => n = s.automaton.weight ∧ t.automaton.graph.Plain ∧
      t.history.position = s.history.position + n ∧ Relation.ReflTransGen Turn s t := by
  refine completes_get (completes_breakdownFirst consistent ready ?_)
  rw [consistent.operatorTotal_byId]
  exact Nat.lt_succ_self _

/-- The settings stay, and with them the isolation of all breakdowns of a run. -/
theorem breaksFirst_of_turns {t : Session} (run : Relation.ReflTransGen Turn s t) : t.settings = s.settings ∧
    Relation.ReflTransGen (BreaksFirst s.settings.isolation) s.automaton t.automaton := by
  induction run with
  | refl => exact ⟨rfl,.refl⟩
  | @tail t u _ turn ih =>
    obtain ⟨settings,run⟩ := ih
    have breaks := turn.breaks
    rw [settings] at breaks
    obtain ⟨_,_,_,performed⟩ := turn
    exact ⟨performed.settings.trans settings,run.tail breaks⟩

/-- Everything can be broken down, with a breakdown for every operator. -/
theorem completes_breakdownAll (consistent : s.automaton.Consistent) (ready : s.Ready) :
    Completes breakdownAll s fun n t => n = s.automaton.weight ∧ t.automaton.graph.Plain ∧ t.settings = s.settings ∧
      Relation.ReflTransGen (BreaksFirst s.settings.isolation) s.automaton t.automaton := by
  refine (completes_turns consistent ready).imp ?_
  rintro n t ⟨count,plain,_,run⟩
  exact ⟨count,plain,breaksFirst_of_turns run⟩

end Session
end StepwiseAutomata
