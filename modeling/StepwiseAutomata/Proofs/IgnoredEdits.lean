import StepwiseAutomata.Proofs.Replay

/-!
Edits that an automaton ignores: the start state is not removed, nor is a transition that is not there, and no flag is set
of a state that is not there. But taking an edit back does not ask whether it had been ignored. So an ignored edit that is
taken back does what the reverse says: that is nothing for a flag, it empties the list of the transitions that leave the
start state, and it adds the transition.
-/
namespace StepwiseAutomata

namespace Automaton

variable {a b c : Automaton}

theorem Alike.refl (a : Automaton) : a.Alike a := ⟨rfl,rfl,rfl,fun _ => .refl _,fun _ => .refl _⟩

theorem Alike.symm (alike : a.Alike b) : b.Alike a :=
  ⟨alike.start.symm,alike.states.symm,alike.byId.symm,fun s => (alike.outgoing s).symm,fun s => (alike.ingoing s).symm⟩

theorem Alike.trans (first : a.Alike b) (second : b.Alike c) : a.Alike c :=
  ⟨first.start.trans second.start,first.states.trans second.states,first.byId.trans second.byId,
    fun s => (first.outgoing s).trans (second.outgoing s),fun s => (first.ingoing s).trans (second.ingoing s)⟩

theorem Alike.flag?_eq (alike : a.Alike b) (s : Nat) : a.graph.flag? s = b.graph.flag? s := by
  refine Option.ext fun isFinal => ?_
  have listed (c : Automaton) : c.graph.flag? s = some isFinal ↔ ⟨s,isFinal⟩ ∈ c.states :=
    (mem_states_iff (s := ⟨s,isFinal⟩)).symm
  rw [listed,listed,alike.states]

theorem Alike.graph_eq (alike : a.Alike b) : a.graph = b.graph := by
  have start : a.graph.start = b.graph.start := alike.start
  have flags : a.graph.flag? = b.graph.flag? := funext alike.flag?_eq
  have transitions : a.graph.transition? = b.graph.transition? := by
    show (fun i => a.byId.get? i) = fun i => b.byId.get? i
    rw [alike.byId]
  cases ga : a.graph
  cases gb : b.graph
  rw [ga,gb] at start flags transitions
  cases start
  cases flags
  cases transitions
  rfl

/-- A state that is added has no transitions, whatever left it before. -/
theorem outgoing_addState_eq (s : State) (i : Nat) :
    (a.addState s).outgoing i = if i = s.id then [] else a.outgoing i := by
  simp only [outgoing,addState,IdMap.get?_insert]
  split <;> rfl

theorem outgoing_removeState_eq {id : Nat} (other : id ≠ a.start) (i : Nat) :
    (a.removeState id).outgoing i = if i = id then [] else a.outgoing i := by
  rw [removeState,if_neg other]
  simp only [outgoing,IdMap.get?_erase]
  split <;> rfl

/-- A transition that is added from a state which is not there is not listed there. -/
theorem outgoing_addTransition_of_absent {t : Transition} (absent : ¬a.graph.HasState t.source) (i : Nat) :
    (a.addTransition t).outgoing i = a.outgoing i := by
  have missing : a.vertices.get? t.source = none :=
    Option.map_eq_none_iff.mp (Option.not_isSome_iff_eq_none.mp absent)
  simp only [outgoing,addTransition,IdMap.modify,missing]

theorem removeTransition_of_absent {id : Nat} (absent : a.transition? id = none) : a.removeTransition id = a := by
  rw [removeTransition,absent]

theorem Alike.outgoing_apply (alike : a.Alike b) (c : Change) (i : Nat) :
    ((a.apply c).outgoing i).Perm ((b.apply c).outgoing i) := by
  have graph := alike.graph_eq
  have outgoing := alike.outgoing i
  cases c with
  | addState s =>
    show ((a.addState s).outgoing i).Perm ((b.addState s).outgoing i)
    rw [outgoing_addState_eq,outgoing_addState_eq]
    split
    · exact .refl _
    · exact outgoing
  | removeState id =>
    show ((a.removeState id).outgoing i).Perm ((b.removeState id).outgoing i)
    by_cases start : id = a.start
    · rw [removeState,removeState,if_pos start,if_pos (start.trans alike.start)]
      exact outgoing
    · rw [outgoing_removeState_eq start,outgoing_removeState_eq (alike.start ▸ start)]
      split
      · exact .refl _
      · exact outgoing
  | setFinal id isFinal =>
    show ((a.setFinal id isFinal).outgoing i).Perm ((b.setFinal id isFinal).outgoing i)
    rw [outgoing_setFinal,outgoing_setFinal]
    exact outgoing
  | addTransition t =>
    show ((a.addTransition t).outgoing i).Perm ((b.addTransition t).outgoing i)
    by_cases present : a.graph.HasState t.source
    · rw [outgoing_addTransition present,outgoing_addTransition (graph ▸ present)]
      split
      · exact outgoing.append_right [t]
      · exact outgoing
    · rw [outgoing_addTransition_of_absent present,outgoing_addTransition_of_absent (graph ▸ present)]
      exact outgoing
  | removeTransition id =>
    show ((a.removeTransition id).outgoing i).Perm ((b.removeTransition id).outgoing i)
    have same : a.transition? id = b.transition? id := congrArg (IdMap.get? · id) alike.byId
    cases found : a.transition? id with
    | none =>
      rw [removeTransition_of_absent found,removeTransition_of_absent (same ▸ found)]
      exact outgoing
    | some t =>
      rw [outgoing_removeTransition found,outgoing_removeTransition (same ▸ found)]
      split
      · exact outgoing.filter _
      · exact outgoing

theorem Alike.ingoing_apply (alike : a.Alike b) (c : Change) (i : Nat) :
    ((a.apply c).ingoing i).Perm ((b.apply c).ingoing i) := by
  have ingoing := alike.ingoing i
  cases c with
  | addState s => exact ingoing
  | setFinal id isFinal => exact ingoing
  | removeState id =>
    show ((a.removeState id).ingoing i).Perm ((b.removeState id).ingoing i)
    rw [ingoing_removeState,ingoing_removeState]
    exact ingoing
  | addTransition t =>
    show ((a.addTransition t).ingoing i).Perm ((b.addTransition t).ingoing i)
    rw [ingoing_addTransition,ingoing_addTransition]
    split
    · exact ingoing.append_right [t]
    · exact ingoing
  | removeTransition id =>
    show ((a.removeTransition id).ingoing i).Perm ((b.removeTransition id).ingoing i)
    have same : a.transition? id = b.transition? id := congrArg (IdMap.get? · id) alike.byId
    cases found : a.transition? id with
    | none =>
      rw [removeTransition_of_absent found,removeTransition_of_absent (same ▸ found)]
      exact ingoing
    | some t =>
      rw [ingoing_removeTransition found,ingoing_removeTransition (same ▸ found)]
      split
      · exact ingoing.filter _
      · exact ingoing

/-- Whatever is done to automata that are alike, they stay so, even where their indexes do not agree. -/
theorem Alike.apply (alike : a.Alike b) (c : Change) : (a.apply c).Alike (b.apply c) := by
  refine alike_of_graph ?_ (alike.outgoing_apply c) (alike.ingoing_apply c)
  rw [graph_apply,graph_apply,alike.graph_eq]

theorem Alike.applyAll (alike : a.Alike b) (cs : List Change) : (a.applyAll cs).Alike (b.applyAll cs) := by
  induction cs generalizing a b with
  | nil => exact alike
  | cons c cs ih => exact ih (alike.apply c)

end Automaton

namespace Edit

/-- The automaton does not take any notice of the edit. -/
def ignored (a : Automaton) : Edit → Bool
  | removeState s => s.id == a.start
  | removeTransition t => (a.transition? t.id).isNone
  | setFinal id _ _ => !a.hasState id
  | _ => false

/-- Taking the edit back, though it was ignored, finds nothing to change. -/
def harmless (a : Automaton) : Edit → Bool
  | removeState s => a.state? s.id == some s && (a.outgoing s.id).isEmpty
  | setFinal _ _ _ => true
  | _ => false

variable {a : Automaton} {e : Edit}

theorem apply_of_ignored (ignored : e.ignored a = true) : a.apply e.forward = a := by
  cases e with
  | removeState s => exact if_pos (beq_iff_eq.mp ignored)
  | removeTransition t => exact Automaton.removeTransition_of_absent (Option.isNone_iff_eq_none.mp ignored)
  | setFinal id isFinal wasFinal =>
    have absent : a.vertices.get? id = none := by simpa [Edit.ignored,Automaton.hasState,IdMap.contains] using ignored
    show a.setFinal id isFinal = a
    rw [Automaton.setFinal,IdMap.modify,absent]
  | addState s => cases ignored
  | addTransition t => cases ignored

theorem unapply_of_harmless (ignored : e.ignored a = true) (harmless : e.harmless a = true) :
    a.apply e.backward = a := by
  cases e with
  | removeState s =>
    simp only [Edit.harmless,Bool.and_eq_true,beq_iff_eq,List.isEmpty_iff] at harmless
    obtain ⟨present,unused⟩ := harmless
    obtain ⟨v,found,same⟩ := Option.map_eq_some_iff.mp present
    have vertex : v = { isFinal := s.isFinal } := by
      have isFinal : v.isFinal = s.isFinal := congrArg State.isFinal same
      have outgoing : v.outgoing = [] := by simpa [Automaton.outgoing,found] using unused
      cases v
      cases isFinal
      cases outgoing
      rfl
    have vertices : a.vertices.insert s.id { isFinal := s.isFinal } = a.vertices := by
      refine IdMap.ext fun i => ?_
      rw [IdMap.get?_insert]
      split
      · rename_i here
        rw [here,found,vertex]
      · rfl
    show a.addState s = a
    rw [Automaton.addState,vertices]
  | setFinal id isFinal wasFinal =>
    exact apply_of_ignored (e := .setFinal id wasFinal isFinal) ignored
  | removeTransition t => cases harmless
  | addState s => cases ignored
  | addTransition t => cases ignored

/-- Whenever there is something to change, what the automaton says is different. -/
theorem harmless_of_alike (ignored : e.ignored a = true) (alike : (a.apply e.backward).Alike a) :
    e.harmless a = true := by
  cases e with
  | removeState s =>
    have outgoing : ((a.addState s).outgoing s.id).Perm (a.outgoing s.id) := alike.outgoing s.id
    rw [Automaton.outgoing_addState_eq,if_pos rfl] at outgoing
    have flag : (a.addState s).graph.flag? s.id = a.graph.flag? s.id := alike.flag?_eq s.id
    have recorded : (a.addState s).graph.flag? s.id = some s.isFinal := by
      rw [show (a.addState s).graph = a.graph.apply (.addState s) from
        Automaton.graph_apply (a := a) (.addState s)]
      exact if_pos rfl
    simp only [harmless,Bool.and_eq_true,beq_iff_eq,List.isEmpty_iff]
    exact ⟨Automaton.state?_eq_some_iff.mpr ⟨rfl,flag.symm.trans recorded⟩,List.nil_perm.mp outgoing⟩
  | setFinal id isFinal wasFinal => rfl
  | removeTransition t =>
    have added : (a.addTransition t).transition? t.id = a.transition? t.id := congrArg (IdMap.get? · t.id) alike.byId
    rw [Option.isNone_iff_eq_none.mp ignored,Automaton.transition?,Automaton.addTransition,IdMap.get?_insert,
      if_pos rfl] at added
    cases added
  | addState s => cases ignored
  | addTransition t => cases ignored

end Edit

namespace Automaton

variable {a b : Automaton}

theorem applyAll_append (cs ds : List Change) : a.applyAll (cs ++ ds) = (a.applyAll cs).applyAll ds := List.foldl_append

/-- Each edit can be applied where the edits before it lead, or is ignored there without harm. -/
def tolerates (a : Automaton) : List Edit → Bool
  | [] => true
  | e :: es => (e.applies a || e.ignored a && e.harmless a) && (a.apply e.forward).tolerates es

theorem Indexed.unapply_apply (indexed : a.Indexed) {e : Edit}
    (passes : (e.applies a || e.ignored a && e.harmless a) = true) :
    (a.apply e.forward).Indexed ∧ ((a.apply e.forward).apply e.backward).Alike a := by
  rw [Bool.or_eq_true,Bool.and_eq_true] at passes
  rcases passes with applies | ⟨ignored,harmless⟩
  · have suits := Edit.suits_of_applies indexed applies
    have applied := indexed.suits suits
    obtain ⟨reverse,back⟩ := Graph.suits_reverse indexed.closed suits
    have graph : (a.apply e.forward).graph = a.graph.edit e := graph_apply e.forward
    rw [← graph] at reverse
    rw [← e.forward_reverse]
    refine ⟨applied,(applied.suits reverse).alike indexed ?_⟩
    rw [graph_apply,graph]
    exact back
  · rw [Edit.apply_of_ignored ignored,Edit.unapply_of_harmless ignored harmless]
    exact ⟨indexed,.refl a⟩

theorem Indexed.tolerates (indexed : a.Indexed) {es : List Edit} (tolerates : a.tolerates es = true) :
    (a.applyAll (es.map Edit.forward)).Indexed := by
  induction es generalizing a with
  | nil => exact indexed
  | cons e es ih =>
    rw [Automaton.tolerates,Bool.and_eq_true] at tolerates
    exact ih (indexed.unapply_apply tolerates.1).1 tolerates.2

/-- Taking edits back leads back, but for the order of the lists. -/
theorem Indexed.unapplyAll_applyAll (indexed : a.Indexed) {es : List Edit} (tolerates : a.tolerates es = true) :
    ((a.applyAll (es.map Edit.forward)).applyAll (es.reverse.map Edit.backward)).Alike a := by
  induction es generalizing a with
  | nil => exact .refl a
  | cons e es ih =>
    rw [Automaton.tolerates,Bool.and_eq_true] at tolerates
    obtain ⟨applied,back⟩ := indexed.unapply_apply tolerates.1
    rw [List.reverse_cons,List.map_append,applyAll_append]
    exact ((ih applied tolerates.2).apply e.backward).trans back

end Automaton

namespace Editor

open Automaton

variable {e : Editor} {c : Command} {before after : List Edit} {x : Edit}

/-- A command that can be executed has been applied, and is applied backwards when it is taken back. -/
theorem executes (ready : e.history.undone = [] ∨ e.history.clobber = true) (c : Command) : ∃ d, e.execute c = .ok d ∧
    d.automaton = e.automaton.applyAll c.forward ∧ d.undo.automaton = d.automaton.applyAll c.backward := by
  have some : ∃ d, e.execute c = .ok d := by
    unfold execute
    rcases ready with last | clobber
    · rw [last]
      exact ⟨_,rfl⟩
    · rw [clobber]
      split
      · exact ⟨_,rfl⟩
      · exact ⟨_,rfl⟩
  obtain ⟨d,executed⟩ := some
  obtain ⟨automaton,done,_⟩ := execute_eq executed
  refine ⟨d,executed,automaton,?_⟩
  show (notifyMoved _ _).automaton = _
  rw [(notifyMoved_eq _ _).1,(stepBackward_eq done).1]

/-- An edit that is ignored has no part in what a command does, but it has in what taking the command back does: its
    reverse is applied where it was ignored. Alone, or with others after it, it leads back just when it is harmless. -/
theorem undo_ignored (indexed : e.automaton.Indexed) (ready : e.history.undone = [] ∨ e.history.clobber = true)
    (edits : c.edits = before ++ x :: after) (first : e.automaton.tolerates before = true)
    (ignored : x.ignored (e.automaton.applyAll (before.map Edit.forward)) = true)
    (rest : (e.automaton.applyAll (before.map Edit.forward)).tolerates after = true) :
    ∃ d, e.execute c = .ok d ∧ d.automaton = e.automaton.applyAll ((before ++ after).map Edit.forward) ∧
      d.undo.automaton.Alike (((e.automaton.applyAll (before.map Edit.forward)).apply x.backward).applyAll
        (before.reverse.map Edit.backward)) ∧
      (x.harmless (e.automaton.applyAll (before.map Edit.forward)) = true → d.undo.automaton.Alike e.automaton) ∧
      (before = [] → (d.undo.automaton.Alike e.automaton ↔ x.harmless e.automaton = true)) ∧
      (c.edits = [x] → d.undo.automaton = e.automaton.apply x.backward ∧
        (d.undo.automaton = e.automaton ↔ x.harmless e.automaton = true)) := by
  obtain ⟨d,executed,automaton,undone⟩ := executes ready c
  generalize start : e.automaton = a at *
  generalize middle : a.applyAll (before.map Edit.forward) = b at *
  have forward : d.automaton = b.applyAll (after.map Edit.forward) := by
    rw [automaton,Command.forward,edits,List.map_append,List.map_cons,applyAll_append,middle]
    show (b.apply x.forward).applyAll _ = _
    rw [Edit.apply_of_ignored ignored]
  have backward : d.undo.automaton = (((b.applyAll (after.map Edit.forward)).applyAll
      (after.reverse.map Edit.backward)).apply x.backward).applyAll (before.reverse.map Edit.backward) := by
    rw [undone,forward,Command.backward,edits,List.reverse_append,List.reverse_cons,List.map_append,List.map_append,
      applyAll_append,applyAll_append]
    rfl
  have later := (middle ▸ indexed.tolerates first).unapplyAll_applyAll rest
  have alike : d.undo.automaton.Alike ((b.apply x.backward).applyAll (before.reverse.map Edit.backward)) := by
    rw [backward]
    exact (later.apply x.backward).applyAll _
  have harmless (harmless : x.harmless b = true) : d.undo.automaton.Alike a := by
    rw [Edit.unapply_of_harmless ignored harmless,← middle] at alike
    exact alike.trans (indexed.unapplyAll_applyAll first)
  refine ⟨d,executed,?_,alike,harmless,?_,?_⟩
  · rw [forward,List.map_append,applyAll_append,middle]
  · rintro rfl
    obtain rfl : a = b := middle
    exact ⟨fun back => Edit.harmless_of_alike ignored (alike.symm.trans back),harmless⟩
  · intro alone
    have lengths := congrArg List.length (edits.symm.trans alone)
    rw [List.length_append,List.length_cons,List.length_singleton] at lengths
    obtain rfl : before = [] := List.eq_nil_of_length_eq_zero (by omega)
    obtain rfl : after = [] := List.eq_nil_of_length_eq_zero (by omega)
    obtain rfl : a = b := middle
    refine ⟨backward,fun same => Edit.harmless_of_alike ignored ?_,fun harmless => ?_⟩
    · exact alike.symm.trans (same ▸ .refl _)
    · exact (show _ = a.apply x.backward from backward).trans (Edit.unapply_of_harmless ignored harmless)

/-- The start state is not removed, but once that is taken back the only transition no longer leaves it, while it still
    enters the other state and is known by its id. -/
theorem undo_ignored_start : ∃ e d : Editor, e.automaton.Consistent ∧
    e.automaton.outgoing 0 = [⟨⟨0,1,.char 'a'⟩,0⟩] ∧ e.execute (.edit (.removeState ⟨0,false⟩)) = .ok d ∧
    d.automaton = e.automaton ∧ d.undo.automaton.outgoing 0 = [] ∧
    d.undo.automaton.ingoing 1 = [⟨⟨0,1,.char 'a'⟩,0⟩] ∧
    d.undo.automaton.transition? 0 = some ⟨⟨0,1,.char 'a'⟩,0⟩ ∧ ¬d.undo.automaton.Alike e.automaton := by
  obtain ⟨s,consistent,leaves,last,ignored,enters,known,harmful⟩ : ∃ s : Session, s.automaton.Consistent ∧
      s.automaton.outgoing 0 = [⟨⟨0,1,.char 'a'⟩,0⟩] ∧ s.history.undone = [] ∧
      (Edit.removeState ⟨0,false⟩).ignored s.automaton = true ∧
      (s.automaton.apply (.addState ⟨0,false⟩)).ingoing 1 = [⟨⟨0,1,.char 'a'⟩,0⟩] ∧
      (s.automaton.apply (.addState ⟨0,false⟩)).transition? 0 = some ⟨⟨0,1,.char 'a'⟩,0⟩ ∧
      (Edit.removeState ⟨0,false⟩).harmless s.automaton = false :=
    ⟨_,(Session.Begins.ofRegex (show Session.ofRegex "a" {} = .ok _ from rfl)).coherent.consistent,by decide +kernel,
      by decide +kernel,by decide +kernel,by decide +kernel,by decide +kernel,by decide +kernel⟩
  have edits : (Command.edit (.removeState ⟨0,false⟩)).edits = [] ++ .removeState ⟨0,false⟩ :: [] := rfl
  obtain ⟨d,executed,same,_,_,alike,alone⟩ := undo_ignored consistent.toIndexed (.inl last) edits rfl ignored rfl
  obtain ⟨undone,_⟩ := alone rfl
  refine ⟨s.toEditor,d,consistent,leaves,executed,same,?_,undone ▸ enters,undone ▸ known,fun back => ?_⟩
  · rw [undone]
    exact outgoing_addState_eq ⟨0,false⟩ 0
  · rw [(alike rfl).mp back] at harmful
    cases harmful

end Editor
end StepwiseAutomata
