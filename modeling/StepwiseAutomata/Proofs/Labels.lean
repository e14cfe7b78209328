import StepwiseAutomata.Proofs.Extraction
import StepwiseAutomata.Proofs.Printing
import StepwiseAutomata.Proofs.Replay

namespace StepwiseAutomata

attribute [local instance] Ids.endless

namespace Regex

/-- Every leaf stands for itself in a text. -/
def Literal (r : Regex) : Prop := ∀ c ∈ r.leaves, IsLiteral c

variable {r s : Regex} {rs : List Regex}

theorem literal_epsilon : epsilon.Literal := by
  intro c leaf
  rw [epsilon,leaves_char,List.mem_singleton] at leaf
  rw [leaf]
  exact isLiteral_epsilonChar

theorem literal_quant {q : Quantifier} : (quant q r).Literal ↔ r.Literal := by
  rw [Literal,leaves_quant]
  exact Iff.rfl

theorem literal_seq : (seq rs).Literal ↔ ∀ r ∈ rs, r.Literal :=
  ⟨fun literal r member c leaf => literal c (mem_leaves_seq.mpr ⟨r,member,leaf⟩),fun each c leaf =>
    let ⟨r,member,leaf⟩ := mem_leaves_seq.mp leaf
    each r member c leaf⟩

theorem literal_choice : (choice rs).Literal ↔ ∀ r ∈ rs, r.Literal :=
  ⟨fun literal r member c leaf => literal c (mem_leaves_choice.mpr ⟨r,member,leaf⟩),fun each c leaf =>
    let ⟨r,member,leaf⟩ := mem_leaves_choice.mp leaf
    each r member c leaf⟩

theorem literal_sequenceOf (each : ∀ r ∈ rs, r.Literal) : (sequenceOf rs).Literal :=
  fun c => isLiteral_of_mem_sequenceOf fun r member => each r member c

theorem literal_choiceOf (each : ∀ r ∈ rs, r.Literal) : (choiceOf rs).Literal :=
  fun c => isLiteral_of_mem_choiceOf fun r member => each r member c

theorem Literal.of_mem_children (literal : r.Literal) (member : s ∈ r.children) : s.Literal := by
  cases r with
  | char c => cases member
  | quant q r =>
    rw [List.mem_singleton.mp member]
    exact literal_quant.mp literal
  | seq rs => exact literal_seq.mp literal s member
  | choice rs => exact literal_choice.mp literal s member

theorem Literal.of_mem_factors (literal : r.Literal) (member : s ∈ r.factors) : s.Literal := by
  cases r with
  | seq rs => exact literal_seq.mp literal s member
  | _ => exact List.mem_singleton.mp member ▸ literal

theorem Literal.of_mem_alternatives (literal : r.Literal) (member : s ∈ r.alternatives) : s.Literal := by
  cases r with
  | choice rs => exact literal_choice.mp literal s member
  | _ => exact List.mem_singleton.mp member ▸ literal

theorem literal_rewriteQuant (q : Quantifier) (literal : r.Literal) : (rewriteQuant q r).Literal := by
  unfold rewriteQuant
  split
  · exact literal
  · split
    · exact literal_quant.mpr (literal_quant.mp literal)
    · exact literal_quant.mpr literal

private theorem literal_mergePair? {left right merged : Regex} (pair : mergePair? left right = some merged)
    (literal : left.Literal) : merged.Literal := by
  unfold mergePair? at pair
  split at pair
  · split at pair
    · obtain ⟨m,_,rfl⟩ := Option.map_eq_some_iff.mp pair
      exact literal_quant.mpr (literal_quant.mp literal)
    · cases pair
  · cases pair

theorem literal_rewriteSequence (each : ∀ r ∈ rs, r.Literal) : (rewriteSequence rs).Literal := by
  refine literal_sequenceOf (forall_mergeBackward literal_mergePair?
    (forall_mergeForward literal_mergePair? (by simp) fun r member => ?_))
  obtain ⟨s,listed,factor⟩ := List.mem_flatMap.mp (List.mem_filter.mp member).1
  exact (each s listed).of_mem_factors factor

theorem literal_rewriteChoice (each : ∀ r ∈ rs, r.Literal) : (rewriteChoice rs).Literal := by
  refine literal_choiceOf fun r member => ?_
  obtain ⟨s,listed,alternative⟩ := List.mem_flatMap.mp (List.mem_eraseDups.mp member)
  exact (each s listed).of_mem_alternatives alternative

theorem Literal.optimiseToDepth (literal : r.Literal) (depth : Nat) : (r.optimiseToDepth depth).Literal := by
  induction depth generalizing r with
  | zero => exact literal
  | succ depth ih =>
    have each {rs : List Regex} (all : ∀ r ∈ rs, r.Literal) : ∀ r ∈ rs.map (Regex.optimiseToDepth depth), r.Literal :=
      List.forall_mem_map.mpr fun r member => ih (all r member)
    cases r with
    | char c => exact literal
    | quant q r => exact literal_rewriteQuant q (ih (literal_quant.mp literal))
    | seq rs => exact literal_rewriteSequence (each (literal_seq.mp literal))
    | choice rs => exact literal_rewriteChoice (each (literal_choice.mp literal))

/-- What is written of the expression is read back as the same. -/
structure Writable (r : Regex) : Prop where
  flat : r.Flat
  literal : r.Literal

theorem Writable.parse_toString (writable : r.Writable) : parse (toString r) = .ok (some r) :=
  writable.flat.parse_toString writable.literal

theorem writable_of_parse {text : String} (parsed : parse text = .ok (some r)) : r.Writable :=
  ⟨parse_flat parsed,isLiteral_of_parse parsed⟩

end Regex

namespace Automaton

variable {a : Automaton}

/-- All labels can be read back. -/
def Legible (a : Automaton) : Prop := ∀ t, a.graph.Has t → t.label.Writable

theorem Legible.arc (legible : a.Legible) {arc : Arc} : a.graph.HasArc arc → arc.label.Writable := by
  rintro ⟨t,has,rfl⟩
  exact legible t has

theorem Legible.loops? (legible : a.Legible) (indexed : a.Indexed) (state : Nat) :
    ∀ r ∈ a.loops? state, r.Writable := by
  have flat : a.graph.Flat := fun arc has => (legible.arc has).flat
  intro r member
  refine ⟨(indexed.loops?_sound flat state).1 r member,?_⟩
  unfold Automaton.loops? at member
  split at member
  · cases member
  · cases member
    refine Regex.literal_quant.mpr (Regex.literal_choiceOf fun l listed => ?_)
    exact (legible.arc (indexed.mem_labels.mp listed)).literal

/-- Whatever label comes out of a plan for legible labels can be read back as well. -/
theorem Yields.writable {r : Regex} (yields : a.Yields r) (indexed : a.Indexed) (legible : a.Legible) : r.Writable := by
  cases yields with
  | epsilon => exact ⟨.char _,Regex.literal_epsilon⟩
  | parsed parsed => exact Regex.writable_of_parse parsed
  | old arc => exact legible.arc arc
  | part arc under =>
    obtain ⟨flat,literal⟩ := legible.arc arc
    exact ⟨flat.of_mem_children under,literal.of_mem_children under⟩
  | @bypass p q state k l into leaving =>
    obtain ⟨first,firstLiteral⟩ := legible.arc into
    obtain ⟨last,lastLiteral⟩ := legible.arc leaving
    have loops := legible.loops? indexed state
    refine ⟨(bypassLabel_sound first (fun r member => (loops r member).flat) last).1,?_⟩
    refine Regex.Literal.optimiseToDepth (Regex.literal_sequenceOf fun r member => ?_) 1
    rcases List.mem_append.mp member with front | back
    · rcases List.mem_cons.mp front with rfl | middle
      · exact firstLiteral
      · exact (loops r (Option.mem_toList.mp middle)).literal
    · rw [List.mem_singleton.mp back]
      exact lastLiteral

end Automaton

theorem Command.added_undoEdits (c : Command) : Edit.added c.undoEdits = (Edit.removed c.edits).reverse := by
  rw [undoEdits,Edit.added,List.filterMap_map,List.filterMap_reverse]
  exact congrArg List.reverse (List.filterMap_congr fun x _ => by cases x <;> rfl)

/-- The labels of what a plan adds, and of what it removes, can be read back. -/
theorem Automaton.Proposes.writable {a : Automaton} {p : Plan} (proposes : a.Proposes p) (consistent : a.Consistent)
    (legible : a.Legible) {t : Transition} (named : t ∈ Edit.added p.command.edits ∨ t ∈ Edit.removed p.command.edits) :
    t.label.Writable := by
  obtain ⟨arcs,added,yields⟩ := proposes.added consistent
  have new (member : t ∈ Edit.added p.command.edits) : t.label.Writable := by
    rw [added] at member
    exact (yields _ (Counters.toArc_mem_of_mem_number member)).writable consistent.toIndexed legible
  rcases named with member | removed
  · exact new member
  · exact ((proposes.sound consistent).takes.has_of_removed removed).elim (legible t) new

namespace Editor

/-- All labels of the automaton and of the history can be read back. -/
structure Legible (e : Editor) : Prop where
  automaton : e.automaton.Legible
  listed : ∀ c ∈ e.history.commands, ∀ t, t ∈ Edit.added c.edits ∨ t ∈ Edit.removed c.edits → t.label.Writable

variable {e d : Editor}

/-- Commands of legible labels keep the labels legible. -/
theorem Legible.edits {a b : Automaton} (legible : a.Legible) {es : List Edit} (takes : a.graph.Takes es)
    (added : ∀ t ∈ Edit.added es, t.label.Writable) (graph : b.graph = a.graph.editAll es) : b.Legible := by
  intro t has
  rw [graph] at has
  exact (takes.has_or_added has).elim (legible t) (added t)

theorem Legible.step (legible : e.Legible) (coherent : e.Coherent) (step : Step e d) : d.Legible := by
  obtain ⟨automaton,listed⟩ := legible
  cases step with
  | forward =>
    refine ⟨?_,by rw [commands_stepForward]; exact listed⟩
    cases next : e.history.undone with
    | nil =>
      rw [stepForward_of_nil next]
      exact automaton
    | cons c cs =>
      have redoable := coherent.redoable
      rw [next,List.flatMap_cons,Graph.takes_append] at redoable
      have member : c ∈ e.history.commands := List.mem_append_right _ (next ▸ List.mem_cons_self)
      exact Legible.edits automaton redoable.1 (fun t added => listed c member t (.inl added)) (graph_stepForward next)
  | backward =>
    refine ⟨?_,by rw [commands_stepBackward]; exact listed⟩
    cases last : e.history.done with
    | nil =>
      rw [stepBackward_of_nil last]
      exact automaton
    | cons c cs =>
      have undoable := coherent.undoable
      rw [last,List.flatMap_cons,Graph.takes_append] at undoable
      have member : c ∈ e.history.commands :=
        List.mem_append_left _ (List.mem_reverse.mpr (last ▸ List.mem_cons_self))
      refine Legible.edits automaton undoable.1 (fun t added => ?_) (graph_stepBackward last)
      rw [c.added_undoEdits,List.mem_reverse] at added
      exact listed c member t (.inr added)
  | act act =>
    cases act with
    | report same history => exact ⟨same ▸ automaton,history ▸ listed⟩
    | refuse => exact ⟨automaton,listed⟩
    | @perform _ p proposes executed =>
      obtain ⟨same,done,undone⟩ := execute_eq executed
      have named {t : Transition} := proposes.writable (t := t) coherent.consistent automaton
      constructor
      · refine Legible.edits automaton (proposes.sound coherent.consistent).takes (fun t added => named (.inl added)) ?_
        rw [same]
        exact Automaton.graph_applyAll p.command.edits
      · intro c member
        rw [History.commands,done,undone,List.append_nil,List.mem_reverse,List.mem_cons] at member
        rcases member with rfl | old
        · exact fun t => named
        · exact listed c (List.mem_append_left _ (List.mem_reverse.mpr old))

theorem Legible.steps (legible : e.Legible) (coherent : e.Coherent) (steps : e.Steps d) : d.Legible := by
  induction steps with
  | refl => exact legible
  | tail before step ih => exact ih.step (coherent.moves (coherent.moves_of_steps before)) step

end Editor

namespace Snapshot

theorem writable_of_readLabel {x : Entry} {r : Regex} (read : readLabel x = .ok r) : r.Writable := by
  unfold readLabel at read
  split at read
  · cases read
  · cases read
  · rename_i parsed
    cases read
    exact Regex.writable_of_parse parsed

theorem legible_restore [Ids] {picture : Snapshot} {a : Automaton} (restored : picture.restore = .ok a) : a.Legible := by
  obtain ⟨start,ts,checked,rfl⟩ := restore_ok restored
  intro t has
  rw [changes_eq,Automaton.graph_applyAll] at has
  rcases (takes_edits checked).has_or_added has with old | member
  · exact absurd old (not_has_base start t)
  · rw [added_edits] at member
    obtain ⟨_,_,_,labels⟩ := readEntries_ok (check_ok checked).2.2
    obtain ⟨_,_,read⟩ := labels t member
    exact writable_of_readLabel read

end Snapshot

namespace Session

variable {s : Session}

theorem Begins.legible (begins : Begins s) : s.Legible := by
  obtain ⟨base,settings,given,acts⟩ := begins.acts
  have legible : base.Legible := by
    cases given with
    | initial => exact nofun
    | restored _ restored => exact Snapshot.legible_restore restored
  have start : (Session.ofAutomaton base settings).Legible := ⟨legible,nofun⟩
  exact start.steps (coherent_ofAutomaton given.consistent settings) acts.steps

/-- Whatever calls are made, no label comes up that cannot be read back. -/
theorem legible_afterAll (coherent : s.Coherent) (legible : s.Legible) (calls : List Call) :
    (s.afterAll calls).Legible := by
  induction calls generalizing s with
  | nil => exact legible
  | cons call calls ih =>
    refine ih (coherent.moves (moves_after coherent call)) ?_
    cases call with
    | setClobber clobber => exact ⟨legible.automaton,legible.listed⟩
    | _ => exact legible.steps coherent (steps_after s nofun)

end Session
end StepwiseAutomata
