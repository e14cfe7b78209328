import StepwiseAutomata.Proofs.History

namespace StepwiseAutomata

namespace Edit

/-- What is added is absent and has its ends present, what is removed is present as recorded and not in use, and the
    flag that is recorded is the present one. -/
def applies (a : Automaton) : Edit → Bool
  | addState s => !a.hasState s.id
  | removeState s => a.state? s.id == some s && s.id != a.start && (a.outgoing s.id).isEmpty && (a.ingoing s.id).isEmpty
  | addTransition t => (a.transition? t.id).isNone && a.hasState t.source && a.hasState t.target
  | removeTransition t => a.transition? t.id == some t
  | setFinal id _ wasFinal => a.isFinal id == wasFinal

/-- The flag to be set is that of a state which is not there. -/
def Idle (g : Graph) : Edit → Prop
  | setFinal id _ _ => g.flag? id = none
  | _ => False

/-- The edit fits, or does nothing. -/
def Suits (g : Graph) (e : Edit) : Prop := e.Fits g ∨ e.Idle g

theorem Idle.edit {g : Graph} {e : Edit} (idle : e.Idle g) : g.edit e = g := by
  cases e with
  | setFinal id isFinal wasFinal =>
    have none : g.flag? id = none := idle
    simp only [Graph.edit,forward,Graph.apply]
    congr 1
    funext i
    split
    · rename_i same; rw [same,none]; rfl
    · rfl
  | _ => exact idle.elim

theorem Idle.reverse {g : Graph} {e : Edit} (idle : e.Idle g) : e.reverse.Idle g := by
  cases e with
  | setFinal => exact idle
  | _ => exact idle.elim

section
variable {a : Automaton} (indexed : a.Indexed) {e : Edit}
include indexed

theorem suits_of_applies (applies : e.applies a = true) : e.Suits a.graph := by
  cases e with
  | addState s =>
    have absent : ¬a.graph.HasState s.id := by
      rw [← Automaton.hasState_iff]
      simpa [Edit.applies] using applies
    exact .inl (Option.not_isSome_iff_eq_none.mp absent)
  | removeState s =>
    simp only [Edit.applies,Bool.and_eq_true,beq_iff_eq,bne_iff_ne,List.isEmpty_iff] at applies
    obtain ⟨⟨⟨present,other⟩,outgoing⟩,ingoing⟩ := applies
    refine .inl ⟨(Automaton.state?_eq_some_iff.mp present).2,other,fun t has => ⟨fun source => ?_,fun target => ?_⟩⟩
    · have member := (indexed.outgoing_iff s.id t).mpr ⟨has,source⟩
      rw [outgoing] at member
      cases member
    · have member := (indexed.ingoing_iff s.id t).mpr ⟨has,target⟩
      rw [ingoing] at member
      cases member
  | addTransition t =>
    simp only [Edit.applies,Bool.and_eq_true,Option.isNone_iff_eq_none,Automaton.hasState_iff] at applies
    exact .inl ⟨applies.1.1,applies.1.2,applies.2⟩
  | removeTransition t => exact .inl (beq_iff_eq.mp applies)
  | setFinal id isFinal wasFinal =>
    have recorded : a.isFinal id = wasFinal := beq_iff_eq.mp applies
    cases flag : a.graph.flag? id with
    | none => exact .inr flag
    | some b =>
      refine .inl (flag.trans (congrArg some (recorded ▸ ?_)))
      rw [Automaton.isFinal,show (a.vertices.get? id).map Vertex.isFinal = some b from flag]
      rfl

theorem applies_of_fits (fits : e.Fits a.graph) : e.applies a = true := by
  cases e with
  | addState s =>
    have absent : a.graph.flag? s.id = none := fits
    have missing : ¬a.hasState s.id = true := by
      rw [Automaton.hasState_iff,Graph.HasState,absent]
      exact Bool.false_ne_true
    simpa [Edit.applies] using missing
  | removeState s =>
    obtain ⟨flag,other,unused⟩ := fits
    simp only [Edit.applies,Bool.and_eq_true,beq_iff_eq,bne_iff_ne,List.isEmpty_iff]
    refine ⟨⟨⟨Automaton.state?_eq_some_iff.mpr ⟨rfl,flag⟩,other⟩,?_⟩,?_⟩
    · refine List.eq_nil_iff_forall_not_mem.mpr fun t member => ?_
      obtain ⟨has,source⟩ := (indexed.outgoing_iff s.id t).mp member
      exact (unused t has).1 source
    · refine List.eq_nil_iff_forall_not_mem.mpr fun t member => ?_
      obtain ⟨has,target⟩ := (indexed.ingoing_iff s.id t).mp member
      exact (unused t has).2 target
  | addTransition t =>
    obtain ⟨absent,source,target⟩ := fits
    simp only [Edit.applies,Bool.and_eq_true,Option.isNone_iff_eq_none,Automaton.hasState_iff]
    exact ⟨⟨absent,source⟩,target⟩
  | removeTransition t => exact beq_iff_eq.mpr fits
  | setFinal id isFinal wasFinal =>
    have flag : (a.vertices.get? id).map Vertex.isFinal = some wasFinal := fits
    refine beq_iff_eq.mpr ?_
    rw [Automaton.isFinal,flag]
    rfl

end
end Edit

namespace Graph

variable {g : Graph}

theorem Closed.suits (closed : g.Closed) {e : Edit} (suits : e.Suits g) : (g.edit e).Closed := by
  rcases suits with fits | idle
  · exact closed.edit fits
  · rw [idle.edit]
    exact closed

theorem suits_reverse (closed : g.Closed) {e : Edit} (suits : e.Suits g) :
    e.reverse.Suits (g.edit e) ∧ (g.edit e).edit e.reverse = g := by
  rcases suits with fits | idle
  · obtain ⟨reverse,back⟩ := fits_reverse closed fits
    exact ⟨.inl reverse,back⟩
  · rw [idle.edit,idle.reverse.edit]
    exact ⟨.inr idle.reverse,rfl⟩

/-- Each edit fits or does nothing where the edits before it lead. -/
def Admits (g : Graph) : List Edit → Prop
  | [] => True
  | e :: es => e.Suits g ∧ (g.edit e).Admits es

theorem admits_append {xs ys : List Edit} : g.Admits (xs ++ ys) ↔ g.Admits xs ∧ (g.editAll xs).Admits ys := by
  induction xs generalizing g with
  | nil => simp [Admits]
  | cons x xs ih => simp [Admits,ih,and_assoc]

theorem Closed.admits (closed : g.Closed) {es : List Edit} (admits : g.Admits es) : (g.editAll es).Closed := by
  induction es generalizing g with
  | nil => exact closed
  | cons e es ih => exact ih (closed.suits admits.1) admits.2

/-- The reverses lead back, from the last edit to the first. -/
theorem admits_reverse (closed : g.Closed) {es : List Edit} (admits : g.Admits es) :
    (g.editAll es).Admits (es.reverse.map Edit.reverse) ∧
      (g.editAll es).editAll (es.reverse.map Edit.reverse) = g := by
  induction es generalizing g with
  | nil => exact ⟨trivial,rfl⟩
  | cons e es ih =>
    obtain ⟨rest,restBack⟩ := ih (closed.suits admits.1) admits.2
    obtain ⟨suits,back⟩ := suits_reverse closed admits.1
    rw [editAll_cons,List.reverse_cons,List.map_append,admits_append,editAll_append,restBack]
    exact ⟨⟨rest,suits,trivial⟩,back⟩

end Graph

namespace Automaton

variable {a b : Automaton}

theorem Indexed.suits (indexed : a.Indexed) {e : Edit} (suits : e.Suits a.graph) : (a.apply e.forward).Indexed := by
  rcases suits with fits | idle
  · exact indexed.edit fits
  · cases e with
    | setFinal id isFinal wasFinal =>
      have none : a.vertices.get? id = none := Option.map_eq_none_iff.mp idle
      have same : a.apply (Edit.setFinal id isFinal wasFinal).forward = a := by
        show ({ a with vertices := a.vertices.modify id _ } : Automaton) = a
        rw [IdMap.modify,none]
      rw [same]
      exact indexed
    | _ => exact idle.elim

theorem Indexed.admits (indexed : a.Indexed) {es : List Edit} (admits : a.graph.Admits es) :
    (a.applyAll (es.map Edit.forward)).Indexed := by
  induction es generalizing a with
  | nil => exact indexed
  | cons e es ih =>
    have same : (a.apply e.forward).graph = a.graph.edit e := graph_apply e.forward
    exact ih (indexed.suits admits.1) (same ▸ admits.2)

/-- The same states with the same flags, the same transitions, and the same entries in the indexes, up to the order in
    which the transitions of a state are listed. -/
structure Alike (a b : Automaton) : Prop where
  start : a.start = b.start
  states : a.states = b.states
  byId : a.byId = b.byId
  outgoing : ∀ s, (a.outgoing s).Perm (b.outgoing s)
  ingoing : ∀ s, (a.ingoing s).Perm (b.ingoing s)

theorem states_eq_of_graph (same : a.graph = b.graph) : a.states = b.states := by
  have flags : a.vertices.map (fun _ v => v.isFinal) = b.vertices.map fun _ v => v.isFinal := by
    refine IdMap.ext fun s => ?_
    rw [IdMap.get?_map,IdMap.get?_map]
    exact congrFun (congrArg Graph.flag? same) s
  have listed (c : Automaton) :
      c.states = (c.vertices.map fun _ v => v.isFinal).entries.map fun (id,isFinal) => ⟨id,isFinal⟩ := by
    rw [IdMap.map,List.map_map]
    rfl
  rw [listed,listed,flags]

/-- Automata with the same graph are alike when their lists are, up to the order. -/
theorem alike_of_graph (same : a.graph = b.graph) (outgoing : ∀ s, (a.outgoing s).Perm (b.outgoing s))
    (ingoing : ∀ s, (a.ingoing s).Perm (b.ingoing s)) : a.Alike b where
  start := congrArg Graph.start same
  states := states_eq_of_graph same
  byId := IdMap.ext fun id => congrFun (congrArg Graph.transition? same) id
  outgoing
  ingoing

/-- Whatever order their lists have, automata with the same graph are alike. -/
theorem Indexed.alike (first : a.Indexed) (second : b.Indexed) (same : a.graph = b.graph) : a.Alike b := by
  refine alike_of_graph same (fun s => ?_) fun s => ?_
  · refine (List.perm_ext_iff_of_nodup (first.outgoing_nodup s) (second.outgoing_nodup s)).mpr fun t => ?_
    rw [first.outgoing_iff,second.outgoing_iff,same]
  · refine (List.perm_ext_iff_of_nodup (first.ingoing_nodup s) (second.ingoing_nodup s)).mpr fun t => ?_
    rw [first.ingoing_iff,second.ingoing_iff,same]

end Automaton

namespace Command

mutual
/-- Each part of the command can be applied where the parts before it lead. -/
def applies (a : Automaton) : Command → Bool
  | edit e => e.applies a
  | group _ parts => allApply a parts
def allApply (a : Automaton) : List Command → Bool
  | [] => true
  | c :: cs => applies a c && allApply (a.applyAll c.forward) cs
end

mutual
theorem admits_of_applies {a : Automaton} (indexed : a.Indexed) : ∀ c : Command, c.applies a = true →
    a.graph.Admits c.edits
  | edit e,holds => by
    rw [applies] at holds
    rw [edits]
    exact ⟨Edit.suits_of_applies indexed holds,trivial⟩
  | group _ parts,holds => by
    rw [applies] at holds
    rw [edits]
    exact admits_of_allApply indexed parts holds
theorem admits_of_allApply {a : Automaton} (indexed : a.Indexed) : ∀ cs : List Command, allApply a cs = true →
    a.graph.Admits (editsAll cs)
  | [],_ => by
    rw [editsAll]
    trivial
  | c :: cs,holds => by
    rw [allApply,Bool.and_eq_true] at holds
    have first := admits_of_applies indexed c holds.1
    have rest := admits_of_allApply (indexed.admits first) cs holds.2
    rw [editsAll,Graph.admits_append,← Automaton.graph_applyAll]
    exact ⟨first,rest⟩
end

mutual
theorem applies_of_takes {a : Automaton} (indexed : a.Indexed) : ∀ c : Command, a.graph.Takes c.edits →
    c.applies a = true
  | edit e,takes => by
    rw [edits] at takes
    rw [applies]
    exact Edit.applies_of_fits indexed takes.1
  | group _ parts,takes => by
    rw [edits] at takes
    rw [applies]
    exact allApply_of_takes indexed parts takes
theorem allApply_of_takes {a : Automaton} (indexed : a.Indexed) : ∀ cs : List Command, a.graph.Takes (editsAll cs) →
    allApply a cs = true
  | [],_ => by rw [allApply]
  | c :: cs,takes => by
    rw [editsAll,Graph.takes_append,← Automaton.graph_applyAll] at takes
    rw [allApply,Bool.and_eq_true]
    exact ⟨applies_of_takes indexed c takes.1,allApply_of_takes (indexed.editAll takes.1) cs takes.2⟩
end

end Command
end StepwiseAutomata
