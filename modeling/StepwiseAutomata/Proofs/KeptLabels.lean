import StepwiseAutomata.Proofs.Labels

/-!
Where labels come from. Whether the lists of an automaton agree or not, a change puts no transition into them but the
one that it adds, and a plan names no label but `ε`, labels of the automaton, parts of them and ways around a state.
So labels that are flat trees stay flat trees, in the automaton and in the history.
-/
namespace StepwiseAutomata

namespace Automaton

variable {a : Automaton} {p : Plan} {t : Transition}

/-- The transition is kept in one of the three places for transitions. -/
def Bears (a : Automaton) (t : Transition) : Prop :=
  (∃ s, t ∈ a.outgoing s) ∨ (∃ s, t ∈ a.ingoing s) ∨ ∃ i, a.transition? i = some t

theorem Indexed.bears_iff (indexed : a.Indexed) : a.Bears t ↔ a.graph.Has t := by
  constructor
  · rintro (⟨s,leaving⟩ | ⟨s,entering⟩ | ⟨i,found⟩)
    · exact ((indexed.outgoing_iff s t).mp leaving).1
    · exact ((indexed.ingoing_iff s t).mp entering).1
    · exact indexed.closed.has found
  · exact fun has => .inl ⟨t.source,(indexed.outgoing_iff t.source t).mpr ⟨has,rfl⟩⟩

theorem bears_of_mem_transitions (member : t ∈ a.transitions) : a.Bears t := by
  rw [transitions_eq] at member
  obtain ⟨s,_,leaving⟩ := List.mem_flatMap.mp member
  exact .inl ⟨s,leaving⟩

theorem mem_outgoing_apply {c : Change} {s : Nat} (member : t ∈ (a.apply c).outgoing s) :
    t ∈ a.outgoing s ∨ c = .addTransition t := by
  cases c with
  | addState r =>
    simp only [apply,addState,outgoing,IdMap.get?_insert] at member
    split at member
    · cases member
    · exact .inl member
  | removeState id =>
    simp only [apply,removeState] at member
    split at member
    · exact .inl member
    · simp only [outgoing,IdMap.get?_erase] at member
      split at member
      · cases member
      · exact .inl member
  | addTransition u =>
    simp only [apply,addTransition,outgoing,IdMap.get?_modify] at member
    split at member
    · rename_i same
      cases found : a.vertices.get? u.source with
      | none => simp [found] at member
      | some v =>
        rw [found] at member
        rcases List.mem_append.mp member with old | new
        · refine .inl ?_
          rw [outgoing,same,found]
          exact old
        · exact .inr (congrArg _ (List.mem_singleton.mp new).symm)
    · exact .inl member
  | removeTransition id =>
    cases found : a.transition? id with
    | none =>
      simp only [apply,removeTransition,found] at member
      exact .inl member
    | some u =>
      rw [apply,outgoing_removeTransition found] at member
      split at member
      · exact .inl (List.mem_filter.mp member).1
      · exact .inl member
  | setFinal id isFinal =>
    rw [apply,outgoing_setFinal] at member
    exact .inl member

theorem mem_ingoing_apply {c : Change} {s : Nat} (member : t ∈ (a.apply c).ingoing s) :
    t ∈ a.ingoing s ∨ c = .addTransition t := by
  cases c with
  | addState r => exact .inl member
  | removeState id =>
    rw [apply,ingoing_removeState] at member
    exact .inl member
  | addTransition u =>
    rw [apply,ingoing_addTransition] at member
    split at member
    · rcases List.mem_append.mp member with old | new
      · exact .inl old
      · exact .inr (congrArg _ (List.mem_singleton.mp new).symm)
    · exact .inl member
  | removeTransition id =>
    cases found : a.transition? id with
    | none =>
      simp only [apply,removeTransition,found] at member
      exact .inl member
    | some u =>
      rw [apply,ingoing_removeTransition found] at member
      split at member
      · exact .inl (List.mem_filter.mp member).1
      · exact .inl member
  | setFinal id isFinal => exact .inl member

theorem transition?_apply {c : Change} {i : Nat} (found : (a.apply c).transition? i = some t) :
    a.transition? i = some t ∨ c = .addTransition t := by
  have known : (a.graph.apply c).transition? i = some t := by
    rw [← graph_apply]
    exact found
  cases c with
  | addState r => exact .inl known
  | removeState id =>
    simp only [Graph.apply] at known
    split at known
    · exact .inl known
    · exact .inl known
  | addTransition u =>
    simp only [Graph.apply] at known
    split at known
    · exact .inr (congrArg _ (Option.some.inj known))
    · exact .inl known
  | removeTransition id =>
    simp only [Graph.apply] at known
    split at known
    · cases known
    · exact .inl known
  | setFinal id isFinal => exact .inl known

/-- No change brings in a transition but the one that it adds. -/
theorem bears_apply {c : Change} (bears : (a.apply c).Bears t) : a.Bears t ∨ c = .addTransition t := by
  rcases bears with ⟨s,leaving⟩ | ⟨s,entering⟩ | ⟨i,found⟩
  · exact (mem_outgoing_apply leaving).imp_left fun old => .inl ⟨s,old⟩
  · exact (mem_ingoing_apply entering).imp_left fun old => .inr (.inl ⟨s,old⟩)
  · exact (transition?_apply found).imp_left fun old => .inr (.inr ⟨i,old⟩)

theorem bears_applyAll {es : List Edit} (bears : (a.applyAll (es.map Edit.forward)).Bears t) :
    a.Bears t ∨ t ∈ Edit.added es := by
  induction es generalizing a with
  | nil => exact .inl bears
  | cons e es ih =>
    rw [Edit.added_cons,List.mem_append]
    rcases ih (a := a.apply e.forward) bears with before | later
    · rcases bears_apply before with old | new
      · exact .inl old
      · refine .inr (.inl ?_)
        cases e with
        | addTransition u =>
          cases new
          exact List.mem_singleton_self _
        | _ => cases new
    · exact .inr (.inr later)

/-- Every label of the automaton is a flat tree. -/
def FlatLabels (a : Automaton) : Prop := ∀ t, a.Bears t → t.label.Flat

theorem bears_of_mem_detaching {s : State} (member : t ∈ (a.detaching s).removed) : a.Bears t := by
  rcases List.mem_append.mp member with entering | leaving
  · exact .inr (.inl ⟨s.id,entering⟩)
  · exact .inl ⟨s.id,(List.mem_filter.mp leaving).1⟩

/-- Parallel transitions are joined into a flat choice. -/
theorem FlatLabels.choiceOf (flat : a.FlatLabels) (state : Nat) (chosen : Transition → Bool) :
    (Regex.choiceOf (((a.outgoing state).filter chosen).map (·.label))).Flat := by
  refine Regex.flat_choiceOf fun l listed => ?_
  obtain ⟨t,member,rfl⟩ := List.mem_map.mp listed
  exact flat t (.inl ⟨state,(List.mem_filter.mp member).1⟩)

/-- The iteration of the loops at a state is flat. -/
theorem FlatLabels.loops? (flat : a.FlatLabels) (state : Nat) : ∀ r ∈ a.loops? state, r.Flat := by
  intro r member
  unfold Automaton.loops? at member
  split at member
  · cases member
  · cases member
    exact .quant .star (flat.choiceOf state _)

/-- What is read off the automaton is flat. -/
theorem FlatLabels.extract (flat : a.FlatLabels) {r : Regex} (extracted : a.extract = .ok (some r)) : r.Flat := by
  have loops := flat.loops? a.start
  unfold Automaton.extract at extracted
  split at extracted
  · cases extracted
  · split at extracted
    · cases extracted
    · rename_i last _
      have body := flat.choiceOf a.start (·.target == last.id)
      split at extracted
      · cases extracted
        cases looped : a.loops? a.start with
        | none => exact .char _
        | some l => exact loops l looped
      · split at extracted
        · cases extracted
        · split at extracted
          · cases extracted
          · cases extracted
            split
            · rename_i l looped
              exact Regex.flat_sequenceOf
                (List.forall_mem_cons.mpr ⟨loops l looped,List.forall_mem_singleton.mpr body⟩)
            · exact body
    · cases extracted

end Automaton

/-- The command adds or removes the transition. -/
def Command.Names (c : Command) (t : Transition) : Prop := t ∈ Edit.added c.edits ∨ t ∈ Edit.removed c.edits

/-- Every label of the command is a flat tree. -/
def Command.FlatLabels (c : Command) : Prop := ∀ t, c.Names t → t.label.Flat

namespace Automaton

variable [Ids] {a : Automaton} {p : Plan} {t : Transition}

/-- What is added comes from arcs with flat labels, and what is removed was there. -/
theorem FlatLabels.command (flat : a.FlatLabels) {c : Command} {arcs : List Arc} {ts : List Transition}
    (added : Edit.added c.edits = a.counters.number arcs) (removed : Edit.removed c.edits = ts)
    (new : ∀ arc ∈ arcs, arc.label.Flat) (old : ∀ t ∈ ts, a.Bears t) : c.FlatLabels := by
  rintro t (member | member)
  · rw [added] at member
    exact new _ (Counters.toArc_mem_of_mem_number member)
  · rw [removed] at member
    exact flat t (old t member)

theorem FlatLabels.rewriting (flat : a.FlatLabels) {r : Rewriting} {title : String} {notes : List Note}
    (new : ∀ arc ∈ r.arcs, arc.label.Flat) (old : ∀ t ∈ r.removed, a.Bears t) :
    (r.plan a title notes).command.FlatLabels := by
  have added : Edit.added (r.plan a title notes).command.edits = a.counters.number r.arcs := by
    rw [Rewriting.edits_plan,Rewriting.added_edits]
  have removed : Edit.removed (r.plan a title notes).command.edits = r.removed := by
    rw [Rewriting.edits_plan,Rewriting.removed_edits]
  exact flat.command added removed new old

theorem FlatLabels.breakdown (flat : a.FlatLabels) (breaks : Breakdown.BreaksDown a t p) : p.command.FlatLabels := by
  obtain ⟨has,cases⟩ := breaks.cases
  have label : t.label.Flat := flat t (.inr (.inr ⟨t.id,has⟩))
  have old : ∀ u ∈ [t], a.Bears u := fun u member => List.mem_singleton.mp member ▸ .inr (.inr ⟨t.id,has⟩)
  rcases cases with ⟨_,policy,notes,rfl⟩ | ⟨level,isStar,body,iteration,notes,rfl⟩
  · rw [Breakdown.replacing_eq]
    refine flat.rewriting (fun arc member => ?_) old
    rcases Breakdown.label_of_mem_expansion member with same | under
    · exact same ▸ .char _
    · exact label.of_mem_children under
  · rw [Breakdown.replacing_eq]
    refine flat.rewriting (fun arc member => ?_) old
    rcases Breakdown.label_of_mem_loop member with same | same
    · exact same ▸ .char _
    · rw [iteration] at label
      rw [same]
      exact label.of_mem_children (List.mem_singleton_self body)

theorem FlatLabels.merge (flat : a.FlatLabels) (merged : StateSet) (state : Nat) (title : String) (notes : List Note) :
    ((a.merging merged state).plan a title notes).command.FlatLabels := by
  have touched {t : Transition} (member : t ∈ a.mergeTouched (merged.erase state)) : a.Bears t :=
    bears_of_mem_transitions (List.mem_filter.mp member).1
  refine flat.rewriting (fun arc member => ?_) fun t member => ?_
  · have listed := List.mem_mergeSort.mp (mem_eraseReps.mp (List.mem_filter.mp member).1)
    obtain ⟨t,there,rfl⟩ := List.mem_map.mp (List.mem_filter.mp listed).1
    exact flat t (touched there)
  · rcases List.mem_append.mp member with entering | leaving
    · exact touched (List.mem_filter.mp entering).1
    · exact touched (List.mem_filter.mp leaving).1

theorem FlatLabels.slide (flat : a.FlatLabels) (state : Nat) (title : String) (notes : List Note) :
    ((a.sliding state).plan a title notes).command.FlatLabels := by
  refine flat.rewriting (fun arc member => ?_) fun t member => .inl ⟨state,(List.mem_filter.mp member).1⟩
  obtain ⟨t,copied,rfl⟩ := List.mem_map.mp (List.mem_filter.mp (List.mem_eraseDups.mp member)).1
  obtain ⟨s,_,leaving⟩ := List.mem_flatMap.mp (List.mem_filter.mp copied).1
  exact flat t (.inl ⟨s,leaving⟩)

theorem FlatLabels.clear (flat : a.FlatLabels) {state : Nat} (made : a.removeUnreachable state = .ok p) :
    p.command.FlatLabels := by
  unfold removeUnreachable at made
  split at made
  · cases made
  · split at made
    · cases made
      rw [detachEdits_eq]
      exact @FlatLabels.rewriting _ _ flat _ _ [] nofun fun t => bears_of_mem_detaching
    · cases made

theorem FlatLabels.resolve (flat : a.FlatLabels) {b : Bindings} {state : Nat} {symbol : Regex}
    (ambiguous : ambiguousLabel? (a.outgoing state) = some symbol) (title : String) (notes : List Note) :
    ((a.resolving b state symbol).plan a title notes).command.FlatLabels := by
  obtain ⟨t,leaving,rfl⟩ := (two_of_ambiguousLabel? ambiguous).2
  have label : t.label.Flat := flat t (.inl ⟨state,leaving⟩)
  refine flat.rewriting (fun arc member => ?_) fun u member => ?_
  · cases found : b.find? a (b.resolve (a.targets state t.label)) with
    | some d =>
      rw [resolving_some found] at member
      rw [List.mem_singleton.mp member]
      exact label
    | none =>
      rw [resolving_none found] at member
      rcases List.mem_append.mp member with copy | last
      · obtain ⟨s,_,copied⟩ := List.mem_flatMap.mp (List.mem_eraseDups.mp copy)
        obtain ⟨u,leaving,rfl⟩ := List.mem_map.mp copied
        exact flat u (.inl ⟨s,leaving⟩)
      · rw [List.mem_singleton.mp last]
        exact label
  · rw [removed_resolving] at member
    exact .inl ⟨state,(List.mem_filter.mp member).1⟩

theorem FlatLabels.isolate (flat : a.FlatLabels) (title : String) :
    (Plan.ofEdits a title a.isolationEdits []).command.FlatLabels := by
  have edits : (Plan.ofEdits a title a.isolationEdits []).command.edits = a.isolationEdits :=
    Command.edits_ofEdits title _
  have kept : Edit.removed (Plan.ofEdits a title a.isolationEdits []).command.edits = [] := by
    rw [edits,removed_isolationEdits]
  refine flat.command (by rw [edits,added_isolationEdits]) kept (fun arc member => ?_) nofun
  obtain ⟨s,_,rfl⟩ := List.mem_map.mp member
  exact .char _

theorem FlatLabels.eliminate (flat : a.FlatLabels) (s : State) (title : String) :
    (Plan.ofEdits a title (a.eliminationEdits s) []).command.FlatLabels := by
  have edits : (Plan.ofEdits a title (a.eliminationEdits s) []).command.edits = a.eliminationEdits s :=
    Command.edits_ofEdits title _
  refine flat.command (by rw [edits,added_eliminationEdits]) (by rw [edits,removed_eliminationEdits])
    (fun arc member => ?_) fun t => bears_of_mem_detaching
  obtain ⟨t,entering,around⟩ := List.mem_flatMap.mp (List.mem_filter.mp (List.mem_eraseDups.mp member)).1
  obtain ⟨u,leaving,rfl⟩ := List.mem_map.mp around
  have first : t.label.Flat := flat t (.inr (.inl ⟨s.id,(List.mem_filter.mp entering).1⟩))
  have last : u.label.Flat := flat u (.inl ⟨s.id,(List.mem_filter.mp leaving).1⟩)
  exact (bypassLabel_sound first (flat.loops? s.id) last).1

/-- Whatever plan sessions make for flat labels, its labels are flat. -/
theorem Proposes.flatLabels (proposes : a.Proposes p) (flat : a.FlatLabels) : p.command.FlatLabels := by
  cases proposes with
  | create parsed =>
    rw [creation_eq]
    refine flat.rewriting (fun arc member => ?_) nofun
    rw [List.mem_singleton.mp member]
    exact Regex.parse_flat parsed
  | breakdown found made => exact flat.breakdown (Breakdown.breaksDown_of_ofLabel made)
  | merge made =>
    obtain ⟨c,_,_,_,title,notes,rfl⟩ := mergeEquivalent_cases made
    exact flat.merge _ _ title notes
  | slide made =>
    obtain ⟨_,title,notes,rfl⟩ := removeEpsilon_cases made
    exact flat.slide _ title notes
  | clear made => exact flat.clear made
  | @resolve b b' state p made =>
    obtain ⟨_,symbol,ambiguous,same⟩ := resolveState_cases made
    obtain ⟨title,notes,plan⟩ := a.resolveSymbol_eq b state symbol
    rw [show p = _ from (congrArg Prod.fst same).trans plan]
    exact flat.resolve ambiguous title notes
  | isolate made =>
    obtain ⟨title,rfl⟩ := isolateFinal_cases made
    exact flat.isolate title
  | eliminate made =>
    obtain ⟨_,_,title,rfl⟩ := eliminate_cases made
    exact flat.eliminate _ title

end Automaton

namespace Editor

/-- Every label of the automaton and of the history is a flat tree. -/
structure FlatLabels (e : Editor) : Prop where
  automaton : e.automaton.FlatLabels
  listed : ∀ c ∈ e.history.commands, c.FlatLabels

variable {e d : Editor}

theorem FlatLabels.forward {a : Automaton} {c : Command} (flat : a.FlatLabels) (command : c.FlatLabels) :
    (a.applyAll c.forward).FlatLabels := by
  intro t bears
  exact (Automaton.bears_applyAll bears).elim (flat t) fun added => command t (.inl added)

theorem FlatLabels.backward {a : Automaton} {c : Command} (flat : a.FlatLabels) (command : c.FlatLabels) :
    (a.applyAll c.backward).FlatLabels := by
  intro t bears
  rw [c.backward_eq] at bears
  refine (Automaton.bears_applyAll bears).elim (flat t) fun added => command t (.inr ?_)
  rwa [c.added_undoEdits,List.mem_reverse] at added

/-- A command that is executed comes last in the history. -/
theorem FlatLabels.execute {c : Command} (flat : e.FlatLabels) (command : c.FlatLabels)
    (executed : e.execute c = .ok d) : d.FlatLabels := by
  obtain ⟨automaton,done,undone⟩ := execute_eq executed
  constructor
  · rw [automaton]
    exact forward flat.automaton command
  · intro x member
    rw [History.commands,done,undone,List.append_nil,List.mem_reverse,List.mem_cons] at member
    rcases member with rfl | old
    · exact command
    · exact flat.listed x (List.mem_append_left _ (List.mem_reverse.mpr old))

section
variable [Ids]

theorem FlatLabels.step (flat : e.FlatLabels) (step : Step e d) : d.FlatLabels := by
  -- A move of the cursor leaves the commands as they are, and what it applies is one of them.
  cases step with
  | forward =>
    refine ⟨?_,by rw [commands_stepForward]; exact flat.listed⟩
    cases next : e.history.undone with
    | nil =>
      rw [stepForward_of_nil next]
      exact flat.automaton
    | cons c cs =>
      rw [(stepForward_eq next).1]
      exact forward flat.automaton (flat.listed c (List.mem_append_right _ (next ▸ List.mem_cons_self)))
  | backward =>
    refine ⟨?_,by rw [commands_stepBackward]; exact flat.listed⟩
    cases last : e.history.done with
    | nil =>
      rw [stepBackward_of_nil last]
      exact flat.automaton
    | cons c cs =>
      rw [(stepBackward_eq last).1]
      exact backward flat.automaton
        (flat.listed c (List.mem_append_left _ (List.mem_reverse.mpr (last ▸ List.mem_cons_self))))
  | act act =>
    cases act with
    | report same history => exact ⟨same ▸ flat.automaton,history ▸ flat.listed⟩
    | refuse => exact ⟨flat.automaton,flat.listed⟩
    | @perform _ p proposes executed =>
      have adopted : (e.adopt p).FlatLabels := ⟨flat.automaton,flat.listed⟩
      exact adopted.execute (proposes.flatLabels flat.automaton) executed

theorem FlatLabels.steps (flat : e.FlatLabels) (steps : e.Steps d) : d.FlatLabels := by
  induction steps with
  | refl => exact flat
  | tail _ step ih => exact ih.step step

end

end Editor

namespace Session

variable {s : Session}

theorem flatLabels_execute (flat : s.FlatLabels) {c : Command} (command : c.FlatLabels) :
    ((execute c).run s).2.FlatLabels := by
  rw [execute,run_get]
  cases executed : s.toEditor.execute c with
  | error err => exact flat
  | ok e => exact Editor.FlatLabels.execute flat command executed

section
variable [Ids]

theorem Begins.flatLabels (begins : Begins s) : s.FlatLabels := by
  obtain ⟨base,settings,given,acts⟩ := begins.acts
  have flat : base.FlatLabels := by
    intro t bears
    have has := given.consistent.bears_iff.mp bears
    cases given with
    | initial => cases has
    | restored _ restored => exact (Snapshot.legible_restore restored t has).flat
  have start : (Session.ofAutomaton base settings).FlatLabels := ⟨flat,nofun⟩
  exact start.steps acts.steps

theorem flatLabels_after (flat : s.FlatLabels) (call : Call) : (s.after call).FlatLabels := by
  cases call with
  | setClobber clobber => exact ⟨flat.automaton,flat.listed⟩
  | _ => exact flat.steps (steps_after s nofun)

/-- The expression that a session returns is what its automaton has come to, or the simplified form of that. -/
theorem toRegex_ok {r : Option Regex} {t : Session} (read : toRegex.run s = (.ok r,t)) :
    ∃ x, t.automaton.extract = .ok x ∧ (r = x ∨ r = x.map Regex.optimise) := by
  have last {u : Session} (answered : answer.run u = (.ok r,t)) :
      ∃ x, t.automaton.extract = .ok x ∧ (r = x ∨ r = x.map Regex.optimise) := by
    rw [answer,run_get] at answered
    cases extracted : u.automaton.extract with
    | error e =>
      rw [extracted] at answered
      cases answered
    | ok x =>
      rw [extracted] at answered
      cases answered
      refine ⟨x,extracted,?_⟩
      split
      · exact .inr rfl
      · exact .inl rfl
  rw [toRegex_eq,run_bind] at read
  split at read
  · rw [run_get,run_bind] at read
    split at read
    · exact last read
    · cases read
  · cases read

theorem flat_toRegex (flat : s.FlatLabels) {r : Regex} (read : (toRegex.run s).1 = .ok (some r)) : r.Flat := by
  have after : (toRegex.run s).2.FlatLabels := flatLabels_after flat .toRegex
  obtain ⟨x,extracted,same⟩ := toRegex_ok (Prod.ext read rfl)
  rcases same with rfl | simplified
  · exact after.automaton.extract extracted
  · obtain ⟨y,rfl,rfl⟩ := Option.map_eq_some_iff.mp simplified.symm
    exact (Regex.optimise_sound (after.automaton.extract extracted)).1

end

end Session
end StepwiseAutomata
