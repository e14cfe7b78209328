import StepwiseAutomata.Proofs.ListOrder
import StepwiseAutomata.Proofs.Refusals

/-!
While a history may not be clobbered nothing in it is replaced. Whenever the cursor comes back to its end, the automaton
is what it was when the last command had been executed, down to the order in its lists.
-/
namespace StepwiseAutomata

theorem Automaton.Given.tidy [Ids] {a : Automaton} (given : a.Given) : a.Tidy := by
  cases given with
  | initial => exact tidy_withStart 0 false
  | @restored picture _ _ restored =>
    obtain ⟨start,ts,_,rfl⟩ := Snapshot.restore_ok restored
    have base : (picture.base start).Tidy := tidy_withStart start.id start.isFinal
    exact base.applyAll (picture.changes start ts)

namespace Automaton

end Automaton

namespace Editor

variable {base : Automaton} {e d : Editor}

section
variable [Ids]

/-- The command of a plan that was proposed is executed. -/
def Executes (e d : Editor) : Prop := ∃ p : Plan, e.automaton.Proposes p ∧ (e.adopt p).execute p.command = .ok d

omit [Ids] in
/-- Where nothing may be clobbered a command is executed at the end of the history only. -/
theorem execute_kept {c : Command} (kept : e.history.clobber = false) (executed : e.execute c = .ok d) :
    e.history.undone = [] ∧ d.history = { e.history with done := c :: e.history.done } := by
  unfold execute at executed
  split at executed
  · rename_i last
    cases executed
    exact ⟨List.isEmpty_iff.mp last,history_append c⟩
  · rw [kept] at executed
    cases executed

/-- No step changes whether the history may be clobbered. -/
theorem Step.clobber (step : Step e d) : d.history.clobber = e.history.clobber := by
  cases step with
  | act act =>
    cases act with
    | report _ history => rw [history]
    | refuse => rfl
    | perform _ executed =>
      unfold execute at executed
      split at executed
      · cases executed
        rw [history_append]
        rfl
      · split at executed
        · cases executed
          rw [history_append]
          rfl
        · cases executed
  | forward =>
    cases next : e.history.undone with
    | nil => rw [stepForward_of_nil next]
    | cons c cs => rw [(stepForward_eq next).2]
  | backward =>
    cases last : e.history.done with
    | nil => rw [stepBackward_of_nil last]
    | cons c cs => rw [(stepBackward_eq last).2]

theorem Steps.clobber (steps : e.Steps d) : d.history.clobber = e.history.clobber := by
  induction steps with
  | refl => rfl
  | tail _ step ih => exact step.clobber.trans ih

/-- A step leaves the list of commands as it is, or a command is executed and put at its end. -/
theorem Step.commands (step : Step e d) (kept : e.history.clobber = false) :
    d.history.commands = e.history.commands ∨
      e.Executes d ∧ d.history.undone = [] ∧ ∃ c, d.history.commands = e.history.commands ++ [c] := by
  cases step with
  | forward => exact .inl commands_stepForward
  | backward => exact .inl commands_stepBackward
  | act act =>
    cases act with
    | report _ history => exact .inl (history ▸ rfl)
    | refuse => exact .inl rfl
    | @perform _ p proposes executed =>
      obtain ⟨last,history⟩ := execute_kept (e := e.adopt p) kept executed
      have last : e.history.undone = [] := last
      rw [history]
      refine .inr ⟨⟨p,proposes,executed⟩,last,p.command,?_⟩
      show (p.command :: e.history.done).reverse ++ e.history.undone = e.history.done.reverse ++ e.history.undone ++ _
      rw [last,List.append_nil,List.append_nil,List.reverse_cons]

theorem Steps.commands (steps : e.Steps d) (kept : e.history.clobber = false) :
    e.history.commands <+: d.history.commands := by
  induction steps with
  | refl => exact List.prefix_rfl
  | tail before step ih =>
    rcases step.commands ((Steps.clobber before).trans kept) with same | ⟨_,_,c,longer⟩
    · exact same ▸ ih
    · exact ih.trans (longer ▸ List.prefix_append _ _)

/-- At the end of the history an action executes commands, or does not do anything but report. -/
theorem Acts.last (acts : e.Acts d) (kept : e.history.clobber = false) (last : e.history.undone = []) :
    d.history.undone = [] ∧ d.history.clobber = false ∧
      (e.history.size < d.history.size ∨ d.history.size = e.history.size ∧ d.automaton = e.automaton) := by
  induction acts with
  | refl => exact ⟨last,kept,.inr ⟨rfl,rfl⟩⟩
  | @tail m d _ act ih =>
    obtain ⟨last,kept,so⟩ := ih
    cases act with
    | report automaton history =>
      rw [automaton,history]
      exact ⟨last,kept,so⟩
    | refuse _ refused =>
      cases (if_pos (List.isEmpty_iff.mpr last)).symm.trans refused
    | @perform _ p proposes executed =>
      obtain ⟨_,history⟩ := execute_kept (e := m.adopt p) kept executed
      rw [history]
      refine ⟨last,kept,.inl ?_⟩
      have longer : m.history.size < (p.command :: m.history.done).length + m.history.undone.length :=
        Nat.add_lt_add_right (Nat.lt_succ_self _) _
      rcases so with more | ⟨same,_⟩
      · exact Nat.lt_trans more longer
      · exact same ▸ longer

end

section
attribute [local instance] Ids.endless

/-- Ids are taken and never given back. -/
theorem Coherent.counters_step (coherent : e.Coherent) (step : Step e d) :
    e.automaton.counters ≤ d.automaton.counters := by
  cases step with
  | forward => rw [counters_stepForward]; exact Counters.le_refl _
  | backward => rw [counters_stepBackward]; exact Counters.le_refl _
  | act act =>
    cases act with
    | report automaton _ => rw [automaton]; exact Counters.le_refl _
    | refuse proposes _ => exact (proposes.sound coherent.consistent).grows
    | perform proposes executed =>
      rw [(execute_eq executed).1,Automaton.counters_applyAll]
      exact (proposes.sound coherent.consistent).grows

theorem Coherent.counters_steps (coherent : e.Coherent) (steps : e.Steps d) :
    e.automaton.counters ≤ d.automaton.counters := by
  induction steps with
  | refl => exact Counters.le_refl _
  | tail before step ih =>
    have reached := coherent.moves (coherent.moves_of_steps before)
    exact Counters.le_trans ih (reached.counters_step step)

/-- The history is kept. Its commands can be applied to `base` in their order, what they add is new each time, and the
    lists of the automaton are in the order of the commands as far as these are not to be applied again. -/
structure Ordered (base : Automaton) (e : Editor) : Prop where
  coherent : e.Coherent
  kept : e.history.clobber = false
  counters : base.counters ≤ e.automaton.counters
  unrepeated : base.graph.Unrepeated (e.history.commands.flatMap Command.edits)
  lined : base.Lined (e.history.done.reverse.flatMap Command.edits) (e.history.undone.flatMap Command.edits) e.automaton

namespace Ordered

/-- What a new command adds has ids that no command has named, nor the automaton at the beginning. -/
theorem unrepeated_added (ordered : Ordered base e) (consistent : base.Consistent) (last : e.history.undone = [])
    {p : Plan} (proposes : e.automaton.Proposes p) :
    base.graph.Unrepeated (e.history.done.reverse.flatMap Command.edits ++ p.command.edits) := by
  obtain ⟨coherent,_,counters,⟨takes,nodup,fresh⟩,lined⟩ := ordered
  have commands : e.history.commands = e.history.done.reverse := by rw [History.commands,last,List.append_nil]
  obtain ⟨arcs,added,_⟩ := proposes.added coherent.consistent
  have new {t : Transition} (member : t ∈ Edit.added p.command.edits) : e.automaton.counters.nextTransition ≤ t.id :=
    (Counters.id_of_mem_number (added ▸ member)).1
  rw [commands] at takes nodup fresh
  refine ⟨Graph.takes_append.mpr ⟨takes,?_⟩,?_,?_⟩
  · rw [← lined.graph]
    exact (proposes.sound coherent.consistent).takes
  · rw [Edit.added_append,List.nodup_append]
    refine ⟨nodup,?_,?_⟩
    · rw [added]
      refine List.Nodup.of_map Transition.id ?_
      rw [Counters.map_id_number]
      exact Ids.nodup_series _ _
    · rintro t old _ member rfl
      obtain ⟨x,listed,edit⟩ := List.mem_filterMap.mp old
      obtain ⟨c,there,within⟩ := List.mem_flatMap.mp listed
      have below := coherent.below c (commands ▸ there) x within
      cases x with
      | addTransition u =>
        cases edit
        exact absurd below.1 (Nat.not_lt.mpr (new member))
      | _ => cases edit
  · intro t member has
    rw [Edit.added_append,List.mem_append] at member
    rcases member with old | member
    · exact fresh t old has
    · exact absurd (consistent.below.transition t has) (Nat.not_lt.mpr (Nat.le_trans counters.2 (new member)))

private theorem execute (ordered : Ordered base e) (consistent : base.Consistent) {p : Plan}
    (proposes : e.automaton.Proposes p) (executed : (e.adopt p).execute p.command = .ok d) :
    base.graph.Unrepeated (d.history.commands.flatMap Command.edits) ∧
      base.Lined (d.history.done.reverse.flatMap Command.edits) (d.history.undone.flatMap Command.edits)
        d.automaton := by
  obtain ⟨automaton,done,undone⟩ := execute_eq executed
  have last : e.history.undone = [] := (execute_kept (e := e.adopt p) ordered.kept executed).1
  have unrepeated := ordered.unrepeated_added consistent last proposes
  have list : d.history.done.reverse.flatMap Command.edits =
      e.history.done.reverse.flatMap Command.edits ++ p.command.edits := by
    rw [done,List.reverse_cons,List.flatMap_append,List.flatMap_singleton]
    rfl
  constructor
  · rw [History.commands,undone,List.append_nil,list]
    exact unrepeated
  · have lined := ordered.lined
    rw [last] at lined
    rw [automaton,list,undone]
    refine Automaton.Lined.forwardAll ((List.append_nil _).symm ▸ unrepeated) (Automaton.Lined.recount ?_ p.counters)
    exact (List.append_nil p.command.edits).symm ▸ lined.extend p.command.edits

private theorem stepForward (ordered : Ordered base e) {c : Command} {cs : List Command}
    (next : e.history.undone = c :: cs) : base.Lined (e.stepForward.history.done.reverse.flatMap Command.edits)
      (e.stepForward.history.undone.flatMap Command.edits) e.stepForward.automaton := by
  obtain ⟨automaton,history⟩ := stepForward_eq next
  have unrepeated := ordered.unrepeated
  have lined := ordered.lined
  rw [History.commands,next,List.flatMap_append,List.flatMap_cons,← List.append_assoc] at unrepeated
  rw [next,List.flatMap_cons] at lined
  rw [automaton,history,List.reverse_cons,List.flatMap_append,List.flatMap_singleton]
  exact lined.forwardAll unrepeated

private theorem stepBackward (ordered : Ordered base e) (consistent : base.Consistent) {c : Command} {cs : List Command}
    (last : e.history.done = c :: cs) : base.Lined (e.stepBackward.history.done.reverse.flatMap Command.edits)
      (e.stepBackward.history.undone.flatMap Command.edits) e.stepBackward.automaton := by
  obtain ⟨automaton,history⟩ := stepBackward_eq last
  have unrepeated := ordered.unrepeated
  have lined := ordered.lined
  rw [History.commands,last,List.reverse_cons,List.flatMap_append,List.flatMap_append,List.flatMap_singleton]
    at unrepeated
  rw [last,List.reverse_cons,List.flatMap_append,List.flatMap_singleton] at lined
  rw [automaton,history,List.flatMap_cons]
  exact lined.backwardAll unrepeated consistent.toIndexed

theorem step (ordered : Ordered base e) (consistent : base.Consistent) (step : Step e d) : Ordered base d := by
  have coherent := ordered.coherent.moves (ordered.coherent.step step)
  have kept := step.clobber.trans ordered.kept
  have counters := Counters.le_trans ordered.counters (ordered.coherent.counters_step step)
  cases step with
  | forward =>
    refine ⟨coherent,kept,counters,?_,?_⟩
    · rw [commands_stepForward]; exact ordered.unrepeated
    · cases next : e.history.undone with
      | nil =>
        rw [stepForward_of_nil next]
        exact ordered.lined
      | cons c cs => exact ordered.stepForward next
  | backward =>
    refine ⟨coherent,kept,counters,?_,?_⟩
    · rw [commands_stepBackward]; exact ordered.unrepeated
    · cases last : e.history.done with
      | nil =>
        rw [stepBackward_of_nil last]
        exact ordered.lined
      | cons c cs => exact ordered.stepBackward consistent last
  | act act =>
    cases act with
    | report automaton history =>
      refine ⟨coherent,kept,counters,?_,?_⟩
      · rw [history]; exact ordered.unrepeated
      · rw [automaton,history]; exact ordered.lined
    | @refuse p => exact ⟨coherent,kept,counters,ordered.unrepeated,ordered.lined.recount p.counters⟩
    | perform proposes executed =>
      obtain ⟨unrepeated,lined⟩ := ordered.execute consistent proposes executed
      exact ⟨coherent,kept,counters,unrepeated,lined⟩

theorem steps (ordered : Ordered base e) (consistent : base.Consistent) (steps : e.Steps d) : Ordered base d := by
  induction steps with
  | refl => exact ordered
  | tail _ step ih => exact ih.step consistent step

end Ordered

end

/-- Steps that give no id out twice. -/
def Leads (e d : Editor) : Prop := @Steps Ids.endless e d

end Editor

namespace Session

section
variable [Ids] {α : Type} {s : Session}

def FailsAt (x : Action α) (s : Session) : Prop := ∃ e, (x.run s).1 = .error e

/-- What came of something that was asked for: commands were executed and the cursor is at the end, or there are no more
    than before, and if ids were taken, then by what failed in the middle of the history. -/
def Outcome (fails : Prop) (s t : Session) : Prop :=
  s.history.size < t.history.size ∧ t.history.undone = [] ∨
    t.history.size = s.history.size ∧ (t.automaton.counters = s.automaton.counters ∨ s.Blocked ∧ fails)

theorem Scripted.outcome {x : Action α} (scripted : Scripted x s) (kept : s.history.clobber = false) :
    Outcome (FailsAt x s) s (x.run s).2 := by
  rcases s.ready_or_blocked with last | blocked
  · have last : s.history.undone = [] := last.resolve_right (kept ▸ Bool.false_ne_true)
    obtain ⟨last,_,more | ⟨size,automaton⟩⟩ := scripted.acts.last kept last
    · exact .inl ⟨more,last⟩
    · exact .inr ⟨size,.inl (automaton ▸ rfl)⟩
  · rcases scripted.stopped_or_same blocked with ⟨e,t,ran,stopped⟩ | ⟨r,t,ran,noted,_⟩
    · refine .inr ⟨?_,.inr ⟨blocked,e,by rw [ran]⟩⟩
      rw [ran,stopped.held.history]
    · rw [ran]
      exact .inr ⟨by rw [noted.history],.inl (by rw [noted.automaton])⟩

end

end Session
end StepwiseAutomata
