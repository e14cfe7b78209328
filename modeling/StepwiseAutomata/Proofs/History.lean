import StepwiseAutomata.Editor
import StepwiseAutomata.Proofs.Plans

/-!
The history of an editor is coherent when every command after the cursor fits where it would be applied again, and
every command before it where it would be taken back. All that happens to an editor is a chain of moves in which
commands fit the graph they meet, and no such move breaks the coherence.
-/
namespace StepwiseAutomata

namespace Command

/-- The edits that take a command back. -/
def undoEdits (c : Command) : List Edit := c.edits.reverse.map Edit.reverse

theorem backward_eq (c : Command) : c.backward = c.undoEdits.map Edit.forward := by
  rw [backward,undoEdits,List.map_map]
  exact List.map_congr_left fun e _ => e.forward_reverse.symm

end Command

theorem Edit.reverse_reverse (e : Edit) : e.reverse.reverse = e := by cases e <;> rfl

theorem Edit.below_reverse {c : Counters} {e : Edit} : e.reverse.Below c ↔ e.Below c := by
  cases e <;> exact Iff.rfl

namespace Editor

variable {e : Editor}

/-- What editors keep: a consistent automaton, and a history that fits it in both directions and names no id that
    is still to be given out. -/
structure Coherent (e : Editor) : Prop where
  consistent : e.automaton.Consistent
  below : ∀ c ∈ e.history.commands, ∀ x ∈ c.edits, x.Below e.automaton.counters
  redoable : e.automaton.graph.Takes (e.history.undone.flatMap Command.edits)
  undoable : e.automaton.graph.Takes (e.history.done.flatMap Command.undoEdits)

/-- What may happen to an editor. Whatever command is applied or taken back fits the graph at that moment. -/
inductive Move : Editor → Editor → Prop
  | report {e e' : Editor} : e'.automaton = e.automaton → e'.history = e.history → Move e e'
  | adopt {e : Editor} {p : Plan} : e.automaton.counters ≤ p.counters → Move e (e.adopt p)
  | truncate (e : Editor) : Move e e.truncate
  | clobber (e : Editor) (b : Bool) : Move e (e.setClobber b)
  | append {e : Editor} {c : Command} : e.history.undone = [] → e.automaton.graph.Takes c.edits →
      (∀ x ∈ c.edits, x.Below e.automaton.counters) → Move e (e.append c)
  | forward {e : Editor} {c : Command} {cs : List Command} : e.history.undone = c :: cs →
      e.automaton.graph.Takes c.edits → Move e e.stepForward
  | backward {e : Editor} {c : Command} {cs : List Command} : e.history.done = c :: cs →
      e.automaton.graph.Takes c.undoEdits → Move e e.stepBackward

/-- Any number of moves. -/
def Moves : Editor → Editor → Prop := Relation.ReflTransGen Move

@[simp] theorem automaton_changeAll (cs : List Change) : (e.changeAll cs).automaton = e.automaton.applyAll cs := by
  induction cs generalizing e with
  | nil => rfl
  | cons c cs ih => exact ih

@[simp] theorem history_changeAll (cs : List Change) : (e.changeAll cs).history = e.history := by
  induction cs generalizing e with
  | nil => rfl
  | cons c cs ih => exact ih

@[simp] theorem automaton_append (c : Command) : (e.append c).automaton = e.automaton.applyAll c.forward :=
  automaton_changeAll c.forward

@[simp] theorem history_append (c : Command) :
    (e.append c).history = { e.history with done := c :: e.history.done } :=
  congrArg (fun h : History => { h with done := c :: h.done }) (history_changeAll c.forward)

theorem stepForward_of_nil (next : e.history.undone = []) : e.stepForward = e := by rw [stepForward,next]

theorem stepBackward_of_nil (last : e.history.done = []) : e.stepBackward = e := by rw [stepBackward,last]

theorem stepForward_eq {c : Command} {cs : List Command} (next : e.history.undone = c :: cs) :
    e.stepForward.automaton = e.automaton.applyAll c.forward ∧
      e.stepForward.history = { e.history with done := c :: e.history.done,undone := cs } := by
  unfold stepForward
  split
  · rename_i none
    cases none.symm.trans next
  · rename_i c' cs' found
    cases found.symm.trans next
    exact ⟨automaton_changeAll c.forward,
      congrArg (fun h : History => { h with done := c :: h.done,undone := cs }) (history_changeAll c.forward)⟩

theorem stepBackward_eq {c : Command} {cs : List Command} (last : e.history.done = c :: cs) :
    e.stepBackward.automaton = e.automaton.applyAll c.backward ∧
      e.stepBackward.history = { e.history with done := cs,undone := c :: e.history.undone } := by
  unfold stepBackward
  split
  · rename_i none
    cases none.symm.trans last
  · rename_i c' cs' found
    cases found.symm.trans last
    exact ⟨automaton_changeAll c.backward,
      congrArg (fun h : History => { h with done := cs,undone := c :: h.undone }) (history_changeAll c.backward)⟩

theorem notifyMoved_eq (e : Editor) (position : Nat) :
    (e.notifyMoved position).automaton = e.automaton ∧ (e.notifyMoved position).history = e.history := by
  unfold notifyMoved
  split <;> exact ⟨rfl,rfl⟩

theorem seek_eq {d : Editor} {index : Nat} (sought : e.seek index = .ok d) :
    d = (steps stepBackward (e.history.position - index) (steps stepForward (index - e.history.position) e)).notifyMoved
      e.history.position := by
  unfold seek at sought
  simp only at sought
  split at sought
  · cases sought
  · exact (Except.ok.inj sought).symm

theorem execute_eq {d : Editor} {c : Command} (executed : e.execute c = .ok d) :
    d.automaton = e.automaton.applyAll c.forward ∧ d.history.done = c :: e.history.done ∧ d.history.undone = [] := by
  unfold execute at executed
  split at executed
  · rename_i last
    cases executed
    rw [automaton_append,history_append]
    exact ⟨rfl,rfl,List.isEmpty_iff.mp last⟩
  · split at executed
    · cases executed
      rw [automaton_append,history_append]
      exact ⟨rfl,rfl,rfl⟩
    · cases executed

theorem counters_execute {d : Editor} {c : Command} (executed : e.execute c = .ok d) :
    d.automaton.counters = e.automaton.counters := by
  rw [(execute_eq executed).1,Automaton.counters_applyAll]

theorem counters_stepForward : e.stepForward.automaton.counters = e.automaton.counters := by
  cases next : e.history.undone with
  | nil => rw [stepForward_of_nil next]
  | cons c cs => rw [(stepForward_eq next).1,Automaton.counters_applyAll]

theorem counters_stepBackward : e.stepBackward.automaton.counters = e.automaton.counters := by
  cases last : e.history.done with
  | nil => rw [stepBackward_of_nil last]
  | cons c cs => rw [(stepBackward_eq last).1,Automaton.counters_applyAll]

theorem counters_steps {step : Editor → Editor}
    (each : ∀ d : Editor, (step d).automaton.counters = d.automaton.counters) (n : Nat) :
    (steps step n e).automaton.counters = e.automaton.counters := by
  induction n generalizing e with
  | zero => rfl
  | succ n ih => rw [steps,ih,each]

/-- Moves of the cursor take no ids. -/
theorem counters_seek {d : Editor} {index : Nat} (sought : e.seek index = .ok d) :
    d.automaton.counters = e.automaton.counters := by
  rw [seek_eq sought,(notifyMoved_eq _ _).1,counters_steps fun _ => counters_stepBackward,
    counters_steps fun _ => counters_stepForward]

theorem counters_undo (e : Editor) : e.undo.automaton.counters = e.automaton.counters := by
  rw [undo,(notifyMoved_eq _ _).1,counters_stepBackward]

theorem counters_redo (e : Editor) : e.redo.automaton.counters = e.automaton.counters := by
  rw [redo,(notifyMoved_eq _ _).1,counters_stepForward]

theorem graph_stepForward {c : Command} {cs : List Command} (next : e.history.undone = c :: cs) :
    e.stepForward.automaton.graph = e.automaton.graph.editAll c.edits := by
  rw [(stepForward_eq next).1]
  exact Automaton.graph_applyAll c.edits

theorem graph_stepBackward {c : Command} {cs : List Command} (last : e.history.done = c :: cs) :
    e.stepBackward.automaton.graph = e.automaton.graph.editAll c.undoEdits := by
  rw [(stepBackward_eq last).1,c.backward_eq]
  exact Automaton.graph_applyAll c.undoEdits

/-- Applying a command that fits leaves it to be taken back. -/
theorem takes_undoEdits {g : Graph} (closed : g.Closed) {c : Command} (takes : g.Takes c.edits) :
    (g.editAll c.edits).Takes c.undoEdits ∧ (g.editAll c.edits).editAll c.undoEdits = g :=
  Graph.takes_reverse closed takes

/-- Taking a command back leaves it to be applied again. -/
theorem takes_edits {g : Graph} (closed : g.Closed) {c : Command} (takes : g.Takes c.undoEdits) :
    (g.editAll c.undoEdits).Takes c.edits ∧ (g.editAll c.undoEdits).editAll c.edits = g := by
  have same : c.undoEdits.reverse.map Edit.reverse = c.edits := by
    rw [Command.undoEdits,← List.map_reverse,List.reverse_reverse,List.map_map]
    exact (List.map_congr_left fun e _ => e.reverse_reverse).trans (List.map_id _)
  have back := Graph.takes_reverse closed takes
  rwa [same] at back

private theorem consistent_applyAll {a : Automaton} (consistent : a.Consistent) {es : List Edit}
    (takes : a.graph.Takes es) (below : ∀ x ∈ es, x.Below a.counters) :
    (a.applyAll (es.map Edit.forward)).Consistent where
  toIndexed := consistent.editAll takes
  below := by
    rw [Automaton.graph_applyAll,Automaton.counters_applyAll]
    exact consistent.below.editAll below

private theorem Coherent.append (coherent : e.Coherent) {c : Command} (last : e.history.undone = [])
    (takes : e.automaton.graph.Takes c.edits) (low : ∀ x ∈ c.edits, x.Below e.automaton.counters) :
    (e.append c).Coherent := by
  obtain ⟨consistent,below,_,undoable⟩ := coherent
  have graph : (e.append c).automaton.graph = e.automaton.graph.editAll c.edits := by
    rw [automaton_append]
    exact Automaton.graph_applyAll c.edits
  obtain ⟨undo,back⟩ := takes_undoEdits consistent.closed takes
  refine ⟨?_,?_,?_,?_⟩
  · rw [automaton_append]
    exact consistent_applyAll consistent takes low
  · intro d member
    rw [automaton_append,Automaton.counters_applyAll]
    have cases : d = c ∨ d ∈ e.history.commands := by
      rw [history_append] at member
      simp only [History.commands,List.reverse_cons,List.mem_append,List.mem_singleton] at member ⊢
      grind
    rcases cases with rfl | old
    · exact low
    · exact below d old
  · rw [history_append]
    show Graph.Takes _ (e.history.undone.flatMap _)
    rw [last]
    trivial
  · rw [history_append,graph]
    show Graph.Takes _ (c.undoEdits ++ e.history.done.flatMap _)
    rw [Graph.takes_append,back]
    exact ⟨undo,undoable⟩

private theorem Coherent.forward (coherent : e.Coherent) {c : Command} {cs : List Command}
    (next : e.history.undone = c :: cs) (takes : e.automaton.graph.Takes c.edits) : e.stepForward.Coherent := by
  obtain ⟨consistent,below,redoable,undoable⟩ := coherent
  obtain ⟨automaton,history⟩ := stepForward_eq next
  have graph := graph_stepForward next
  have member : c ∈ e.history.commands := List.mem_append_right _ (next ▸ List.mem_cons_self)
  obtain ⟨undo,back⟩ := takes_undoEdits consistent.closed takes
  rw [next,List.flatMap_cons,Graph.takes_append] at redoable
  refine ⟨?_,?_,?_,?_⟩
  · rw [automaton]
    exact consistent_applyAll consistent takes (below c member)
  · intro d listed
    rw [automaton,Automaton.counters_applyAll]
    refine below d ?_
    rw [history] at listed
    simp only [History.commands,next,List.reverse_cons,List.mem_append,List.mem_cons] at listed ⊢
    grind
  · rw [history,graph]
    exact redoable.2
  · rw [history,graph]
    show Graph.Takes _ (c.undoEdits ++ e.history.done.flatMap _)
    rw [Graph.takes_append,back]
    exact ⟨undo,undoable⟩

private theorem Coherent.backward (coherent : e.Coherent) {c : Command} {cs : List Command}
    (last : e.history.done = c :: cs) (takes : e.automaton.graph.Takes c.undoEdits) : e.stepBackward.Coherent := by
  obtain ⟨consistent,below,redoable,undoable⟩ := coherent
  obtain ⟨automaton,history⟩ := stepBackward_eq last
  rw [c.backward_eq] at automaton
  have graph := graph_stepBackward last
  have member : c ∈ e.history.commands :=
    List.mem_append_left _ (List.mem_reverse.mpr (last ▸ List.mem_cons_self))
  have low : ∀ x ∈ c.undoEdits, x.Below e.automaton.counters := by
    intro x listed
    obtain ⟨y,there,rfl⟩ := List.mem_map.mp listed
    exact Edit.below_reverse.mpr (below c member y (List.mem_reverse.mp there))
  obtain ⟨redo,again⟩ := takes_edits consistent.closed takes
  rw [last,List.flatMap_cons,Graph.takes_append] at undoable
  refine ⟨?_,?_,?_,?_⟩
  · rw [automaton]
    exact consistent_applyAll consistent takes low
  · intro d listed
    rw [automaton,Automaton.counters_applyAll]
    refine below d ?_
    rw [history] at listed
    simp only [History.commands,last,List.reverse_cons,List.mem_append,List.mem_cons,List.mem_reverse]
      at listed ⊢
    grind
  · rw [history,graph]
    show Graph.Takes _ (c.edits ++ e.history.undone.flatMap _)
    rw [Graph.takes_append,again]
    exact ⟨redo,redoable⟩
  · rw [history,graph]
    exact undoable.2

/-- No move breaks the coherence. -/
theorem Coherent.move {e' : Editor} (coherent : e.Coherent) (move : Move e e') : e'.Coherent := by
  have consistent := coherent.consistent
  cases move with
  | report automaton history =>
    refine ⟨automaton ▸ consistent,?_,?_,?_⟩
    · rw [automaton,history]; exact coherent.below
    · rw [automaton,history]; exact coherent.redoable
    · rw [automaton,history]; exact coherent.undoable
  | adopt grows =>
    refine ⟨⟨consistent.counted _,consistent.below.mono grows⟩,?_,coherent.redoable,coherent.undoable⟩
    exact fun c member x listed => (coherent.below c member x listed).mono grows
  | truncate =>
    refine ⟨consistent,fun c member => coherent.below c ?_,trivial,coherent.undoable⟩
    have kept : c ∈ e.history.done.reverse ++ [] := member
    rw [List.append_nil] at kept
    exact List.mem_append_left _ kept
  | clobber => exact ⟨consistent,coherent.below,coherent.redoable,coherent.undoable⟩
  | append last takes low => exact coherent.append last takes low
  | forward next takes => exact coherent.forward next takes
  | backward last takes => exact coherent.backward last takes

theorem Coherent.moves {e' : Editor} (coherent : e.Coherent) (moves : e.Moves e') : e'.Coherent := by
  induction moves with
  | refl => exact coherent
  | tail _ move ih => exact ih.move move

/-- In a coherent history a step forward is a move. -/
theorem Coherent.stepForward (coherent : e.Coherent) : e.Moves e.stepForward := by
  cases next : e.history.undone with
  | nil =>
    rw [stepForward_of_nil next]
    exact .refl
  | cons c cs =>
    have redoable := coherent.redoable
    rw [next,List.flatMap_cons,Graph.takes_append] at redoable
    exact .single (.forward next redoable.1)

/-- In a coherent history a step backward is a move. -/
theorem Coherent.stepBackward (coherent : e.Coherent) : e.Moves e.stepBackward := by
  cases last : e.history.done with
  | nil =>
    rw [stepBackward_of_nil last]
    exact .refl
  | cons c cs =>
    have undoable := coherent.undoable
    rw [last,List.flatMap_cons,Graph.takes_append] at undoable
    exact .single (.backward last undoable.1)

/-- A sound plan is adopted and its command executed in moves, and if it is refused, only its ids are taken. -/
theorem Coherent.perform (coherent : e.Coherent) {p : Plan} (sound : p.Sound e.automaton) :
    e.Moves (e.adopt p) ∧ ∀ e', (e.adopt p).execute p.command = .ok e' → e.Moves e' := by
  have adopted : e.Moves (e.adopt p) := .single (.adopt sound.grows)
  have takes : e.automaton.graph.Takes p.command.edits := sound.takes
  have below := sound.below coherent.consistent
  refine ⟨adopted,fun e' executed => ?_⟩
  unfold execute at executed
  split at executed
  · rename_i empty
    cases executed
    exact adopted.tail (.append (List.isEmpty_iff.mp empty) takes below)
  · split at executed
    · cases executed
      exact (adopted.tail (.truncate _)).tail (.append rfl takes below)
    · cases executed

end Editor
end StepwiseAutomata
