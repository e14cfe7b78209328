import StepwiseAutomata.Proofs.Actions

namespace StepwiseAutomata

/-- The graph once so many of the commands, latest first, have been taken back. -/
def Graph.rewind : Nat → Graph → List Command → Graph
  | 0,g,_ => g
  | _ + 1,g,[] => g
  | n + 1,g,c :: done => rewind n (g.editAll c.undoEdits) done

theorem Editor.graph_stepsBackward (n : Nat) (e : Editor) :
    (steps stepBackward n e).automaton.graph = Graph.rewind n e.automaton.graph e.history.done := by
  induction n generalizing e with
  | zero => rfl
  | succ n ih =>
    rw [steps,ih]
    cases last : e.history.done with
    | nil =>
      rw [stepBackward_of_nil last]
      show Graph.rewind n _ e.history.done = _
      rw [last]
      cases n <;> rfl
    | cons c cs =>
      rw [graph_stepBackward last,(stepBackward_eq last).2]
      rfl

/-- Seeking back leads to the graph of the rewound history. -/
theorem Editor.seek_back {e : Editor} {index : Nat} (back : index ≤ e.history.position) :
    ∃ d, e.seek index = .ok d ∧
      d.automaton.graph = Graph.rewind (e.history.position - index) e.automaton.graph e.history.done := by
  have small : ¬e.history.size < index := by
    have : e.history.position ≤ e.history.size := Nat.le_add_right _ _
    omega
  have none : index - e.history.position = 0 := by omega
  refine ⟨_,by rw [seek]; simp only [small,if_false,none]; rfl,?_⟩
  rw [← graph_stepsBackward]
  unfold notifyMoved
  split <;> rfl

namespace Session

/-- One step of a run: nothing but a report, or a sound plan that keeps the language. -/
inductive KeepStep : Session → Session → Prop
  | report {s t : Session} : t.automaton = s.automaton → t.history = s.history → t.settings = s.settings → KeepStep s t
  | perform {s t : Session} {p : Plan} : p.Sound s.automaton → Performed p s t →
      t.automaton.language = s.automaton.language → KeepStep s t

/-- A run whose commands all keep the language. -/
def Keeps : Session → Session → Prop := Relation.ReflTransGen KeepStep

variable {s t : Session}

theorem KeepStep.consistent (step : KeepStep s t) (consistent : s.automaton.Consistent) : t.automaton.Consistent := by
  cases step with
  | report automaton => exact automaton ▸ consistent
  | perform sound performed => exact performed.automaton ▸ consistent.perform sound

theorem Keeps.consistent (keeps : Keeps s t) (consistent : s.automaton.Consistent) : t.automaton.Consistent := by
  induction keeps with
  | refl => exact consistent
  | tail _ step ih => exact step.consistent ih

theorem Keeps.trans {u : Session} (first : Keeps s t) (second : Keeps t u) : Keeps s u :=
  Relation.ReflTransGen.trans first second

theorem Keeps.language (keeps : Keeps s t) : t.automaton.language = s.automaton.language := by
  induction keeps with
  | refl => rfl
  | tail _ step ih =>
    cases step with
    | report automaton => rw [automaton,ih]
    | perform _ _ same => rw [same,ih]

theorem Keeps.start (keeps : Keeps s t) : t.automaton.start = s.automaton.start := by
  induction keeps with
  | refl => rfl
  | tail _ step ih =>
    cases step with
    | report automaton => rw [automaton,ih]
    | perform _ performed _ => rw [performed.start,ih]

theorem Keeps.settings (keeps : Keeps s t) : t.settings = s.settings := by
  induction keeps with
  | refl => rfl
  | tail _ step ih =>
    cases step with
    | report _ _ settings => rw [settings,ih]
    | perform _ performed _ => rw [performed.settings,ih]

theorem Keeps.ready (keeps : Keeps s t) (ready : s.Ready) : t.Ready := by
  induction keeps with
  | refl => exact ready
  | tail _ step ih =>
    cases step with
    | report _ history => rw [Ready,history]; exact ih
    | perform _ performed _ => exact .inl performed.undone

/-- However far the history is taken back within the run, the language is the same. -/
theorem Keeps.rewind (keeps : Keeps s t) (consistent : s.automaton.Consistent) :
    s.history.position ≤ t.history.position ∧ ∀ n ≤ t.history.position - s.history.position,
      (Graph.rewind n t.automaton.graph t.history.done).language = s.automaton.language := by
  induction keeps with
  | refl =>
    refine ⟨Nat.le_refl _,fun n bound => ?_⟩
    rw [Nat.sub_self,Nat.le_zero] at bound
    rw [bound]
    rfl
  | @tail u t run step ih =>
    obtain ⟨le,same⟩ := ih
    cases step with
    | report automaton history => rw [automaton,history]; exact ⟨le,same⟩
    | @perform p sound performed language =>
      have longer : t.history.position = u.history.position + 1 := congrArg List.length performed.done
      refine ⟨by omega,fun n bound => ?_⟩
      rw [performed.done]
      cases n with
      | zero => exact language.trans (Keeps.language run)
      | succ n =>
        have back : (t.automaton.graph.editAll p.command.undoEdits) = u.automaton.graph := by
          rw [performed.graph]
          exact (Graph.takes_reverse (Keeps.consistent run consistent).closed sound.takes).2
        show (Graph.rewind n (t.automaton.graph.editAll p.command.undoEdits) u.history.done).language = _
        rw [back]
        exact same n (by omega)

/-- At every position of the history from the beginning of the run to its end, the automaton accepts what it
    accepted at the beginning. -/
theorem Keeps.seek (keeps : Keeps s t) (consistent : s.automaton.Consistent) {index : Nat}
    (first : s.history.position ≤ index) (last : index ≤ t.history.position) :
    ∃ e, t.toEditor.seek index = .ok e ∧ e.automaton.language = s.automaton.language := by
  obtain ⟨e,sought,graph⟩ := Editor.seek_back last
  refine ⟨e,sought,?_⟩
  rw [Automaton.language,graph]
  exact (keeps.rewind consistent).2 _ (by omega)

end Session
end StepwiseAutomata
