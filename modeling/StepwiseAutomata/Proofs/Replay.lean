import StepwiseAutomata.Proofs.Applicability
import StepwiseAutomata.Proofs.Agreement
import StepwiseAutomata.Proofs.Calls

namespace StepwiseAutomata

section
attribute [local instance] Ids.endless

/-- Where no id is given out twice, what a transformation comes to fits the automaton. -/
theorem Transformation.sound {a : Automaton} {b b' : Bindings} {x : Transformation} {p : Plan}
    (consistent : a.Consistent) (planned : x.plan a b = .ok (some (p,b'))) : p.Sound a := by
  cases x with
  | creation r => cases planned; exact Automaton.creation_sound consistent r
  | choice t => exact (Breakdown.BreaksDown.choice (eq_ok_of_always planned).1).sound consistent
  | sequence t => exact (Breakdown.BreaksDown.sequence (eq_ok_of_always planned).1).sound consistent
  | option t => exact (Breakdown.BreaksDown.option (eq_ok_of_always planned).1).sound consistent
  | iteration t level => exact (Breakdown.BreaksDown.iteration (eq_ok_of_always planned).1).sound consistent
  | breakdown t policy => exact (Breakdown.breaksDown_of_ofLabel (eq_ok_of_optional planned).1).sound consistent
  | mergeEquivalent ctx state => exact Automaton.mergeEquivalent_sound consistent (eq_ok_of_always planned).1
  | removeEpsilon state => exact Automaton.removeEpsilon_sound consistent (eq_ok_of_always planned).1
  | resolveState state => exact Automaton.resolveState_sound consistent planned
  | removeUnreachable state => exact Automaton.removeUnreachable_sound consistent (eq_ok_of_always planned).1
  | isolateFinal =>
    rw [plan] at planned
    exact Automaton.isolateFinal_sound consistent (Except.ok.inj (eq_ok_of_optional planned).1)
  | eliminate state => exact Automaton.eliminate_sound consistent (eq_ok_of_always planned).1

end

section
variable [Ids]

/-- What the transformations of an automaton come to where the ids suffice for it, and the change of a flag. -/
inductive Offers (a : Automaton) : Command → Prop
  | made {x : Transformation} {b : Bindings} {c : Command} : (x.make.run ⟨a,b,[]⟩).1 = .ok (some c) →
      Ids.Suffice (x.make.run ⟨a,b,[]⟩).2.automaton.counters → Offers a c
  | flag (id : Nat) (isFinal : Bool) : Offers a (.edit (Command.setFinal a id isFinal))

/-- Every command that is offered can be applied. -/
theorem Offers.applies {a : Automaton} {c : Command} (offers : Offers a c) (consistent : a.Consistent) :
    c.applies a = true := by
  cases offers with
  | flag id isFinal =>
    rw [Command.applies]
    exact beq_self_eq_true (a.isFinal id)
  | @made x b c made room =>
    obtain ⟨p,b',planned,rfl,_⟩ := Transformation.planned made room
    exact Command.applies_of_takes consistent.toIndexed p.command (Transformation.sound consistent planned).takes

end

namespace Automaton

variable {a : Automaton}

/-- The automaton with the commands applied, one after the other. -/
def replay (a : Automaton) (cs : List Command) : Automaton := cs.foldl (fun a c => a.applyAll c.forward) a

theorem graph_replay (cs : List Command) : (a.replay cs).graph = a.graph.editAll (cs.flatMap Command.edits) := by
  induction cs generalizing a with
  | nil => rfl
  | cons c cs ih =>
    show ((a.applyAll c.forward).replay cs).graph = _
    rw [ih,List.flatMap_cons,Graph.editAll_append]
    exact congrArg (·.editAll (cs.flatMap Command.edits)) (graph_applyAll c.edits)

theorem Indexed.replay (indexed : a.Indexed) {cs : List Command} (admits : a.graph.Admits (cs.flatMap Command.edits)) :
    (a.replay cs).Indexed := by
  induction cs generalizing a with
  | nil => exact indexed
  | cons c cs ih =>
    rw [List.flatMap_cons,Graph.admits_append,← graph_applyAll] at admits
    exact ih (indexed.admits admits.1) admits.2

end Automaton

namespace History

variable (h : History)

theorem length_commands : h.commands.length = h.size := by
  rw [commands,List.length_append,List.length_reverse]
  rfl

theorem position_le : h.position ≤ h.commands.length := by
  rw [length_commands]
  exact Nat.le_add_right _ _

theorem take_position : h.commands.take h.position = h.done.reverse := List.take_left' List.length_reverse

end History

namespace Editor

/-- What an editor can be asked for; ids may be taken in between. -/
inductive Request where
  | adopt (p : Plan)
  | execute (c : Command)
  | undo
  | redo
  | seek (index : Nat)
  | setClobber (clobber : Bool)

/-- The editor after a request. One that is refused changes nothing. -/
def answer (e : Editor) : Request → Editor
  | .adopt p => e.adopt p
  | .execute c =>
    match e.execute c with
    | .ok e => e
    | .error _ => e
  | .undo => e.undo
  | .redo => e.redo
  | .seek index =>
    match e.seek index with
    | .ok e => e
    | .error _ => e
  | .setClobber clobber => e.setClobber clobber

def answerAll (e : Editor) (rs : List Request) : Editor := rs.foldl answer e

/-- Whether every command that is executed on the way can be applied at that moment. -/
def allows (e : Editor) : List Request → Bool
  | [] => true
  | .execute c :: rs =>
    match e.execute c with
    | .ok d => c.applies e.automaton && d.allows rs
    | .error _ => e.allows rs
  | r :: rs => (e.answer r).allows rs

/-- An editor of the automaton with an empty history. -/
def opened (base : Automaton) (clobber : Bool) : Editor where
  automaton := base
  history := { clobber }

variable {e : Editor} {base : Automaton}

theorem commands_stepForward : e.stepForward.history.commands = e.history.commands := by
  cases next : e.history.undone with
  | nil => rw [stepForward_of_nil next]
  | cons c cs =>
    rw [(stepForward_eq next).2]
    simp [History.commands,next]

theorem commands_stepBackward : e.stepBackward.history.commands = e.history.commands := by
  cases last : e.history.done with
  | nil => rw [stepBackward_of_nil last]
  | cons c cs =>
    rw [(stepBackward_eq last).2]
    simp [History.commands,last]

theorem commands_steps {step : Editor → Editor} (each : ∀ d : Editor, (step d).history.commands = d.history.commands)
    (n : Nat) : (steps step n e).history.commands = e.history.commands := by
  induction n generalizing e with
  | zero => rfl
  | succ n ih => rw [steps,ih,each]

theorem length_undone_stepForward (e : Editor) :
    e.stepForward.history.undone.length = e.history.undone.length - 1 := by
  cases next : e.history.undone with
  | nil =>
    rw [stepForward_of_nil next]
    simp [next]
  | cons c cs =>
    rw [(stepForward_eq next).2]
    rfl

theorem position_stepBackward (e : Editor) : e.stepBackward.history.position = e.history.position - 1 := by
  cases last : e.history.done with
  | nil =>
    rw [stepBackward_of_nil last]
    simp [History.position,last]
  | cons c cs =>
    rw [(stepBackward_eq last).2,History.position,History.position,last]
    rfl

theorem length_undone_stepsForward (n : Nat) (e : Editor) :
    (steps stepForward n e).history.undone.length = e.history.undone.length - n := by
  induction n generalizing e with
  | zero => rfl
  | succ n ih => rw [steps,ih,length_undone_stepForward,Nat.sub_sub,Nat.add_comm]

theorem position_stepsBackward (n : Nat) (e : Editor) :
    (steps stepBackward n e).history.position = e.history.position - n := by
  induction n generalizing e with
  | zero => rfl
  | succ n ih => rw [steps,ih,position_stepBackward,Nat.sub_sub,Nat.add_comm]

/-- Only the execution of a command changes the list. -/
theorem commands_answer {r : Request} (navigates : ∀ c, r ≠ .execute c) :
    (e.answer r).history.commands = e.history.commands := by
  cases r with
  | execute c => exact absurd rfl (navigates c)
  | adopt p => rfl
  | setClobber clobber => rfl
  | undo =>
    show (notifyMoved _ _).history.commands = _
    rw [(notifyMoved_eq _ _).2,commands_stepBackward]
  | redo =>
    show (notifyMoved _ _).history.commands = _
    rw [(notifyMoved_eq _ _).2,commands_stepForward]
  | seek index =>
    cases sought : e.seek index with
    | error err =>
      rw [answer,sought]
    | ok d =>
      rw [answer,sought]
      show d.history.commands = _
      rw [seek_eq sought,(notifyMoved_eq _ _).2,commands_steps fun _ => commands_stepBackward,
        commands_steps fun _ => commands_stepForward]

/-- The commands can be applied to the automaton at the beginning, in their order, and the graph is that of those
    before the cursor. -/
structure Faithful (base : Automaton) (e : Editor) : Prop where
  indexed : e.automaton.Indexed
  admits : base.graph.Admits (e.history.commands.flatMap Command.edits)
  graph : e.automaton.graph = base.graph.editAll (e.history.done.reverse.flatMap Command.edits)

theorem faithful_opened (indexed : base.Indexed) (clobber : Bool) : Faithful base (opened base clobber) :=
  ⟨indexed,trivial,rfl⟩

namespace Faithful

variable (faithful : Faithful base e)
include faithful

theorem report {d : Editor} (automaton : d.automaton = e.automaton) (commands : d.history.commands = e.history.commands)
    (done : d.history.done = e.history.done) : Faithful base d := by
  obtain ⟨indexed,admits,graph⟩ := faithful
  exact ⟨automaton ▸ indexed,commands ▸ admits,by rw [automaton,done,graph]⟩

theorem notifyMoved (position : Nat) : Faithful base (e.notifyMoved position) := by
  obtain ⟨automaton,history⟩ := notifyMoved_eq e position
  exact faithful.report automaton (history ▸ rfl) (history ▸ rfl)

theorem execute {d : Editor} {c : Command} (executed : e.execute c = .ok d) (applies : c.applies e.automaton = true) :
    Faithful base d := by
  obtain ⟨automaton,done,undone⟩ := execute_eq executed
  have suits := Command.admits_of_applies faithful.indexed c applies
  have before := faithful.admits
  rw [History.commands,List.flatMap_append,Graph.admits_append,← faithful.graph] at before
  have split : (c :: e.history.done).reverse.flatMap Command.edits =
      e.history.done.reverse.flatMap Command.edits ++ c.edits := by simp
  refine ⟨?_,?_,?_⟩
  · rw [automaton]
    exact faithful.indexed.admits suits
  · rw [History.commands,done,undone,List.append_nil,split,Graph.admits_append,← faithful.graph]
    exact ⟨before.1,suits⟩
  · rw [done,split,Graph.editAll_append,← faithful.graph,automaton]
    exact Automaton.graph_applyAll c.edits

theorem stepForward : Faithful base e.stepForward := by
  cases next : e.history.undone with
  | nil =>
    rw [stepForward_of_nil next]
    exact faithful
  | cons c cs =>
    obtain ⟨automaton,history⟩ := stepForward_eq next
    have admits := faithful.admits
    rw [History.commands,next,List.flatMap_append,List.flatMap_cons,Graph.admits_append,Graph.admits_append,
      ← faithful.graph] at admits
    obtain ⟨_,suits,_⟩ := admits
    refine ⟨?_,?_,?_⟩
    · rw [automaton]
      exact faithful.indexed.admits suits
    · rw [commands_stepForward]
      exact faithful.admits
    · rw [graph_stepForward next,history,faithful.graph,← Graph.editAll_append]
      simp

/-- Before the last command the graph was that of the commands before it, and its reverse edits lead back to it. -/
theorem stepBackward (closed : base.graph.Closed) : Faithful base e.stepBackward := by
  cases last : e.history.done with
  | nil =>
    rw [stepBackward_of_nil last]
    exact faithful
  | cons c cs =>
    obtain ⟨automaton,history⟩ := stepBackward_eq last
    have admits := faithful.admits
    have graph := faithful.graph
    rw [History.commands,last,List.reverse_cons,List.flatMap_append,List.flatMap_append,Graph.admits_append,
      Graph.admits_append] at admits
    rw [last,List.reverse_cons,List.flatMap_append,Graph.editAll_append] at graph
    obtain ⟨⟨before,suits⟩,_⟩ := admits
    have single : [c].flatMap Command.edits = c.edits := by simp
    rw [single] at suits graph
    obtain ⟨reverse,back⟩ := Graph.admits_reverse (closed.admits before) suits
    rw [← graph] at reverse back
    rw [c.backward_eq] at automaton
    refine ⟨?_,?_,?_⟩
    · rw [automaton]
      exact faithful.indexed.admits reverse
    · rw [commands_stepBackward]
      exact faithful.admits
    · rw [graph_stepBackward last,history]
      exact back

theorem steps {step : Editor → Editor} (each : ∀ d, Faithful base d → Faithful base (step d)) (n : Nat) :
    Faithful base (Editor.steps step n e) := by
  induction n generalizing e with
  | zero => exact faithful
  | succ n ih => exact ih (each e faithful)

theorem seek (closed : base.graph.Closed) {d : Editor} {index : Nat} (sought : e.seek index = .ok d) :
    Faithful base d := by
  rw [seek_eq sought]
  have forward := faithful.steps (fun d good => good.stepForward) (index - e.history.position)
  have backward := forward.steps (fun d good => good.stepBackward closed) (e.history.position - index)
  exact backward.notifyMoved _

theorem adopt (p : Plan) : Faithful base (e.adopt p) := by
  obtain ⟨⟨closed,outgoing,ingoing,outgoing_nodup,ingoing_nodup⟩,admits,graph⟩ := faithful
  exact ⟨⟨closed,outgoing,ingoing,outgoing_nodup,ingoing_nodup⟩,admits,graph⟩

/-- Nothing that an editor is asked for breaks the invariant, as long as what is executed can be applied. -/
theorem answerAll (closed : base.graph.Closed) {rs : List Request} (allowed : e.allows rs = true) :
    Faithful base (e.answerAll rs) := by
  induction rs generalizing e with
  | nil => exact faithful
  | cons r rs ih =>
    show Faithful base ((e.answer r).answerAll rs)
    cases r with
    | adopt p => exact ih (faithful.adopt p) allowed
    | undo => exact ih ((faithful.stepBackward closed).notifyMoved _) allowed
    | redo => exact ih (faithful.stepForward.notifyMoved _) allowed
    | setClobber clobber => exact ih (faithful.report rfl rfl rfl) allowed
    | seek index =>
      have allowed : (e.answer (.seek index)).allows rs = true := allowed
      rw [answer] at allowed ⊢
      cases sought : e.seek index with
      | error err =>
        rw [sought] at allowed
        exact ih faithful allowed
      | ok d =>
        rw [sought] at allowed
        exact ih (faithful.seek closed sought) allowed
    | execute c =>
      rw [allows] at allowed
      rw [answer]
      cases executed : e.execute c with
      | error err =>
        rw [executed] at allowed
        exact ih faithful allowed
      | ok d =>
        rw [executed] at allowed
        obtain ⟨applies,allowed⟩ := Bool.and_eq_true _ _ |>.mp allowed
        exact ih (faithful.execute executed applies) allowed

/-- The automaton is like that of the commands before the cursor. -/
theorem alike (indexed : base.Indexed) :
    e.automaton.Alike (base.replay (e.history.commands.take e.history.position)) := by
  have admits := faithful.admits
  rw [History.commands,List.flatMap_append,Graph.admits_append] at admits
  rw [History.take_position]
  refine faithful.indexed.alike (indexed.replay admits.1) ?_
  rw [Automaton.graph_replay,faithful.graph]

end Faithful

/-- After whatever has been asked of an editor the cursor is within the history, and the automaton is like the one that
    the commands before it make of the automaton at the beginning, in their order. Executing one more, in the middle
    or at the end, leaves those and the new one, with an automaton like theirs; nothing else changes the list of
    commands. All that transformations come to can be executed so, where the ids suffice for it. -/
theorem replay_exact [Ids] (consistent : base.Consistent) (clobber : Bool) {rs : List Request}
    (allowed : (opened base clobber).allows rs = true) :
    ∃ e, (opened base clobber).answerAll rs = e ∧ e.history.position ≤ e.history.commands.length ∧
      e.automaton.Alike (base.replay (e.history.commands.take e.history.position)) ∧
      (∀ c d, e.execute c = .ok d → c.applies e.automaton = true →
        d.history.commands = e.history.commands.take e.history.position ++ [c] ∧
        d.history.position = d.history.commands.length ∧
        d.automaton.Alike (base.replay (e.history.commands.take e.history.position ++ [c]))) ∧
      (∀ r, (∀ c, r ≠ .execute c) → (e.answer r).history.commands = e.history.commands) ∧
      ∀ a c, a.Consistent → Offers a c → c.applies a = true := by
  have indexed := consistent.toIndexed
  have faithful := (faithful_opened indexed clobber).answerAll indexed.closed allowed
  refine ⟨_,rfl,History.position_le _,faithful.alike indexed,fun c d executed applies => ?_,fun r => commands_answer,
    fun a c good offers => offers.applies good⟩
  obtain ⟨_,done,undone⟩ := execute_eq executed
  have commands : d.history.commands = d.history.done.reverse := by
    rw [History.commands,undone,List.append_nil]
  have alike := (faithful.execute executed applies).alike indexed
  rw [History.take_position,done,List.reverse_cons,← History.take_position] at alike
  refine ⟨?_,?_,alike⟩
  · rw [commands,done,List.reverse_cons,History.take_position]
  · rw [commands,List.length_reverse]
    rfl

/-- A state and a transition to it, added in groups; the second command is taken back, sought again and at last given up
    for another one. -/
theorem replay_exact_clobbering :
    let join : Command := .group "Join" [.edit (.addState ⟨1,true⟩),
      .group "Lead there" [.edit (.addTransition ⟨⟨0,1,.char 'a'⟩,0⟩),.edit (.setFinal 0 true false)]]
    let rest : Command := .edit (.setFinal 1 false true)
    let part : Command := .edit (.removeTransition ⟨⟨0,1,.char 'a'⟩,0⟩)
    let rs : List Request :=
      [.execute join,.execute rest,.seek 0,.redo,.setClobber true,.execute part,.undo,.seek 2]
    (opened .initial false).allows rs = true ∧ ∃ e, (opened .initial false).answerAll rs = e ∧
      e.history.commands.map Command.edits = [join.edits,part.edits] ∧ e.history.position = 2 ∧
      e.automaton.Alike (Automaton.initial.replay (e.history.commands.take e.history.position)) := by
  intro join rest part rs
  have allowed : (opened .initial false).allows rs = true := by decide
  obtain ⟨e,reached,_,alike,_⟩ := replay_exact Automaton.consistent_initial false allowed
  refine ⟨allowed,e,reached,?_,?_,alike⟩
  · rw [← reached]
    decide
  · rw [← reached]
    decide

end Editor
end StepwiseAutomata
