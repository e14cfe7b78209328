import StepwiseAutomata.Proofs.Extraction
import StepwiseAutomata.Proofs.Preparation
import StepwiseAutomata.Proofs.Rounds

namespace StepwiseAutomata

section
variable [Ids]

/-- Every plan that is performed is what some transformation comes to. -/
theorem Automaton.Proposes.transformation {a : Automaton} {p : Plan} (proposes : a.Proposes p) :
    ∃ (x : Transformation) (b b' : Bindings), x.plan a b = .ok (some (p,b')) := by
  cases proposes with
  | @create _ r => exact ⟨.creation r,{},{},rfl⟩
  | @breakdown _ t policy _ _ made => exact ⟨.breakdown t policy,{},{},by rw [Transformation.plan,made]; rfl⟩
  | @merge ctx state _ made => exact ⟨.mergeEquivalent ctx state,{},{},by rw [Transformation.plan,made]; rfl⟩
  | @slide state _ made => exact ⟨.removeEpsilon state,{},{},by rw [Transformation.plan,made]; rfl⟩
  | @clear state _ made => exact ⟨.removeUnreachable state,{},{},by rw [Transformation.plan,made]; rfl⟩
  | @resolve b b' state _ made => exact ⟨.resolveState state,b,b',made⟩
  | isolate made => exact ⟨.isolateFinal,{},{},by rw [Transformation.plan,made]; rfl⟩
  | @eliminate state _ made => exact ⟨.eliminate state,{},{},by rw [Transformation.plan,made]; rfl⟩

theorem Editor.Act.position_le {e d : Editor} (act : Act e d) : e.history.position ≤ d.history.position := by
  cases act with
  | report _ history => rw [history]
  | refuse => exact Nat.le_refl _
  | perform _ executed =>
    rw [History.position,History.position,(execute_eq executed).2.1]
    exact Nat.le_succ _

theorem Editor.Acts.position_le {e d : Editor} (acts : e.Acts d) : e.history.position ≤ d.history.position := by
  induction acts with
  | refl => exact Nat.le_refl _
  | tail _ act ih => exact ih.trans act.position_le

end

namespace Session

variable {α : Type} {s t : Session}

/-- The cursor is in the middle of a history that may not be clobbered. -/
def Blocked (s : Session) : Prop := s.history.undone ≠ [] ∧ s.history.clobber = false

theorem ready_or_blocked (s : Session) : s.Ready ∨ s.Blocked := by
  by_cases last : s.history.undone = []
  · exact .inl (.inl last)
  · cases clobber : s.history.clobber with
    | true => exact .inl (.inr clobber)
    | false => exact .inr ⟨last,clobber⟩

/-- The session if its history might be clobbered. -/
def freed (s : Session) : Session := { s with toEditor := s.setClobber true }

theorem ready_freed (s : Session) : s.freed.Ready := .inr rfl

/-- All is as it was but for notes. -/
structure Noted (s t : Session) : Prop where
  automaton : t.automaton = s.automaton
  history : t.history = s.history
  events : t.events = s.events
  settings : t.settings = s.settings

theorem Noted.trans {u : Session} (first : Noted s t) (second : Noted t u) : Noted s u :=
  ⟨second.automaton.trans first.automaton,second.history.trans first.history,second.events.trans first.events,
    second.settings.trans first.settings⟩

theorem Noted.blocked (noted : Noted s t) (blocked : s.Blocked) : t.Blocked := by
  rw [Blocked,noted.history]
  exact blocked

/-- A plan has its ids taken, and its command is refused. -/
theorem run_perform_blocked (blocked : s.Blocked) (p : Plan) : (perform p).run s =
    (.error (.notAtHistoryEnd s.history.position s.history.size),{ s with toEditor := s.adopt p }) := by
  have some : s.history.undone.isEmpty = false := by
    rw [List.isEmpty_eq_false_iff]
    exact blocked.1
  have refused : (s.adopt p).execute p.command = .error (.notAtHistoryEnd s.history.position s.history.size) := by
    unfold Editor.execute
    rw [if_neg (show ¬(s.adopt p).history.undone.isEmpty = true from some ▸ Bool.false_ne_true),
      if_neg (show ¬(s.adopt p).history.clobber = true from blocked.2 ▸ Bool.false_ne_true)]
    rfl
  rw [run_perform,refused]

section
variable [Ids]

/-- All is as it was but for notes, and ids may have been taken. -/
structure Held (s t : Session) : Prop where
  counters : ∃ states transitions, t.automaton.counters = s.automaton.counters.advance states transitions
  automaton : t.automaton = { s.automaton with counters := t.automaton.counters }
  history : t.history = s.history
  events : t.events = s.events
  settings : t.settings = s.settings

theorem Noted.held {u : Session} (noted : Noted s t) (held : Held t u) : Held s u where
  counters := noted.automaton ▸ held.counters
  automaton := by rw [held.automaton,noted.automaton]
  history := held.history.trans noted.history
  events := held.events.trans noted.events
  settings := held.settings.trans noted.settings

theorem held_adopt {p : Plan} (proposes : s.automaton.Proposes p) : Held s { s with toEditor := s.adopt p } := by
  obtain ⟨x,b,b',planned⟩ := proposes.transformation
  exact ⟨⟨_,_,(Transformation.numbered planned).1.counters⟩,rfl,rfl,rfl,rfl⟩

/-- The action fails for want of a command that would be executed were the history free to be clobbered. -/
structure Stopped (x : Action α) (s : Session) (e : Error) (t : Session) : Prop where
  error : e = .notAtHistoryEnd s.history.position s.history.size
  held : Held s t
  needed : s.history.position < (x.run s.freed).2.history.position

/-- Either the action is stopped, or it comes to the same as if the history might be clobbered and leaves nothing but
    notes. -/
theorem Scripted.stopped_or_same {x : Action α} (scripted : Scripted x s) (blocked : s.Blocked) :
    (∃ e t, x.run s = (.error e,t) ∧ Stopped x s e t) ∨
      ∃ r t, x.run s = (r,t) ∧ Noted s t ∧ x.run s.freed = (r,t.freed) ∧ ∀ i n, r ≠ .error (.notAtHistoryEnd i n) := by
  induction scripted with
  | pure x s => exact .inr ⟨_,s,rfl,⟨rfl,rfl,rfl,rfl⟩,rfl,nofun⟩
  | refuse e s => exact .inr ⟨_,s,rfl,⟨rfl,rfl,rfl,rfl⟩,rfl,nofun⟩
  | report n s => exact .inr ⟨_,_,rfl,⟨rfl,rfl,rfl,rfl⟩,rfl,nofun⟩
  | @perform p s proposes =>
    refine .inl ⟨_,_,run_perform_blocked blocked p,rfl,held_adopt proposes,?_⟩
    obtain ⟨_,u,executed,performed⟩ := completes_perform s.ready_freed p
    rw [executed,History.position,History.position,performed.done]
    exact Nat.lt_succ_self _
  | @look α k s only _ ih =>
    have free : (get >>= k).run s.freed = (k s).run s.freed := by
      rw [run_get,only s.freed rfl rfl]
    rw [run_get,free]
    rcases ih blocked with ⟨e,t,ran,error,held,needed⟩ | same
    · exact .inl ⟨e,t,ran,error,held,free ▸ needed⟩
    · exact .inr same
  | @bind α β x k s _ rest ihFirst ihRest =>
    rcases ihFirst blocked with ⟨e,t,ran,error,held,needed⟩ | ⟨r,t,ran,noted,same,other⟩
    · refine .inl ⟨e,t,by rw [run_bind,ran],error,held,Nat.lt_of_lt_of_le needed ?_⟩
      -- What comes after the first part of the free run only goes on.
      rw [run_bind]
      rcases x.run s.freed with ⟨r,u⟩
      cases r with
      | ok a => exact (rest a u).acts.position_le
      | error e => exact Nat.le_refl _
    · cases r with
      | error e =>
        refine .inr ⟨_,t,by rw [run_bind,ran],noted,by rw [run_bind,same],fun i n failed => ?_⟩
        cases failed
        exact other i n rfl
      | ok a =>
        have before := run_bind_ok ran k
        have later := run_bind_ok same k
        rcases ihRest a t (noted.blocked blocked) with ⟨e,u,ran,error,held,needed⟩ | ⟨r,u,ran,more,same,other⟩
        · refine .inl ⟨e,u,before.trans ran,?_,noted.held held,?_⟩
          · rw [error,noted.history]
          · rw [later,← noted.history]
            exact needed
        · exact .inr ⟨r,u,before.trans ran,noted.trans more,later.trans same,other⟩

/-- An action that always completes where commands can be executed fails nowhere else but where it is stopped. -/
theorem Scripted.stopped {x : Action α} (scripted : Scripted x s)
    (completes : ∀ t : Session, t.automaton = s.automaton → t.Ready → Completes x t fun _ _ => True) {e : Error}
    (failed : x.run s = (.error e,t)) : s.Blocked ∧ Stopped x s e t := by
  rcases s.ready_or_blocked with ready | blocked
  · obtain ⟨a,u,ran,_⟩ := completes s rfl ready
    rw [ran] at failed
    cases failed
  · refine ⟨blocked,?_⟩
    rcases scripted.stopped_or_same blocked with ⟨e',t',ran,stopped⟩ | ⟨r,t',ran,_,same,_⟩
    · cases ran.symm.trans failed
      exact stopped
    · obtain ⟨a,u,complete,_⟩ := completes s.freed rfl s.ready_freed
      cases same.symm.trans complete
      cases ran.symm.trans failed

end

section
attribute [local instance] Ids.endless

/-- While states are eliminated, the final state stays isolated and the others of the list are left. -/
structure Emptying (order : List Nat) (t : Session) : Prop where
  consistent : t.automaton.Consistent
  ready : t.Ready
  isolated : t.automaton.graph.Isolated
  pending : t.automaton.Pending order

theorem Emptying.isolate (consistent : s.automaton.Consistent) (ready : s.Ready) :
    Completes isolate s fun _ t => Emptying t.automaton.eliminable t := by
  have pending (a : Automaton) : a.Pending a.eliminable := ⟨a.eliminable_nodup,fun _ => Iff.rfl⟩
  rw [isolate_eq]
  refine completes_get ?_
  cases made : s.automaton.isolateFinal with
  | none => exact completes_pure ⟨consistent,ready,consistent.isolated_of_isolateFinal made,pending _⟩
  | some p =>
    refine (completes_perform ready p).imp fun _ t performed => ?_
    have sound := Automaton.isolateFinal_sound consistent made
    obtain ⟨title,rfl⟩ := Automaton.isolateFinal_cases made
    have graph : t.automaton.graph = s.automaton.graph.editAll s.automaton.isolationEdits := by
      rw [performed.graph]
      exact congrArg s.automaton.graph.editAll (Command.edits_ofEdits title _)
    exact ⟨performed.automaton ▸ consistent.perform sound,.inl performed.undone,
      graph ▸ consistent.isolated_isolationEdits,pending _⟩

theorem Emptying.eliminate {state : Nat} {order : List Nat} (start : Emptying (state :: order) t) :
    Completes (carryOut (·.eliminate state)) t fun _ u => Emptying order u := by
  obtain ⟨flag,other⟩ := Automaton.mem_eliminable.mp ((start.pending.mem_iff state).mp List.mem_cons_self)
  have made := Automaton.eliminate_eq flag other
  refine (completes_carryOut start.ready made).imp fun _ u performed => ?_
  have sound := Automaton.eliminate_sound start.consistent made
  have graph : u.automaton.graph = t.automaton.graph.editAll (t.automaton.eliminationEdits ⟨state,false⟩) := by
    rw [performed.graph]
    exact congrArg t.automaton.graph.editAll (Command.edits_ofEdits _ _)
  exact ⟨performed.automaton ▸ start.consistent.perform sound,.inl performed.undone,
    graph ▸ Automaton.isolated_eliminationEdits start.consistent other flag start.isolated,start.pending.step graph⟩

section
variable (consistent : s.automaton.Consistent) (u : Session) (same : u.automaton = s.automaton) (ready : u.Ready)
include consistent same ready

end

end

section
variable [Ids]

end

end Session
end StepwiseAutomata
