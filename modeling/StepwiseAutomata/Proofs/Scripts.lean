import StepwiseAutomata.Proofs.Actions
import StepwiseAutomata.Proofs.Breakdown
import StepwiseAutomata.Proofs.Elimination
import StepwiseAutomata.Proofs.Epsilon
import StepwiseAutomata.Proofs.Resolution

/-!
What the actions of a session are made of. They look at the automaton and the settings, report, refuse, and perform
plans that the transformations propose for the automaton at that moment. Whatever the parts have in common, the actions
have as well.
-/
namespace StepwiseAutomata

namespace Automaton

/-- A final state and a transition to it from the start state. -/
def creating (a : Automaton) (r : Regex) : Rewriting where
  created := [⟨a.counters.nextState,true⟩]
  arcs := [⟨a.start,a.counters.nextState,r⟩]

section
variable [Ids]

theorem creation_eq (a : Automaton) (r : Regex) :
    a.creation r = (creating a r).plan a s!"Create automaton for {r}" [] := by
  rw [creation,Rewriting.plan,Rewriting.edits]
  simp [Rewriting.removals,creating]

theorem creating_fits {a : Automaton} (consistent : a.Consistent) (r : Regex) : (creating a r).Fits a where
  removed_nodup := List.nodup_nil
  removed_has := nofun
  dropped_nodup := List.nodup_nil
  dropped_flag := nofun
  dropped_other := nofun
  dropped_unused := nofun
  created_ids := rfl
  ends := by
    intro arc member s here
    rw [List.mem_singleton.mp member] at here
    rcases here with rfl | rfl
    · exact .inr ⟨consistent.closed.start_present,List.not_mem_nil⟩
    · exact .inl (List.mem_singleton_self _)
  promoted_flag := nofun

end

section
attribute [local instance] Ids.endless

theorem creation_sound {a : Automaton} (consistent : a.Consistent) (r : Regex) : (a.creation r).Sound a := by
  rw [creation_eq]
  exact Rewriting.sound consistent (creating_fits consistent r) _ _

end

end Automaton

section
variable [Ids]

/-- The plans that sessions perform. -/
inductive Automaton.Proposes (a : Automaton) : Plan → Prop
  | create {text : String} {r : Regex} : Regex.parse text = .ok (some r) → Proposes a (a.creation r)
  | breakdown {id : Nat} {t : Transition} {policy : IsolationPolicy} {p : Plan} : a.transition? id = some t →
      Breakdown.ofLabel a t policy = .ok (some p) → Proposes a p
  | merge {ctx : EpsilonContext} {state : Nat} {p : Plan} : a.mergeEquivalent ctx state = .ok p → Proposes a p
  | slide {state : Nat} {p : Plan} : a.removeEpsilon state = .ok p → Proposes a p
  | clear {state : Nat} {p : Plan} : a.removeUnreachable state = .ok p → Proposes a p
  | resolve {b b' : Bindings} {state : Nat} {p : Plan} : a.resolveState b state = .ok (some (p,b')) → Proposes a p
  | isolate {p : Plan} : a.isolateFinal = some p → Proposes a p
  | eliminate {state : Nat} {p : Plan} : a.eliminate state = .ok p → Proposes a p

/-- The labels that come out of these plans. -/
inductive Automaton.Yields (a : Automaton) : Regex → Prop
  | epsilon : Yields a .epsilon
  | parsed {text : String} {r : Regex} : Regex.parse text = .ok (some r) → Yields a r
  | old {p q : Nat} {l : Regex} : a.graph.HasArc ⟨p,q,l⟩ → Yields a l
  | part {p q : Nat} {l r : Regex} : a.graph.HasArc ⟨p,q,l⟩ → r ∈ l.children → Yields a r
  | bypass {p q state : Nat} {k l : Regex} : a.graph.HasArc ⟨p,state,k⟩ → a.graph.HasArc ⟨state,q,l⟩ →
      Yields a (bypassLabel k (a.loops? state) l)

namespace Automaton.Proposes

variable {a : Automaton} {p : Plan} (consistent : a.Consistent)
include consistent

/-- The breakdown of a transition puts arcs between its ends and new states in its place. -/
theorem breakdown_cases {id : Nat} {t : Transition} {policy : IsolationPolicy} (found : a.transition? id = some t)
    (made : Breakdown.ofLabel a t policy = .ok (some p)) : a.graph.Has t ∧ ∃ notes, p = Breakdown.replacing a t
      (Ids.series a.counters.nextState (Breakdown.expansion a t policy).1) (Breakdown.expansion a t policy).2
      notes := by
  have has : a.graph.Has t := consistent.closed.has found
  cases compound : t.label.isCompound with
  | false =>
    obtain ⟨c,label⟩ := Regex.isCompound_eq_false_iff.mp compound
    cases (Breakdown.ofLabel_char label policy).symm.trans made
  | true =>
    obtain ⟨notes,same⟩ := Breakdown.ofLabel_eq has policy compound
    cases same.symm.trans made
    exact ⟨has,notes,rfl⟩

/-- What is added has the next ids, and labels that come from the automaton or from a text. -/
theorem added (proposes : a.Proposes p) :
    ∃ arcs, Edit.added p.command.edits = a.counters.number arcs ∧ ∀ arc ∈ arcs, a.Yields arc.label := by
  have rewriting {r : Rewriting} {title : String} {notes : List Note} (yields : ∀ arc ∈ r.arcs, a.Yields arc.label) :
      ∃ arcs, Edit.added (r.plan a title notes).command.edits = a.counters.number arcs ∧
        ∀ arc ∈ arcs, a.Yields arc.label :=
    ⟨r.arcs,by rw [Rewriting.edits_plan,Rewriting.added_edits],yields⟩
  cases proposes with
  | create parsed =>
    rw [creation_eq]
    refine rewriting fun arc member => ?_
    rw [List.mem_singleton.mp member]
    exact .parsed parsed
  | breakdown found made =>
    obtain ⟨has,notes,rfl⟩ := breakdown_cases consistent found made
    rw [Breakdown.replacing_eq]
    refine rewriting fun arc member => ?_
    rcases Breakdown.label_of_mem_expansion member with same | under
    · exact same ▸ .epsilon
    · exact .part ⟨_,has,rfl⟩ under
  | merge made =>
    obtain ⟨c,_,_,_,title,notes,rfl⟩ := mergeEquivalent_cases made
    refine rewriting fun arc member => ?_
    obtain ⟨⟨t,removed,rfl⟩,_⟩ := consistent.mem_merging_arcs.mp member
    exact .old ⟨t,(consistent.mem_merging_removed.mp removed).1,rfl⟩
  | slide made =>
    obtain ⟨_,title,notes,rfl⟩ := removeEpsilon_cases made
    refine rewriting fun arc member => ?_
    obtain ⟨_,_,_,s,_,_,copied⟩ := consistent.mem_sliding_arcs.mp member
    exact .old copied
  | clear made =>
    obtain ⟨_,_,title,notes,_,rfl⟩ := removeUnreachable_cases consistent.toIndexed made
    exact rewriting nofun
  | @resolve b b' state p made =>
    obtain ⟨_,symbol,ambiguous,same⟩ := resolveState_cases made
    obtain ⟨title,notes,plan⟩ := a.resolveSymbol_eq b state symbol
    obtain ⟨q,leaving⟩ := consistent.exists_arc ambiguous
    rw [show p = _ from (congrArg Prod.fst same).trans plan]
    refine rewriting fun arc member => ?_
    cases found : b.find? a (b.resolve (a.targets state symbol)) with
    | some d =>
      rw [resolving_some found] at member
      rw [List.mem_singleton.mp member]
      exact .old leaving
    | none =>
      rw [resolving_none found] at member
      rcases List.mem_append.mp member with copy | last
      · obtain ⟨_,s,_,copied⟩ := (mem_copiesFrom consistent.toIndexed).mp copy
        exact .old copied
      · rw [List.mem_singleton.mp last]
        exact .old leaving
  | isolate made =>
    obtain ⟨title,rfl⟩ := isolateFinal_cases made
    refine ⟨a.isolationArcs,?_,fun arc member => ?_⟩
    · exact (congrArg Edit.added (Command.edits_ofEdits title _)).trans added_isolationEdits
    · obtain ⟨s,_,rfl⟩ := List.mem_map.mp member
      exact .epsilon
  | @eliminate state p made =>
    obtain ⟨_,_,title,rfl⟩ := eliminate_cases made
    refine ⟨a.detours state,?_,fun arc member => ?_⟩
    · exact (congrArg Edit.added (Command.edits_ofEdits title _)).trans (added_eliminationEdits _)
    · obtain ⟨p,q,_,_,k,l,into,leaving,rfl⟩ := consistent.mem_bypasses.mp (consistent.mem_detours.mp member).1
      exact .bypass into leaving

end Automaton.Proposes

end

section
attribute [local instance] Ids.endless

theorem Automaton.Proposes.sound {a : Automaton} {p : Plan} (consistent : a.Consistent) (proposes : a.Proposes p) :
    p.Sound a := by
  cases proposes with
  | create => exact creation_sound consistent _
  | breakdown found made =>
    obtain ⟨has,notes,rfl⟩ := breakdown_cases consistent found made
    exact Breakdown.sound consistent has _ notes
  | merge made => exact mergeEquivalent_sound consistent made
  | slide made => exact removeEpsilon_sound consistent made
  | clear made => exact removeUnreachable_sound consistent made
  | resolve made => exact resolveState_sound consistent made
  | isolate made => exact isolateFinal_sound consistent made
  | eliminate made => exact eliminate_sound consistent made

end

section
variable [Ids]

namespace Session

variable {α β : Type} {s : Session}

/-- The action reports, refuses, performs proposed plans, and otherwise looks at nothing but the automaton and the
    settings. -/
inductive Scripted : {α : Type} → Action α → Session → Prop
  | pure {α : Type} (x : α) (s : Session) : Scripted (pure x) s
  | refuse {α : Type} (e : Refusal) (s : Session) : Scripted (throw (.illegal e) : Action α) s
  | report (n : Note) (s : Session) : Scripted (modify fun s => { s with toEditor := s.toEditor.note n }) s
  | perform {p : Plan} {s : Session} : s.automaton.Proposes p → Scripted (perform p) s
  | look {α : Type} {k : Session → Action α} {s : Session} :
      (∀ t : Session, t.automaton = s.automaton → t.settings = s.settings → k t = k s) → Scripted (k s) s →
      Scripted (get >>= k) s
  | bind {α β : Type} {x : Action α} {k : α → Action β} {s : Session} : Scripted x s →
      (∀ a t, Scripted (k a) t) → Scripted (x >>= k) s

theorem Scripted.attempt {r : Except Refusal α} {k : α → Action β} (rest : ∀ a, r = .ok a → Scripted (k a) s) :
    Scripted (attempt r >>= k) s := by
  cases r with
  | ok a => exact rest a rfl
  | error e => exact .refuse e s

theorem Scripted.forM {f : α → Action Unit} {l : List α} (each : ∀ a ∈ l, ∀ t, Scripted (f a) t) (s : Session) :
    Scripted (l.forM f) s := by
  induction l generalizing s with
  | nil => exact .pure () s
  | cons a l ih =>
    exact .bind (each a List.mem_cons_self s) fun _ t => ih (fun b member => each b (List.mem_cons_of_mem a member)) t

/-- A plan that has been made is performed, or the refusal to make it is passed on. -/
theorem Scripted.carryOut {plan : Automaton → Except Refusal Plan}
    (proposes : ∀ p, plan s.automaton = .ok p → s.automaton.Proposes p) : Scripted (carryOut plan) s :=
  .look (fun _ automaton _ => by rw [automaton]) (.attempt fun p made => .perform (proposes p made))

theorem scripted_breakdownTransition (id : Nat) (s : Session) : Scripted (breakdownTransition id) s := by
  rw [breakdownTransition_eq]
  refine .look (fun t automaton settings => by rw [automaton,settings]) ?_
  cases found : s.automaton.transition? id with
  | none => exact .refuse _ s
  | some t =>
    refine .attempt fun plan made => ?_
    cases plan with
    | none => exact .pure false s
    | some p => exact .bind (.perform (.breakdown found made)) fun _ t => .pure true t

theorem scripted_breakdownFirst (steps : Nat) (s : Session) : Scripted (breakdownFirst steps) s := by
  induction steps generalizing s with
  | zero => exact .pure 0 s
  | succ steps ih =>
    refine .look (fun t automaton _ => by rw [automaton]) ?_
    cases s.automaton.transitions.find? (·.label.isCompound) with
    | none => exact .pure 0 s
    | some t =>
      refine .bind (scripted_breakdownTransition t.id s) fun _ t => ?_
      exact .bind (ih t) fun n t => .pure (n + 1) t

theorem scripted_breakdownAll (s : Session) : Scripted breakdownAll s :=
  .look (fun t automaton _ => by rw [automaton]) (scripted_breakdownFirst _ s)

theorem scripted_mergeEquivalents (s : Session) : Scripted mergeEquivalents s := by
  rw [mergeEquivalents_eq]
  refine .look (fun t automaton _ => by rw [automaton]) (.bind (.report _ s) fun _ t => .forM (fun state _ t => ?_) t)
  refine .look (fun u automaton _ => by rw [automaton]) ?_
  dsimp only
  split
  · exact .carryOut fun p made => .merge made
  · exact .pure () t

theorem scripted_removeEpsilons (s : Session) : Scripted removeEpsilons s := by
  rw [removeEpsilons_eq]
  refine .look (fun t automaton _ => by rw [automaton]) (.forM (fun state _ t => ?_) s)
  refine .look (fun u automaton _ => by rw [automaton]) ?_
  dsimp only
  split
  · exact .carryOut fun p made => .slide made
  · exact .pure () t

theorem scripted_removeEach (order : List Nat) (s : Session) : Scripted (removeEach order) s := by
  rw [removeEach_eq]
  exact .forM (fun state _ t => .carryOut fun p made => .clear made) s

theorem scripted_removeUnreachables (s : Session) : Scripted removeUnreachables s :=
  .look (fun t automaton _ => by rw [automaton]) (scripted_removeEach _ s)

theorem scripted_resolveState (state steps : Nat) (b : Bindings) (s : Session) :
    Scripted (resolveState state steps b) s := by
  induction steps generalizing b s with
  | zero => exact .pure (false,b) s
  | succ steps ih =>
    rw [resolveState_succ]
    refine .look (fun t automaton _ => by rw [automaton]) (.attempt fun resolved made => ?_)
    cases resolved with
    | none => exact .pure (false,b) s
    | some resolved => exact .bind (.perform (.resolve made)) fun _ t => .bind (ih resolved.2 t) fun _ t => .pure _ t

theorem scripted_resolveStates (states : List Nat) (b : Bindings) (s : Session) :
    Scripted (resolveStates states b) s := by
  induction states generalizing b s with
  | nil => exact .pure (false,b) s
  | cons state states ih =>
    refine .look (fun t automaton _ => by rw [automaton]) (.bind (scripted_resolveState _ _ b s) fun here t => ?_)
    exact .bind (ih here.2 t) fun there t => .pure _ t

theorem scripted_resolveRounds (rounds : Nat) (b : Bindings) (s : Session) : Scripted (resolveRounds rounds b) s := by
  induction rounds generalizing b s with
  | zero => exact .pure () s
  | succ rounds ih =>
    refine .look (fun t automaton _ => by rw [automaton]) (.bind (scripted_resolveStates _ b s) fun resolved t => ?_)
    obtain ⟨changed,b'⟩ := resolved
    cases changed with
    | true => exact ih b' t
    | false => exact .pure () t

theorem scripted_resolveAll (s : Session) : Scripted resolveAll s :=
  .look (fun t automaton _ => by rw [automaton]) (scripted_resolveRounds _ _ s)

theorem scripted_determinize (s : Session) : Scripted determinize s :=
  .bind (scripted_breakdownAll s) fun _ t => .bind (scripted_mergeEquivalents t) fun _ t =>
    .bind (scripted_removeEpsilons t) fun _ t => .bind (scripted_removeUnreachables t) fun _ t =>
      .bind (scripted_resolveAll t) fun _ t => scripted_removeUnreachables t

theorem scripted_isolate (s : Session) : Scripted isolate s := by
  rw [isolate_eq]
  refine .look (fun t automaton _ => by rw [automaton]) ?_
  cases made : s.automaton.isolateFinal with
  | none => exact .pure () s
  | some p => exact .perform (.isolate made)

theorem scripted_eliminateEach (order : List Nat) (s : Session) : Scripted (eliminateEach order) s := by
  rw [eliminateEach_eq]
  exact .forM (fun state _ t => .carryOut fun p made => .eliminate made) s

theorem scripted_toRegex (s : Session) : Scripted toRegex s := by
  rw [toRegex_eq]
  refine .bind (scripted_isolate s) fun _ t =>
    .look (fun u automaton _ => by rw [automaton]) (.bind (scripted_eliminateEach _ t) fun _ t => ?_)
  exact .look (fun u automaton settings => by rw [automaton,settings]) (.attempt fun r _ => .pure _ t)

end Session

namespace Editor

/-- One thing that an action does: it reports, takes the ids of a plan whose command is refused, or performs a plan. -/
inductive Act : Editor → Editor → Prop
  | report {e d : Editor} : d.automaton = e.automaton → d.history = e.history → Act e d
  | refuse {e : Editor} {p : Plan} {err : Error} : e.automaton.Proposes p →
      (e.adopt p).execute p.command = .error err → Act e (e.adopt p)
  | perform {e d : Editor} {p : Plan} : e.automaton.Proposes p → (e.adopt p).execute p.command = .ok d → Act e d

/-- What actions do, and moves of the cursor by one command. -/
inductive Step : Editor → Editor → Prop
  | act {e d : Editor} : Act e d → Step e d
  | forward (e : Editor) : Step e e.stepForward
  | backward (e : Editor) : Step e e.stepBackward

def Acts : Editor → Editor → Prop := Relation.ReflTransGen Act
def Steps : Editor → Editor → Prop := Relation.ReflTransGen Step

variable {e d : Editor}

theorem Acts.steps (acts : e.Acts d) : e.Steps d := Relation.ReflTransGen.mono (fun _ _ act => Step.act act) _ _ acts

theorem acts_notifyMoved (e : Editor) (position : Nat) : e.Acts (e.notifyMoved position) := by
  unfold notifyMoved
  split
  · exact .refl
  · exact .single (.report rfl rfl)

theorem steps_steps {step : Editor → Editor} (each : ∀ e, Step e (step e)) (n : Nat) (e : Editor) :
    e.Steps (steps step n e) := by
  induction n generalizing e with
  | zero => exact .refl
  | succ n ih => exact .head (each e) (ih (step e))

theorem steps_undo (e : Editor) : e.Steps e.undo :=
  (Relation.ReflTransGen.single (.backward e)).trans (acts_notifyMoved _ _).steps

theorem steps_redo (e : Editor) : e.Steps e.redo :=
  (Relation.ReflTransGen.single (.forward e)).trans (acts_notifyMoved _ _).steps

theorem steps_seek {index : Nat} (sought : e.seek index = .ok d) : e.Steps d := by
  unfold seek at sought
  simp only at sought
  split at sought
  · cases sought
  · cases sought
    exact ((steps_steps .forward _ e).trans (steps_steps .backward _ _)).trans (acts_notifyMoved _ _).steps

end Editor

/-- All that a scripted action does is such a chain, also when it fails. -/
theorem Session.Scripted.acts {α : Type} {x : Session.Action α} {s : Session} (scripted : Scripted x s) :
    s.Acts (x.run s).2.toEditor := by
  induction scripted with
  | pure x s => exact .refl
  | refuse e s => exact .refl
  | report n s => exact .single (.report rfl rfl)
  | @perform p s proposes =>
    rw [run_perform]
    cases result : (s.adopt p).execute p.command with
    | ok d => exact .single (.perform proposes result)
    | error e => exact .single (.refuse proposes result)
  | look _ _ ih => exact ih
  | @bind α β x k s _ _ first rest =>
    rw [run_bind]
    rcases result : x.run s with ⟨r,t⟩
    rw [result] at first
    cases r with
    | ok a => exact Relation.ReflTransGen.trans first (rest a t)
    | error e => exact first

end

section
attribute [local instance] Ids.endless

namespace Editor

variable {e d : Editor}

/-- In a coherent editor whatever an action does is a chain of moves in which commands fit. -/
theorem Coherent.act (coherent : e.Coherent) (act : Act e d) : e.Moves d := by
  cases act with
  | report automaton history => exact .single (.report automaton history)
  | refuse proposes _ => exact (coherent.perform (proposes.sound coherent.consistent)).1
  | perform proposes executed => exact (coherent.perform (proposes.sound coherent.consistent)).2 d executed

theorem Coherent.step (coherent : e.Coherent) (step : Step e d) : e.Moves d := by
  cases step with
  | act act => exact coherent.act act
  | forward => exact coherent.stepForward
  | backward => exact coherent.stepBackward

theorem Coherent.moves_of_steps (coherent : e.Coherent) (steps : e.Steps d) : e.Moves d := by
  induction steps with
  | refl => exact .refl
  | tail _ step ih => exact ih.trans ((coherent.moves ih).step step)

end Editor

end

end StepwiseAutomata
