import StepwiseAutomata.Proofs.History

namespace StepwiseAutomata.Session

variable {α β : Type} {s : Session}

theorem run_get (k : Session → Action α) (s : Session) : (get >>= k).run s = (k s).run s := rfl

theorem action_ext {x y : Action α} (same : ∀ s, x.run s = y.run s) : x = y := funext same

theorem run_execute (c : Command) (s : Session) : (execute c).run s =
    match s.toEditor.execute c with
    | .ok e => (.ok (),{ s with toEditor := e })
    | .error err => (.error err,s) := by
  rw [execute,run_get]
  cases s.toEditor.execute c <;> rfl

/-- Takes the ids of a plan. -/
def adopting (p : Plan) : Action Unit := modify fun s => { s with toEditor := s.adopt p }

/-- Takes the ids of a plan and executes its command. -/
def perform (p : Plan) : Action Unit := do
  adopting p
  execute p.command

theorem run_perform (p : Plan) (s : Session) : (perform p).run s =
    match (s.adopt p).execute p.command with
    | .ok e => (.ok (),{ s with toEditor := e })
    | .error err => (.error err,{ s with toEditor := s.adopt p }) :=
  run_execute p.command { s with toEditor := s.adopt p }

theorem run_makeWith (b : Bindings) (x : Builder α) (s : Session) : (makeWith b x).run s =
    ((x.run ⟨s.automaton,b,s.notes⟩).1.mapError Error.illegal |>.map (·,(x.run ⟨s.automaton,b,s.notes⟩).2.bindings),
      { s with
        automaton := (x.run ⟨s.automaton,b,s.notes⟩).2.automaton
        notes := (x.run ⟨s.automaton,b,s.notes⟩).2.notes }) := by
  rw [makeWith,run_get]
  rcases x.run ⟨s.automaton,b,s.notes⟩ with ⟨made,w⟩
  cases made <;> rfl

/-- What a builder makes that follows a plan. -/
theorem make_eq {x : Builder Command} {plan : Automaton → Except Refusal Plan}
    (follows : ∀ w, x.run w = w.follow (plan w.automaton)) : make x = do
      let p ← attempt (plan (← get).automaton)
      adopting p
      return p.command := by
  refine action_ext fun s => ?_
  rw [make,run_bind,run_makeWith,follows,run_get]
  cases plan s.automaton <;> rfl

theorem makeWith_eq {x : Builder (Option Command)}
    {plan : Automaton → Bindings → Except Refusal (Option (Plan × Bindings))}
    (follows : ∀ w, x.run w = w.followSome (plan w.automaton w.bindings)) (b : Bindings) : makeWith b x = do
      match ← attempt (plan (← get).automaton b) with
      | none => return (none,b)
      | some (p,b) =>
        adopting p
        return (some p.command,b) := by
  refine action_ext fun s => ?_
  rw [run_makeWith,follows,run_get]
  rcases plan s.automaton b with e | _ | made <;> rfl

/-- The command of a plan is made and executed. -/
def carryOut (plan : Automaton → Except Refusal Plan) : Action Unit := do
  perform (← attempt (plan (← get).automaton))

theorem issue_eq {x : Builder Command} (plan : Automaton → Except Refusal Plan)
    (follows : ∀ w, x.run w = w.follow (plan w.automaton)) : issue x = carryOut plan := by
  rw [issue,make_eq follows,carryOut]
  simp only [bind_assoc,pure_bind]
  rfl

theorem removeEach_eq (order : List Nat) :
    removeEach order = order.forM fun state => carryOut (·.removeUnreachable state) :=
  congrArg order.forM (funext fun state => issue_eq (·.removeUnreachable state) (Builder.run_removeUnreachable · state))

section
variable [Ids]

theorem breakdownTransition_eq (id : Nat) : breakdownTransition id = (do
    let s ← get
    match s.automaton.transition? id with
    | none => throw (.illegal (.noTransition id))
    | some t =>
      match ← attempt (Breakdown.ofLabel s.automaton t s.settings.isolation) with
      | none => return false
      | some plan =>
        perform plan
        return true) := by
  refine action_ext fun s => ?_
  rw [breakdownTransition,run_get,run_get]
  cases s.automaton.transition? id with
  | none => rfl
  | some t =>
    simp only
    rw [make,@makeWith_eq _ (fun a b => (Breakdown.ofLabel a t s.settings.isolation).map fun made => made.map (·,b))
      (Builder.run_breakdown · t s.settings.isolation),bind_assoc,bind_assoc,run_get]
    rcases Breakdown.ofLabel s.automaton t s.settings.isolation with e | _ | p
    · rfl
    · rfl
    · rfl

theorem mergeEquivalents_eq : mergeEquivalents = (do
    let a := (← get).automaton
    let ctx := EpsilonContext.ofAutomaton a
    modify fun s => { s with toEditor := s.note (.epsilonClasses ctx.classes) }
    (stateOrder a).forM fun state => do
      let a := (← get).automaton
      if a.hasState state && ctx.hasEquivalent a state then
        carryOut (·.mergeEquivalent ctx state)) := by
  have each (ctx : EpsilonContext) (state : Nat) : issue (Builder.mergeEquivalent ctx state) =
      carryOut (·.mergeEquivalent ctx state) :=
    issue_eq (·.mergeEquivalent ctx state) (Builder.run_mergeEquivalent · ctx state)
  simp only [mergeEquivalents,each]

theorem removeEpsilons_eq : removeEpsilons = (do
    (stateOrder (← get).automaton).forM fun state => do
      let a := (← get).automaton
      if (a.outgoing state).any (·.isEpsilon) then
        carryOut (·.removeEpsilon state)) := by
  have each (state : Nat) : issue (Builder.removeEpsilon state) = carryOut (·.removeEpsilon state) :=
    issue_eq (·.removeEpsilon state) (Builder.run_removeEpsilon · state)
  simp only [removeEpsilons,each]

theorem resolveState_succ (state steps : Nat) (b : Bindings) : resolveState state (steps + 1) b = (do
    match ← attempt ((← get).automaton.resolveState b state) with
    | none => return (false,b)
    | some (plan,b) =>
      perform plan
      let (_,b) ← resolveState state steps b
      return (true,b)) := by
  refine action_ext fun s => ?_
  rw [resolveState,@makeWith_eq _ (fun a b => a.resolveState b state) (Builder.run_resolveState · state),bind_assoc,
    run_get,run_get]
  rcases s.automaton.resolveState b state with e | _ | made
  · rfl
  · rfl
  · rfl

theorem isolate_eq : isolate = (do
    match (← get).automaton.isolateFinal with
    | some plan => perform plan
    | none => return ()) := by
  refine action_ext fun s => ?_
  rw [isolate,make,@makeWith_eq _ (fun a b => .ok (a.isolateFinal.map (·,b))) Builder.run_isolateFinal,bind_assoc,
    bind_assoc,run_get,run_get]
  cases s.automaton.isolateFinal with
  | none => rfl
  | some p => rfl

theorem eliminateEach_eq (order : List Nat) :
    eliminateEach order = order.forM fun state => carryOut (·.eliminate state) :=
  congrArg order.forM (funext fun state => issue_eq (·.eliminate state) (Builder.run_eliminate · state))

/-- Reads the expression that is left. -/
def answer : Action (Option Regex) := do
  let s ← get
  let r ← attempt s.automaton.extract
  return if s.settings.optimiseExtracted then r.map Regex.optimise else r

theorem toRegex_eq : toRegex = isolate >>= fun _ => get >>= fun s =>
    eliminateEach s.automaton.eliminable >>= fun _ => answer := rfl

end

/-- The action returns a value, which together with the session after it is as said. -/
def Completes (x : Action α) (s : Session) (post : α → Session → Prop) : Prop :=
  ∃ a t, x.run s = (.ok a,t) ∧ post a t

theorem completes_pure {a : α} {post : α → Session → Prop} (holds : post a s) : Completes (pure a) s post :=
  ⟨a,s,rfl,holds⟩

theorem completes_get {k : Session → Action α} {post : α → Session → Prop} (rest : Completes (k s) s post) :
    Completes (get >>= k) s post := rest

theorem completes_attempt {r : Except Refusal α} {a : α} {k : α → Action β} {post : β → Session → Prop}
    (made : r = .ok a) (rest : Completes (k a) s post) : Completes (attempt r >>= k) s post := by
  rw [made]
  exact rest

theorem Completes.bind {x : Action α} {k : α → Action β} {mid : α → Session → Prop} {post : β → Session → Prop}
    (first : Completes x s mid) (rest : ∀ a t, mid a t → Completes (k a) t post) : Completes (x >>= k) s post := by
  obtain ⟨a,t,result,holds⟩ := first
  obtain ⟨b,u,last,holds⟩ := rest a t holds
  exact ⟨b,u,(run_bind_ok result k).trans last,holds⟩

theorem Completes.imp {x : Action α} {post post' : α → Session → Prop} (completes : Completes x s post)
    (weaken : ∀ a t, post a t → post' a t) : Completes x s post' := by
  obtain ⟨a,t,result,holds⟩ := completes
  exact ⟨a,t,result,weaken a t holds⟩

/-- What an action that completes came to can be told of it as well. -/
theorem Completes.run {x : Action α} {post : α → Session → Prop} (completes : Completes x s post) :
    Completes x s fun a t => x.run s = (.ok a,t) ∧ post a t := by
  obtain ⟨a,t,result,holds⟩ := completes
  exact ⟨a,t,result,result,holds⟩

/-- A command can be executed: the cursor is at the end of the history, or what is after it may be clobbered. -/
def Ready (s : Session) : Prop := s.history.undone = [] ∨ s.history.clobber = true

/-- The plan has been carried out on the first session, which has become the second. -/
structure Performed (p : Plan) (s t : Session) : Prop where
  automaton : t.automaton = s.automaton.perform p
  done : t.history.done = p.command :: s.history.done
  undone : t.history.undone = []
  settings : t.settings = s.settings

theorem Performed.graph {p : Plan} {t : Session} (performed : Performed p s t) :
    t.automaton.graph = s.automaton.graph.editAll p.command.edits := by
  rw [performed.automaton,Automaton.graph_perform]

theorem Performed.start {p : Plan} {t : Session} (performed : Performed p s t) :
    t.automaton.start = s.automaton.start := by
  rw [← Automaton.start_graph,performed.graph,Graph.start_editAll,Automaton.start_graph]

theorem performed_of_run {p : Plan} {t : Session} (ran : (perform p).run s = (.ok (),t)) : Performed p s t := by
  rw [run_perform] at ran
  cases executed : (s.adopt p).execute p.command with
  | error err => rw [executed] at ran; cases ran
  | ok e =>
    rw [executed] at ran
    cases ran
    obtain ⟨automaton,done,undone⟩ := Editor.execute_eq executed
    exact ⟨automaton,done,undone,rfl⟩

theorem completes_perform (ready : s.Ready) (p : Plan) : Completes (perform p) s fun _ t => Performed p s t := by
  have executed : ∃ e, (s.adopt p).execute p.command = .ok e := by
    unfold Editor.execute
    split
    · exact ⟨_,rfl⟩
    · rename_i some
      have clobber : s.history.clobber = true :=
        ready.resolve_left fun none => some (List.isEmpty_iff.mpr none)
      rw [if_pos (show (s.adopt p).history.clobber = true from clobber)]
      exact ⟨_,rfl⟩
  obtain ⟨e,executed⟩ := executed
  have ran : (perform p).run s = (.ok (),{ s with toEditor := e }) := by rw [run_perform,executed]
  exact ⟨(),_,ran,performed_of_run ran⟩

theorem completes_carryOut {plan : Automaton → Except Refusal Plan} {p : Plan} (ready : s.Ready)
    (planned : plan s.automaton = .ok p) : Completes (carryOut plan) s fun _ t => Performed p s t :=
  completes_get (completes_attempt planned (completes_perform ready p))

end StepwiseAutomata.Session
