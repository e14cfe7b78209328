import StepwiseAutomata.Proofs.Actions

/-!
Ids that come to an end are given out again. As long as that does not happen, nothing tells them from ids without an
end. What is shown of the latter then holds whatever the ids are, where these suffice.
-/
namespace StepwiseAutomata

variable {σ ε α β : Type}

/-- If ids never come to an end, no counter is ever put back. Other ids do not make a difference where they suffice. -/
structure Ids.Agree [Ids] (counters : σ → Counters) (x : [Ids] → ExceptT ε (StateM σ) α) : Prop where
  grows (s : σ) : counters s ≤ counters ((@x Ids.endless).run s).2
  run {s : σ} (room : Ids.Suffice (counters (x.run s).2)) : x.run s = (@x Ids.endless).run s

namespace Ids.Agree

variable [Ids] {counters : σ → Counters}

/-- What takes no ids and puts no counter back. -/
theorem fixed {x : ExceptT ε (StateM σ) α} (grows : ∀ s, counters s ≤ counters (x.run s).2) :
    Ids.Agree counters x := ⟨grows,fun _ => rfl⟩

theorem pure (a : α) : Ids.Agree (ε := ε) counters (Pure.pure a) := fixed fun _ => Counters.le_refl _

theorem throw (e : ε) : Ids.Agree counters (MonadExcept.throw e : [Ids] → ExceptT ε (StateM σ) α) :=
  fixed fun _ => Counters.le_refl _

theorem bind {x : [Ids] → ExceptT ε (StateM σ) α} {k : [Ids] → α → ExceptT ε (StateM σ) β}
    (first : Ids.Agree counters x) (rest : ∀ a, Ids.Agree counters (k a)) : Ids.Agree counters (x >>= k) := by
  have both (s : σ) : counters s ≤ counters ((@x Ids.endless >>= @k Ids.endless).run s).2 ∧
      ((counters ((@x Ids.endless >>= @k Ids.endless).run s).2).Fits →
        (x >>= k).run s = (@x Ids.endless >>= @k Ids.endless).run s) := by
    have grows : counters s ≤ counters ((@x Ids.endless).run s).2 := first.grows s
    have same : (counters ((@x Ids.endless).run s).2).Fits → x.run s = (@x Ids.endless).run s := first.run
    rw [run_bind,run_bind]
    generalize (@x Ids.endless).run s = ended at grows same ⊢
    obtain ⟨r,t⟩ := ended
    cases r with
    | error e => exact ⟨grows,fun room => by rw [same room]⟩
    | ok a =>
      have later := (rest a).grows t
      refine ⟨Counters.le_trans grows later,fun room => ?_⟩
      rw [same (room.mono later)]
      exact (rest a).run room
  exact ⟨fun s => (both s).1,fun room => (both _).2 room⟩

theorem get_bind {k : [Ids] → σ → ExceptT ε (StateM σ) β} (rest : ∀ s, Ids.Agree counters (k s)) :
    Ids.Agree counters (get >>= k) := ⟨fun s => (rest s).grows s,fun room => (rest _).run room⟩

theorem map {x : [Ids] → ExceptT ε (StateM σ) α} (agree : Ids.Agree counters x) (f : α → β) :
    Ids.Agree counters (f <$> x) := by
  simp only [← bind_pure_comp]
  exact agree.bind fun a => pure (f a)

theorem ite {p : Prop} [Decidable p] {x y : [Ids] → ExceptT ε (StateM σ) α} (pos : Ids.Agree counters x)
    (neg : Ids.Agree counters y) : Ids.Agree counters (if p then x else y) := by
  by_cases holds : p
  · simp only [if_pos holds]
    exact pos
  · simp only [if_neg holds]
    exact neg

theorem mapM {f : [Ids] → α → ExceptT ε (StateM σ) β} (each : ∀ a, Ids.Agree counters (f a)) (l : List α) :
    Ids.Agree counters (l.mapM f) := by
  induction l with
  | nil => exact pure []
  | cons a l ih =>
    simp only [List.mapM_cons]
    exact (each a).bind fun b => ih.bind fun bs => pure (b :: bs)

theorem forM {f : [Ids] → α → ExceptT ε (StateM σ) PUnit} (each : ∀ a, Ids.Agree counters (f a)) (l : List α) :
    Ids.Agree counters (l.forM f) := by
  induction l with
  | nil => exact pure ()
  | cons a l ih => exact (each a).bind fun _ => ih

end Ids.Agree

namespace Builder

open Ids.Agree

section
variable [Ids]

theorem agree_newState : Ids.Agree (·.automaton.counters) newState where
  grows w := ⟨Nat.le_succ _,Nat.le_refl _⟩
  run {w} room := by
    have after : Ids.after w.automaton.counters.nextState = w.automaton.counters.nextState + 1 :=
      room.1 _ (Nat.lt_succ_self _)
    exact congrArg (fun next => ((.ok w.automaton.counters.nextState : Except Refusal Nat),
      ({ w with automaton.counters.nextState := next } : Workbench))) after

theorem agree_newTransition (arc : Arc) : Ids.Agree (·.automaton.counters) (newTransition arc) where
  grows w := ⟨Nat.le_refl _,Nat.le_succ _⟩
  run {w} room := by
    have after : Ids.after w.automaton.counters.nextTransition = w.automaton.counters.nextTransition + 1 :=
      room.2 _ (Nat.lt_succ_self _)
    exact congrArg (fun next => ((.ok { arc with id := w.automaton.counters.nextTransition } : Except Refusal Transition),
      ({ w with automaton.counters.nextTransition := next } : Workbench))) after

theorem agree_newStates (n : Nat) : Ids.Agree (·.automaton.counters) (newStates n) :=
  mapM (fun _ => agree_newState) _

theorem agree_newTransitions (arcs : List Arc) : Ids.Agree (·.automaton.counters) (newTransitions arcs) :=
  mapM agree_newTransition arcs

theorem agree_automaton : Ids.Agree (·.automaton.counters) automaton := fixed fun _ => Counters.le_refl _

theorem agree_bindings : Ids.Agree (·.automaton.counters) bindings := fixed fun _ => Counters.le_refl _

theorem agree_note (n : Note) : Ids.Agree (·.automaton.counters) (note n) := fixed fun _ => Counters.le_refl _

section
variable (t : Transition)

theorem agree_requirePresent : Ids.Agree (·.automaton.counters) (requirePresent t) :=
  agree_automaton.bind fun a => by
    split
    · exact pure ()
    · exact throw _

theorem agree_replace (states : List Nat) (arcs : List Arc) :
    Ids.Agree (·.automaton.counters) (replace t states arcs) :=
  (agree_newTransitions arcs).bind fun _ => pure _

theorem agree_choice : Ids.Agree (·.automaton.counters) (choice t) := by
  refine (agree_requirePresent t).bind fun _ => ?_
  cases t.label with
  | choice rs => exact agree_replace t [] _
  | _ => exact throw _

theorem agree_sequence : Ids.Agree (·.automaton.counters) (sequence t) := by
  refine (agree_requirePresent t).bind fun _ => ?_
  cases t.label with
  | seq rs => exact (agree_newStates _).bind fun states => agree_replace t states _
  | _ => exact throw _

theorem agree_loop (level : Isolation) (isStar : Bool) (body : Regex) :
    Ids.Agree (·.automaton.counters) (loop t level isStar body) := by
  refine agree_automaton.bind fun a => ite ((agree_note _).bind fun _ => ?_) (throw _)
  obtain ⟨atSource,atTarget⟩ := level
  cases atSource with
  | false => cases atTarget with
    | false => exact agree_replace t [] _
    | true => exact agree_newState.bind fun last => agree_replace t [last] _
  | true => cases atTarget with
    | false => exact agree_newState.bind fun first => agree_replace t [first] _
    | true => exact agree_newState.bind fun first => agree_newState.bind fun last => agree_replace t [first,last] _

theorem agree_iteration (level : Isolation) : Ids.Agree (·.automaton.counters) (iteration t level) := by
  refine (agree_requirePresent t).bind fun _ => ?_
  cases t.label with
  | quant q r => cases q with
    | option => exact throw _
    | star => exact agree_loop t level true r
    | plus => exact agree_loop t level false r
  | _ => exact throw _

theorem agree_option : Ids.Agree (·.automaton.counters) (option t) := by
  refine (agree_requirePresent t).bind fun _ => ?_
  cases t.label with
  | quant q r => cases q with
    | option => exact agree_automaton.bind fun a => agree_replace t [] _
    | _ => exact throw _
  | _ => exact throw _

theorem agree_breakdown (policy : IsolationPolicy) : Ids.Agree (·.automaton.counters) (breakdown t policy) := by
  unfold breakdown
  cases t.label with
  | char c => exact pure none
  | choice rs => exact (agree_choice t).map some
  | seq rs => exact (agree_sequence t).map some
  | quant q r =>
    cases q with
    | option => exact (agree_option t).map some
    | _ => cases policy with
      | optimal => exact agree_automaton.bind fun a => (agree_iteration t _).map some
      | full => exact (agree_iteration t .full).map some

end

theorem agree_mergeEquivalent (ctx : EpsilonContext) (state : Nat) :
    Ids.Agree (·.automaton.counters) (mergeEquivalent ctx state) := by
  refine agree_automaton.bind fun a => ite (throw _) ?_
  cases ctx.classOf? state with
  | none => exact throw _
  | some c =>
    refine ite (throw _) (ite (throw _) ?_)
    exact (agree_newTransitions _).bind fun _ => (agree_note _).bind fun _ => pure _

theorem agree_removeEpsilon (state : Nat) : Ids.Agree (·.automaton.counters) (removeEpsilon state) :=
  agree_automaton.bind fun _ => ite (throw _) (ite (throw _) ((agree_newTransitions _).bind fun _ => pure _))

theorem agree_removeUnreachable (state : Nat) : Ids.Agree (·.automaton.counters) (removeUnreachable state) := by
  refine agree_automaton.bind fun a => ?_
  cases a.state? state with
  | none => exact throw _
  | some s => exact ite (pure _) (throw _)

theorem agree_mergedState (targets set : StateSet) : Ids.Agree (·.automaton.counters) (mergedState targets set) :=
  agree_automaton.bind fun _ => agree_newState.bind fun _ => (agree_newTransitions _).bind fun _ =>
    (agree_note _).bind fun _ => (fixed fun _ => Counters.le_refl _).bind fun _ => pure _

theorem agree_representative (targets set : StateSet) :
    Ids.Agree (·.automaton.counters) (representative targets set) := by
  refine agree_bindings.bind fun b => agree_automaton.bind fun a => ?_
  cases b.find? a set with
  | none => exact agree_mergedState targets set
  | some state => exact pure _

theorem agree_resolveSymbol (state : Nat) (symbol : Regex) :
    Ids.Agree (·.automaton.counters) (resolveSymbol state symbol) :=
  agree_automaton.bind fun _ => agree_bindings.bind fun _ => (agree_representative _ _).bind fun _ =>
    (agree_newTransition _).bind fun _ => pure _

theorem agree_resolveState (state : Nat) : Ids.Agree (·.automaton.counters) (resolveState state) := by
  refine agree_automaton.bind fun a => ite (throw _) ?_
  cases (a.outgoing state).find? (!·.label.isSymbol) with
  | some t => exact throw _
  | none => cases ambiguousLabel? (a.outgoing state) with
    | none => exact pure none
    | some symbol => exact (agree_resolveSymbol state symbol).map some

theorem agree_isolateFinal : Ids.Agree (·.automaton.counters) isolateFinal :=
  agree_automaton.bind fun _ => ite (agree_newState.bind fun _ => (agree_newTransitions _).bind fun _ => pure _) (pure _)

theorem agree_eliminate (state : Nat) : Ids.Agree (·.automaton.counters) (eliminate state) := by
  refine agree_automaton.bind fun a => ?_
  cases a.state? state with
  | none => exact throw _
  | some s => exact ite (throw _) (ite (throw _) ((agree_newTransitions _).bind fun _ => pure _))

theorem agree_creation (r : Regex) : Ids.Agree (·.automaton.counters) (Session.creation r) :=
  agree_automaton.bind fun _ => agree_newState.bind fun _ => (agree_newTransition _).bind fun _ => pure _

end

end Builder

theorem Transformation.agree_make [Ids] (x : Transformation) : Ids.Agree (·.automaton.counters) x.make := by
  cases x with
  | creation r => exact (Builder.agree_creation r).map some
  | choice t => exact (Builder.agree_choice t).map some
  | sequence t => exact (Builder.agree_sequence t).map some
  | option t => exact (Builder.agree_option t).map some
  | iteration t level => exact (Builder.agree_iteration t level).map some
  | breakdown t policy => exact Builder.agree_breakdown t policy
  | mergeEquivalent ctx state => exact (Builder.agree_mergeEquivalent ctx state).map some
  | removeEpsilon state => exact (Builder.agree_removeEpsilon state).map some
  | resolveState state => exact Builder.agree_resolveState state
  | removeUnreachable state => exact (Builder.agree_removeUnreachable state).map some
  | isolateFinal => exact Builder.agree_isolateFinal
  | eliminate state => exact (Builder.agree_eliminate state).map some

/-- Where the ids suffice, what is made is the command of a plan for ids without an end. -/
theorem Transformation.planned [Ids] {x : Transformation} {w : Workbench} {c : Command}
    (made : (x.make.run w).1 = .ok (some c)) (room : Ids.Suffice (x.make.run w).2.automaton.counters) :
    ∃ p b, @plan Ids.endless w.automaton w.bindings x = .ok (some (p,b)) ∧ p.command = c ∧
      (x.make.run w).2 = { w.adopt p with bindings := b } := by
  rw [x.agree_make.run room,@run_make Ids.endless] at made ⊢
  rcases planned : @plan Ids.endless w.automaton w.bindings x with e | _ | ⟨p,b⟩
  · rw [planned] at made; cases made
  · rw [planned] at made; cases made
  · rw [planned] at made
    cases made
    exact ⟨p,b,rfl,rfl,rfl⟩

namespace Session

open Ids.Agree

section
variable [Ids]

theorem agree_execute (c : Command) : Ids.Agree (·.automaton.counters) (execute c) := by
  refine fixed fun s => ?_
  rw [run_execute]
  cases executed : s.toEditor.execute c with
  | error e => exact Counters.le_refl _
  | ok e =>
    show s.automaton.counters ≤ e.automaton.counters
    rw [Editor.counters_execute executed]
    exact Counters.le_refl _

theorem agree_makeWith {x : [Ids] → Builder α} (agree : Ids.Agree (·.automaton.counters) x) (b : Bindings) :
    Ids.Agree (·.automaton.counters) (makeWith b x) where
  grows s := by
    rw [run_makeWith]
    exact agree.grows ⟨s.automaton,b,s.notes⟩
  run {s} room := by
    rw [run_makeWith,run_makeWith]
    rw [Ids.Suffice,run_makeWith] at room
    rw [agree.run room]

theorem agree_make {x : [Ids] → Builder α} (agree : Ids.Agree (·.automaton.counters) x) :
    Ids.Agree (·.automaton.counters) (make x) := (agree_makeWith agree {}).bind fun _ => pure _

theorem agree_issue {x : [Ids] → Builder Command} (agree : Ids.Agree (·.automaton.counters) x) :
    Ids.Agree (·.automaton.counters) (issue x) := (agree_make agree).bind agree_execute

section
variable {x : [Ids] → Builder Command} (agree : Ids.Agree (·.automaton.counters) x)
  (plan : [Ids] → Automaton → Except Refusal Plan)
  (follows : ∀ [Ids] (w : Workbench), x.run w = w.follow (plan w.automaton)) {s : Session}
  (room : Ids.Suffice ((issue x).run s).2.automaton.counters)
include agree follows room

end

theorem agree_attempt (r : Except Refusal α) : Ids.Agree (·.automaton.counters) (attempt r) := by
  cases r with
  | ok x => exact pure x
  | error e => exact throw _

theorem agree_breakdownTransition (id : Nat) : Ids.Agree (·.automaton.counters) (breakdownTransition id) := by
  refine get_bind fun s => ?_
  cases s.automaton.transition? id with
  | none => exact throw _
  | some t =>
    refine (agree_make (Builder.agree_breakdown t s.settings.isolation)).bind fun made => ?_
    cases made with
    | none => exact pure false
    | some c => exact (agree_execute c).bind fun _ => pure true

theorem agree_breakdownFirst (steps : Nat) : Ids.Agree (·.automaton.counters) (breakdownFirst steps) := by
  induction steps with
  | zero => exact pure 0
  | succ steps ih =>
    refine get_bind fun s => ?_
    cases s.automaton.transitions.find? (·.label.isCompound) with
    | none => exact pure 0
    | some t => exact (agree_breakdownTransition t.id).bind fun _ => ih.bind fun n => pure (n + 1)

theorem agree_breakdownAll : Ids.Agree (·.automaton.counters) breakdownAll := get_bind fun _ => agree_breakdownFirst _

theorem agree_mergeEquivalents : Ids.Agree (·.automaton.counters) mergeEquivalents :=
  get_bind fun _ => (fixed fun _ => Counters.le_refl _).bind fun _ =>
    forM (fun _ => get_bind fun _ => ite (agree_issue (Builder.agree_mergeEquivalent _ _)) (pure ())) _

theorem agree_removeEpsilons : Ids.Agree (·.automaton.counters) removeEpsilons :=
  get_bind fun _ => forM (fun _ => get_bind fun _ => ite (agree_issue (Builder.agree_removeEpsilon _)) (pure ())) _

theorem agree_removeEach (order : List Nat) : Ids.Agree (·.automaton.counters) (removeEach order) :=
  forM (fun _ => agree_issue (Builder.agree_removeUnreachable _)) order

theorem agree_removeUnreachables : Ids.Agree (·.automaton.counters) removeUnreachables :=
  get_bind fun _ => agree_removeEach _

theorem agree_resolveState (state steps : Nat) (b : Bindings) :
    Ids.Agree (·.automaton.counters) (resolveState state steps b) := by
  induction steps generalizing b with
  | zero => exact pure _
  | succ steps ih =>
    refine (agree_makeWith (Builder.agree_resolveState state) b).bind fun made => ?_
    obtain ⟨made,b⟩ := made
    cases made with
    | none => exact pure _
    | some c => exact (agree_execute c).bind fun _ => (ih b).bind fun _ => pure _

theorem agree_resolveStates (states : List Nat) (b : Bindings) :
    Ids.Agree (·.automaton.counters) (resolveStates states b) := by
  induction states generalizing b with
  | nil => exact pure _
  | cons state states ih =>
    exact get_bind fun _ => (agree_resolveState _ _ _).bind fun here => (ih here.2).bind fun _ => pure _

theorem agree_resolveRounds (rounds : Nat) (b : Bindings) :
    Ids.Agree (·.automaton.counters) (resolveRounds rounds b) := by
  induction rounds generalizing b with
  | zero => exact pure ()
  | succ rounds ih => exact get_bind fun _ => (agree_resolveStates _ b).bind fun resolved => ite (ih resolved.2) (pure ())

theorem agree_resolveAll : Ids.Agree (·.automaton.counters) resolveAll := get_bind fun _ => agree_resolveRounds _ _

theorem agree_determinize : Ids.Agree (·.automaton.counters) determinize :=
  agree_breakdownAll.bind fun _ => agree_mergeEquivalents.bind fun _ => agree_removeEpsilons.bind fun _ =>
    agree_removeUnreachables.bind fun _ => agree_resolveAll.bind fun _ => agree_removeUnreachables

theorem agree_isolate : Ids.Agree (·.automaton.counters) isolate := by
  refine (agree_make Builder.agree_isolateFinal).bind fun made => ?_
  cases made with
  | none => exact pure ()
  | some c => exact agree_execute c

theorem agree_eliminateEach (order : List Nat) : Ids.Agree (·.automaton.counters) (eliminateEach order) :=
  forM (fun _ => agree_issue (Builder.agree_eliminate _)) order

theorem agree_toRegex : Ids.Agree (·.automaton.counters) toRegex :=
  agree_isolate.bind fun _ => get_bind fun _ => (agree_eliminateEach _).bind fun _ =>
    get_bind fun _ => (agree_attempt _).bind fun _ => pure _

end

end Session
end StepwiseAutomata
