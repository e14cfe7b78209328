import StepwiseAutomata.Determinism
import StepwiseAutomata.Elimination
import StepwiseAutomata.Epsilon
import StepwiseAutomata.Session
import StepwiseAutomata.Proofs.Graph
import StepwiseAutomata.Proofs.Ids

/-!
What builders come to. A builder takes ids while it looks at the automaton; the plan says at once which command there
will be and where the counters will stand. Each builder is shown to do what its plan says, whatever the ids.
-/
namespace StepwiseAutomata

/-- A command, the counters when it has been made, and what is noted meanwhile. -/
structure Plan where
  command : Command
  counters : Counters
  notes : List Note

section
variable [Ids]

/-- The plan of a group of edits, which takes one id for each state and each transition added. -/
def Plan.ofEdits (a : Automaton) (title : String) (es : List Edit) (notes : List Note) : Plan where
  command := .ofEdits title es
  counters := a.counters.advance (Edit.addedStates es).length (Edit.added es).length
  notes

namespace Breakdown

variable (a : Automaton) (t : Transition)

def requirePresent : Except Refusal Unit :=
  if a.transition? t.id = some t then .ok () else .error (.foreignTransition t.id)

def replacing (states : List Nat) (arcs : List Arc) (notes : List Note) : Plan :=
  .ofEdits a s!"Break down {t.label} on {t.source} -> {t.target}"
    (.removeTransition t :: states.map (fun s => .addState ⟨s,false⟩) ++
      (a.counters.number arcs).map .addTransition)
    notes

def choice : Except Refusal Plan := do
  requirePresent a t
  match t.label with
  | .choice rs => .ok (replacing a t [] (rs.map fun r => ⟨t.source,t.target,r⟩) [])
  | r => .error (.wrongBreakdown .choice r)

def sequence : Except Refusal Plan := do
  requirePresent a t
  match t.label with
  | .seq rs =>
    let states := Ids.series a.counters.nextState (rs.length - 1)
    .ok (replacing a t states (chain t.source states t.target rs) [])
  | r => .error (.wrongBreakdown .sequence r)

/-- The states and arcs that replace an iteration of `body`. -/
def loop (level : Isolation) (isStar : Bool) (body : Regex) : List Nat × List Arc :=
  let new := a.counters.nextState
  match level with
  | ⟨false,false⟩ => ([],directLoop a t isStar body)
  | ⟨true,false⟩ => ([new],isolatedLoop a t level new t.target isStar body)
  | ⟨false,true⟩ => ([new],isolatedLoop a t level t.source new isStar body)
  | ⟨true,true⟩ => ([new,Ids.after new],isolatedLoop a t level new (Ids.after new) isStar body)

def ofLoop (level : Isolation) (isStar : Bool) (body : Regex) : Except Refusal Plan :=
  let required := optimalIsolation a t
  if level.covers required then
    let (states,arcs) := loop a t level isStar body
    .ok (replacing a t states arcs [.breakingIteration t.label level])
  else .error (.insufficientIsolation level required)

def iteration (level : Isolation) : Except Refusal Plan := do
  requirePresent a t
  match t.label with
  | .quant .star r => ofLoop a t level true r
  | .quant .plus r => ofLoop a t level false r
  | r => .error (.wrongBreakdown .iteration r)

def option : Except Refusal Plan := do
  requirePresent a t
  match t.label with
  | .quant .option r =>
    .ok (replacing a t []
      (⟨t.source,t.target,r⟩ :: a.unlessPresent ⟨t.source,t.target,.epsilon⟩) [])
  | r => .error (.wrongBreakdown .option r)

/-- The breakdown that fits the label; `none` for a character. -/
def ofLabel (policy : IsolationPolicy) : Except Refusal (Option Plan) :=
  match t.label with
  | .char _ => .ok none
  | .choice _ => (choice a t).map some
  | .seq _ => (sequence a t).map some
  | .quant .option _ => (option a t).map some
  | .quant _ _ =>
    let level := match policy with
      | .optimal => optimalIsolation a t
      | .full => .full
    (iteration a t level).map some

end Breakdown

namespace Automaton

variable (a : Automaton)

def mergeEquivalent (ctx : EpsilonContext) (state : Nat) : Except Refusal Plan :=
  if !a.hasState state then .error (.foreignState state)
  else match ctx.classOf? state with
    | none => .error (.unclassified state)
    | some c =>
      let merged := c.filter a.hasState
      let removed := merged.erase state
      if merged.contains a.start && state != a.start then .error (.startClass state)
      else if removed.isEmpty then .error (.nothingToMerge state)
      else .ok (.ofEdits a s!"Merge states equivalent to {state}"
        (a.mergeEdits merged state (a.counters.number (a.mergeArcs merged state))) [.merging removed.members state])

def removeEpsilon (state : Nat) : Except Refusal Plan :=
  if !a.hasState state then .error (.foreignState state)
  else if (a.epsilonTransitions state).isEmpty then .error (.noEpsilon state)
  else .ok (.ofEdits a s!"Remove epsilon transitions from state {state}"
    ((a.epsilonTransitions state).map .removeTransition ++
      (a.counters.number (a.slidingArcs state)).map .addTransition ++ a.inheritFinal state (a.closure state).members)
    [])

/-- The plan that resolves `symbol` at `state`, and the bindings once a new state is bound. -/
def resolveSymbol (b : Bindings) (state : Nat) (symbol : Regex) : Plan × Bindings :=
  let targets := StateSet.ofList ((a.onSymbol state symbol).map (·.target))
  let set := b.resolve targets
  let plan (added : List Edit) (arcs : List Arc) (notes : List Note) : Plan :=
    .ofEdits a s!"Remove non-determinism on {symbol} from state {state}"
      ((a.onSymbol state symbol).map .removeTransition ++ added ++ (a.counters.number arcs).map .addTransition) notes
  match b.find? a set with
  | some destination => (plan [] [⟨state,destination,symbol⟩] [],b)
  | none =>
    let new := a.counters.nextState
    (plan [.addState ⟨new,targets.members.any a.isFinal⟩] (a.copiesFrom targets new ++ [⟨state,new,symbol⟩])
      [.standsFor new set],b.put new set)

def resolveState (b : Bindings) (state : Nat) : Except Refusal (Option (Plan × Bindings)) :=
  if !a.hasState state then .error (.foreignState state)
  else match (a.outgoing state).find? (!·.label.isSymbol) with
    | some t => .error (.notSymbol t.id state t.label)
    | none => .ok ((ambiguousLabel? (a.outgoing state)).map (a.resolveSymbol b state))

def removeUnreachable (state : Nat) : Except Refusal Plan :=
  match a.state? state with
  | none => .error (.foreignState state)
  | some s =>
    if a.unreachable.contains state then
      .ok ⟨.ofEdits s!"Remove unreachable state {state}" (a.detachEdits s),a.counters,[]⟩
    else .error (.reachable state)

def isolateFinal : Option Plan :=
  if a.needsIsolation then
    let new := a.counters.nextState
    let finals := a.finalStates.map State.id
    let added := a.counters.number (finals.map fun s => ⟨s,new,.epsilon⟩)
    some (.ofEdits a s!"Isolate final state {new}"
      (.addState ⟨new,true⟩ :: (finals.zip added).flatMap fun (s,t) =>
        [Command.setFinal a s false,.addTransition t])
      [])
  else none

def eliminate (state : Nat) : Except Refusal Plan :=
  match a.state? state with
  | none => .error (.foreignState state)
  | some s =>
    if state = a.start then .error .startElimination
    else if s.isFinal then .error (.finalElimination state)
    else .ok (.ofEdits a s!"Eliminate state {state}"
      ((a.counters.number (a.detours state)).map .addTransition ++ a.detachEdits s) [])

def creation (r : Regex) : Plan :=
  let last := a.counters.nextState
  .ofEdits a s!"Create automaton for {r}"
    (.addState ⟨last,true⟩ :: (a.counters.number [⟨a.start,last,r⟩]).map .addTransition) []

end Automaton

end

/-- The ids of a plan are taken, without executing it. -/
def Editor.adopt (e : Editor) (p : Plan) : Editor := { e.noteAll p.notes with automaton.counters := p.counters }

namespace Workbench

def adopt (w : Workbench) (p : Plan) : Workbench :=
  { w with automaton.counters := p.counters,notes := p.notes.reverse ++ w.notes }

/-- Nothing happens on a workbench but what the plan says, and nothing at all if there is none. -/
def follow (w : Workbench) : Except Refusal Plan → Except Refusal Command × Workbench
  | .error e => (.error e,w)
  | .ok p => (.ok p.command,w.adopt p)

/-- The same of a plan that comes with bindings, or of nothing to be done. -/
def followSome (w : Workbench) : Except Refusal (Option (Plan × Bindings)) → Except Refusal (Option Command) × Workbench
  | .error e => (.error e,w)
  | .ok none => (.ok none,w)
  | .ok (some (p,b)) => (.ok (some p.command),{ w.adopt p with bindings := b })

/-- Takes so many ids. -/
def take [Ids] (w : Workbench) (states transitions : Nat) : Workbench :=
  { w with automaton.counters := w.automaton.counters.advance states transitions }

end Workbench

section
variable {σ ε α β : Type}

theorem run_bind (x : ExceptT ε (StateM σ) α) (k : α → ExceptT ε (StateM σ) β) (s : σ) : (x >>= k).run s =
    match x.run s with
    | (.ok a,t) => (k a).run t
    | (.error e,t) => (.error e,t) := by
  show (ExceptT.bindCont k (x.run s).1) (x.run s).2 = _
  rcases x.run s with ⟨r,t⟩
  cases r <;> rfl

theorem run_bind_ok {x : ExceptT ε (StateM σ) α} {a : α} {s t : σ} (first : x.run s = (.ok a,t))
    (k : α → ExceptT ε (StateM σ) β) : (x >>= k).run s = (k a).run t := by
  rw [run_bind,first]

end

namespace Builder

variable {α β : Type} {w : Workbench}

theorem run_automaton (k : Automaton → Builder α) : (automaton >>= k).run w = (k w.automaton).run w := rfl

theorem run_bindings (k : Bindings → Builder α) : (bindings >>= k).run w = (k w.bindings).run w := rfl

theorem run_map_ok {x : Builder α} {a : α} {v : Workbench} (first : x.run w = (.ok a,v)) (f : α → β) :
    (f <$> x).run w = (.ok (f a),v) := by
  rw [← bind_pure_comp]
  exact run_bind_ok first _

section
variable [Ids]

theorem run_newState (w : Workbench) : newState.run w = (.ok w.automaton.counters.nextState,w.take 1 0) := rfl

theorem run_newTransition (arc : Arc) (w : Workbench) : (newTransition arc).run w =
    (.ok { arc with id := w.automaton.counters.nextTransition },w.take 0 1) := rfl

theorem take_take (w : Workbench) (m n states transitions : Nat) :
    (w.take m n).take states transitions = w.take (m + states) (n + transitions) := by
  rw [Workbench.take,Workbench.take,Workbench.take,Counters.advance_advance]

theorem run_newStates (n : Nat) (w : Workbench) : (newStates n).run w =
    (.ok (Ids.series w.automaton.counters.nextState n),w.take n 0) := by
  have each (l : List Nat) : ∀ w : Workbench, (l.mapM fun _ => newState).run w =
      (.ok (Ids.series w.automaton.counters.nextState l.length),w.take l.length 0) := by
    induction l with
    | nil => exact fun w => rfl
    | cons _ l ih =>
      intro w
      rw [List.mapM_cons,run_bind_ok (run_newState w),run_bind_ok (ih _),take_take,Nat.add_comm 1]
      rfl
  rw [newStates,each,List.length_range]

theorem run_newTransitions (arcs : List Arc) (w : Workbench) : (newTransitions arcs).run w =
    (.ok (w.automaton.counters.number arcs),w.take 0 arcs.length) := by
  induction arcs generalizing w with
  | nil => rfl
  | cons arc arcs ih =>
    have rest : (arcs.mapM newTransition).run (w.take 0 1) = _ := ih _
    rw [newTransitions,List.mapM_cons,run_bind_ok (run_newTransition arc w),run_bind_ok rest,take_take,Nat.add_comm 1]
    rfl

theorem adopt_ofEdits (w : Workbench) (title : String) {es : List Edit} (notes : List Note) {states transitions : Nat}
    (added : (Edit.addedStates es).length = states) (joined : (Edit.added es).length = transitions) :
    w.adopt (.ofEdits w.automaton title es notes) =
      { w.take states transitions with notes := notes.reverse ++ w.notes } := by
  rw [Workbench.adopt,Plan.ofEdits,added,joined]
  rfl

section
variable (w : Workbench) (t : Transition)

/-- The ids for the states have been taken when the arcs come. -/
theorem run_replace {states : List Nat} {n : Nat} (taken : states.length = n) (arcs : List Arc) (notes : List Note) :
    (replace t states arcs).run { w.take n 0 with notes := notes.reverse ++ w.notes } =
      w.follow (.ok (Breakdown.replacing w.automaton t states arcs notes)) := by
  have created (ids : List Nat) : Edit.addedStates (ids.map fun s => .addState ⟨s,false⟩) = ids.map (⟨·,false⟩) := by
    induction ids with
    | nil => rfl
    | cons id ids ih => exact congrArg (⟨id,false⟩ :: ·) ih
  have joined (ids : List Nat) : Edit.added (ids.map fun s => .addState ⟨s,false⟩) = [] := by
    induction ids with
    | nil => rfl
    | cons id ids ih => exact ih
  rw [replace,run_bind_ok (run_newTransitions arcs _),Workbench.follow,Breakdown.replacing,
    @adopt_ofEdits _ w _ _ notes n arcs.length (by simp [created,Edit.addedState?,taken])
      (by simp [joined,Edit.addedTransition?])]
  rfl

omit [Ids] in
theorem run_requirePresent {rest : Builder Command} {planned : Except Refusal Plan}
    (follows : rest.run w = w.follow planned) : (requirePresent t >>= fun _ => rest).run w =
      w.follow (Breakdown.requirePresent w.automaton t >>= fun _ => planned) := by
  have required : (requirePresent t).run w = (Breakdown.requirePresent w.automaton t,w) := by
    have whole : (requirePresent t).run w =
        (if w.automaton.transition? t.id = some t then pure () else throw (.foreignTransition t.id) : Builder Unit).run
          w := rfl
    rw [whole,Breakdown.requirePresent]
    split <;> rfl
  rw [run_bind,required]
  cases Breakdown.requirePresent w.automaton t with
  | ok _ => exact follows
  | error e => rfl

theorem run_choice : (choice t).run w = w.follow (Breakdown.choice w.automaton t) := by
  refine run_requirePresent w t ?_
  cases t.label with
  | choice rs => exact run_replace w t rfl _ []
  | _ => rfl

theorem run_sequence : (sequence t).run w = w.follow (Breakdown.sequence w.automaton t) := by
  refine run_requirePresent w t ?_
  cases t.label with
  | seq rs => exact (run_bind_ok (run_newStates _ w) _).trans (run_replace w t (Ids.length_series _ _) _ [])
  | _ => rfl

theorem run_option : (option t).run w = w.follow (Breakdown.option w.automaton t) := by
  refine run_requirePresent w t ?_
  cases t.label with
  | quant q r =>
    cases q with
    | option =>
      exact run_replace w t (rfl : ([] : List Nat).length = 0)
        (⟨t.source,t.target,r⟩ :: w.automaton.unlessPresent ⟨t.source,t.target,.epsilon⟩) []
    | _ => rfl
  | _ => rfl

theorem run_loop (level : Isolation) (isStar : Bool) (body : Regex) : (loop t level isStar body).run w =
    w.follow (Breakdown.ofLoop w.automaton t level isStar body) := by
  have branch (level : Isolation) {n : Nat} (taken : (Breakdown.loop w.automaton t level isStar body).1.length = n) :=
    run_replace w t taken (Breakdown.loop w.automaton t level isStar body).2 [.breakingIteration t.label level]
  rw [loop,run_automaton,Breakdown.ofLoop]
  by_cases covers : level.covers (Breakdown.optimalIsolation w.automaton t) = true
  · simp only [covers,if_true]
    obtain ⟨atSource,atTarget⟩ := level
    cases atSource with
    | false => cases atTarget with
      | false => exact branch ⟨false,false⟩ rfl
      | true => exact branch ⟨false,true⟩ rfl
    | true => cases atTarget with
      | false => exact branch ⟨true,false⟩ rfl
      | true => exact branch ⟨true,true⟩ rfl
  · simp only [covers]
    rfl

theorem run_iteration (level : Isolation) : (iteration t level).run w =
    w.follow (Breakdown.iteration w.automaton t level) := by
  refine run_requirePresent w t ?_
  cases t.label with
  | quant q r =>
    cases q with
    | option => rfl
    | star => exact run_loop w t level true r
    | plus => exact run_loop w t level false r
  | _ => rfl

omit [Ids] in
theorem run_some {x : Builder Command} {planned : Except Refusal Plan} (follows : x.run w = w.follow planned) :
    (some <$> x).run w = w.followSome ((planned.map some).map fun made => made.map (·,w.bindings)) := by
  rw [← bind_pure_comp,run_bind,follows]
  cases planned <;> rfl

/-- The breakdown that fits the label. -/
theorem run_breakdown (policy : IsolationPolicy) : (breakdown t policy).run w =
    w.followSome ((Breakdown.ofLabel w.automaton t policy).map fun made => made.map (·,w.bindings)) := by
  unfold breakdown Breakdown.ofLabel
  cases t.label with
  | char c => rfl
  | choice rs => exact run_some w (run_choice w t)
  | seq rs => exact run_some w (run_sequence w t)
  | quant q r =>
    cases q with
    | option => exact run_some w (run_option w t)
    | star => cases policy with
      | optimal => exact run_some w (run_iteration w t (Breakdown.optimalIsolation w.automaton t))
      | full => exact run_some w (run_iteration w t .full)
    | plus => cases policy with
      | optimal => exact run_some w (run_iteration w t (Breakdown.optimalIsolation w.automaton t))
      | full => exact run_some w (run_iteration w t .full)

end

variable (w : Workbench)

omit [Ids] in
theorem added_inheritFinal (a : Automaton) (state : Nat) (others : List Nat) :
    Edit.added (a.inheritFinal state others) = [] ∧ Edit.addedStates (a.inheritFinal state others) = [] := by
  unfold Automaton.inheritFinal
  split
  · exact ⟨rfl,rfl⟩
  · exact ⟨rfl,rfl⟩

omit [Ids] in
theorem added_detachEdits (a : Automaton) (s : State) :
    Edit.added (a.detachEdits s) = [] ∧ Edit.addedStates (a.detachEdits s) = [] := by
  simp [Automaton.detachEdits,Edit.addedState?,Edit.addedTransition?]

/-- The ids of the transitions are taken first, and then comes a command that adds just these. -/
theorem run_command {arcs : List Arc} (title : String) {edits : List Transition → List Edit} (notes : List Note)
    (states : ∀ ts, Edit.addedStates (edits ts) = []) (transitions : ∀ ts, Edit.added (edits ts) = ts) :
    (newTransitions arcs >>= fun added => do
      notes.forM note
      return Command.ofEdits title (edits added)).run w =
      w.follow (.ok (.ofEdits w.automaton title (edits (w.automaton.counters.number arcs)) notes)) := by
  have noted (v : Workbench) : (notes.forM note).run v = (.ok (),{ v with notes := notes.reverse ++ v.notes }) := by
    induction notes generalizing v with
    | nil => rfl
    | cons n notes ih =>
      refine (run_bind_ok (show (note n).run v = (.ok (),{ v with notes := n :: v.notes }) from rfl) _).trans ?_
      refine (ih _).trans ?_
      rw [List.reverse_cons,List.append_assoc]
      rfl
  rw [run_bind_ok (run_newTransitions arcs w),run_bind_ok (noted _),Workbench.follow,
    adopt_ofEdits w title notes (congrArg List.length (states _)) (congrArg List.length (transitions _)),
    Counters.length_number]
  rfl

theorem run_mergeEquivalent (ctx : EpsilonContext) (state : Nat) : (mergeEquivalent ctx state).run w =
    w.follow (w.automaton.mergeEquivalent ctx state) := by
  rw [mergeEquivalent,run_automaton,Automaton.mergeEquivalent]
  split
  · rfl
  · cases ctx.classOf? state with
    | none => rfl
    | some c =>
      simp only
      split
      · rfl
      · split
        · rfl
        · refine run_command w _ [.merging ((c.filter w.automaton.hasState).erase state).members state]
            (fun ts => ?_) fun ts => ?_
          · simp [Automaton.mergeEdits,added_inheritFinal]
          · simp [Automaton.mergeEdits,added_inheritFinal]

theorem run_removeEpsilon (state : Nat) : (removeEpsilon state).run w =
    w.follow (w.automaton.removeEpsilon state) := by
  rw [removeEpsilon,run_automaton,Automaton.removeEpsilon]
  split
  · rfl
  · split
    · rfl
    · refine run_command w _ [] (fun ts => ?_) fun ts => ?_
      · simp [added_inheritFinal]
      · simp [added_inheritFinal]

omit [Ids] in
theorem run_removeUnreachable (state : Nat) : (removeUnreachable state).run w =
    w.follow (w.automaton.removeUnreachable state) := by
  rw [removeUnreachable,run_automaton,Automaton.removeUnreachable]
  cases w.automaton.state? state with
  | none => rfl
  | some s =>
    simp only
    split <;> rfl

theorem run_mergedState (targets set : StateSet) : (mergedState targets set).run w =
    (.ok (w.automaton.counters.nextState,
        .addState ⟨w.automaton.counters.nextState,targets.members.any w.automaton.isFinal⟩ ::
          (w.automaton.counters.number (w.automaton.copiesFrom targets w.automaton.counters.nextState)).map
            .addTransition),
      { w.take 1 (w.automaton.copiesFrom targets w.automaton.counters.nextState).length with
        bindings := w.bindings.put w.automaton.counters.nextState set
        notes := .standsFor w.automaton.counters.nextState set :: w.notes }) := by
  rw [mergedState,run_automaton,run_bind_ok (run_newState w),run_bind_ok (run_newTransitions _ _)]
  rfl

theorem run_resolveSymbol (state : Nat) (symbol : Regex) : (resolveSymbol state symbol).run w =
    (.ok (w.automaton.resolveSymbol w.bindings state symbol).1.command,
      { w.adopt (w.automaton.resolveSymbol w.bindings state symbol).1 with
        bindings := (w.automaton.resolveSymbol w.bindings state symbol).2 }) := by
  rw [resolveSymbol,run_automaton,run_bindings,Automaton.resolveSymbol]
  generalize StateSet.ofList ((w.automaton.onSymbol state symbol).map (·.target)) = targets
  cases found : w.bindings.find? w.automaton (w.bindings.resolve targets) with
  | some destination =>
    have there : (representative targets (w.bindings.resolve targets)).run w = (.ok (destination,[]),w) := by
      rw [representative,run_bindings,run_automaton,found]
      rfl
    simp only
    rw [run_bind_ok there]
    simp only
    rw [run_bind_ok (run_newTransition _ _),adopt_ofEdits w _ [] (show _ = 0 by simp) (show _ = 1 by simp)]
    rfl
  | none =>
    have made : (representative targets (w.bindings.resolve targets)).run w =
        (mergedState targets (w.bindings.resolve targets)).run w := by
      rw [representative,run_bindings,run_automaton,found]
    simp only
    rw [run_bind_ok (made.trans (run_mergedState w targets _))]
    simp only
    rw [run_bind_ok (run_newTransition _ _)]
    have numbered := w.automaton.counters.number_append
      (w.automaton.copiesFrom targets w.automaton.counters.nextState) [⟨state,w.automaton.counters.nextState,symbol⟩]
    have later : w.take 1 ((w.automaton.copiesFrom targets w.automaton.counters.nextState).length + 1) =
        (w.take 1 (w.automaton.copiesFrom targets w.automaton.counters.nextState).length).take 0 1 :=
      (take_take w 1 _ 0 1).symm
    rw [adopt_ofEdits w _ _ (show _ = 1 by simp [Edit.addedState?])
      (show _ = (w.automaton.copiesFrom targets w.automaton.counters.nextState).length + 1 by
        simp [Edit.addedTransition?]),numbered,later,List.map_append,← List.append_assoc]
    simp only [List.append_assoc,List.cons_append,List.nil_append]
    rfl

theorem run_resolveState (state : Nat) : (resolveState state).run w =
    w.followSome (w.automaton.resolveState w.bindings state) := by
  rw [resolveState,run_automaton,Automaton.resolveState]
  split
  · rfl
  · cases (w.automaton.outgoing state).find? (!·.label.isSymbol) with
    | some t => rfl
    | none => cases ambiguousLabel? (w.automaton.outgoing state) with
      | none => rfl
      | some symbol => exact run_map_ok (run_resolveSymbol w state symbol) some

theorem run_isolateFinal : isolateFinal.run w =
    w.followSome (.ok (w.automaton.isolateFinal.map (·,w.bindings))) := by
  have handed (pairs : List (Nat × Transition)) :
      Edit.added (pairs.flatMap fun (s,t) => [Command.setFinal w.automaton s false,.addTransition t]) =
          pairs.map Prod.snd ∧
        Edit.addedStates (pairs.flatMap fun (s,t) => [Command.setFinal w.automaton s false,.addTransition t]) = [] := by
    induction pairs with
    | nil => exact ⟨rfl,rfl⟩
    | cons z pairs ih => exact ⟨congrArg (z.2 :: ·) ih.1,ih.2⟩
  rw [isolateFinal,run_automaton,Automaton.isolateFinal]
  split
  · simp only
    rw [run_bind_ok (run_newState w),run_bind_ok (run_newTransitions _ _),Option.map_some,Workbench.followSome,
      adopt_ofEdits w _ [] (show _ = 1 by rw [Edit.addedStates_cons,(handed _).2]; rfl)
        (show _ = (w.automaton.finalStates.map State.id).length by
          rw [Edit.added_cons,(handed _).1]
          simp [Edit.addedTransition?])]
    simp only [List.length_map]
    rfl
  · rfl

theorem run_eliminate (state : Nat) : (eliminate state).run w = w.follow (w.automaton.eliminate state) := by
  rw [eliminate,run_automaton,Automaton.eliminate]
  cases w.automaton.state? state with
  | none => rfl
  | some s =>
    simp only
    split
    · rfl
    · split
      · rfl
      · refine run_command w _ [] (fun ts => ?_) fun ts => ?_
        · simp [added_detachEdits]
        · simp [added_detachEdits]

theorem run_creation (r : Regex) : (Session.creation r).run w = w.follow (.ok (w.automaton.creation r)) := rfl

end

end Builder

/-- What can be made of an automaton, with what it is told. -/
inductive Transformation where
  | creation (r : Regex)
  | choice (t : Transition)
  | sequence (t : Transition)
  | option (t : Transition)
  | iteration (t : Transition) (level : Isolation)
  | breakdown (t : Transition) (policy : IsolationPolicy)
  | mergeEquivalent (ctx : EpsilonContext) (state : Nat)
  | removeEpsilon (state : Nat)
  | resolveState (state : Nat)
  | removeUnreachable (state : Nat)
  | isolateFinal
  | eliminate (state : Nat)

namespace Transformation

variable [Ids]

/-- Makes the command; `none` if there is nothing to do. -/
def make : Transformation → Builder (Option Command)
  | creation r => some <$> Session.creation r
  | choice t => some <$> Builder.choice t
  | sequence t => some <$> Builder.sequence t
  | option t => some <$> Builder.option t
  | iteration t level => some <$> Builder.iteration t level
  | breakdown t policy => Builder.breakdown t policy
  | mergeEquivalent ctx state => some <$> Builder.mergeEquivalent ctx state
  | removeEpsilon state => some <$> Builder.removeEpsilon state
  | resolveState state => Builder.resolveState state
  | removeUnreachable state => some <$> Builder.removeUnreachable state
  | isolateFinal => Builder.isolateFinal
  | eliminate state => some <$> Builder.eliminate state

/-- What it comes to, with the bindings afterwards. -/
def plan (a : Automaton) (b : Bindings) : Transformation → Except Refusal (Option (Plan × Bindings))
  | creation r => .ok (some (a.creation r,b))
  | choice t => (Breakdown.choice a t).map fun p => some (p,b)
  | sequence t => (Breakdown.sequence a t).map fun p => some (p,b)
  | option t => (Breakdown.option a t).map fun p => some (p,b)
  | iteration t level => (Breakdown.iteration a t level).map fun p => some (p,b)
  | breakdown t policy => (Breakdown.ofLabel a t policy).map fun made => made.map (·,b)
  | mergeEquivalent ctx state => (a.mergeEquivalent ctx state).map fun p => some (p,b)
  | removeEpsilon state => (a.removeEpsilon state).map fun p => some (p,b)
  | resolveState state => a.resolveState b state
  | removeUnreachable state => (a.removeUnreachable state).map fun p => some (p,b)
  | isolateFinal => (Except.ok a.isolateFinal).map fun made => made.map (·,b)
  | eliminate state => (a.eliminate state).map fun p => some (p,b)

theorem run_make (x : Transformation) (w : Workbench) : x.make.run w = w.followSome (x.plan w.automaton w.bindings) := by
  have always {x : Builder Command} {planned : Except Refusal Plan} (follows : x.run w = w.follow planned) :
      (some <$> x).run w = w.followSome (planned.map fun p => some (p,w.bindings)) := by
    rw [Builder.run_some w follows]
    cases planned <;> rfl
  cases x with
  | creation r => exact always (Builder.run_creation w r)
  | choice t => exact always (Builder.run_choice w t)
  | sequence t => exact always (Builder.run_sequence w t)
  | option t => exact always (Builder.run_option w t)
  | iteration t level => exact always (Builder.run_iteration w t level)
  | breakdown t policy => exact Builder.run_breakdown w t policy
  | mergeEquivalent ctx state => exact always (Builder.run_mergeEquivalent w ctx state)
  | removeEpsilon state => exact always (Builder.run_removeEpsilon w state)
  | resolveState state => exact Builder.run_resolveState w state
  | removeUnreachable state => exact always (Builder.run_removeUnreachable w state)
  | isolateFinal => exact Builder.run_isolateFinal w
  | eliminate state => exact always (Builder.run_eliminate w state)

omit [Ids]

variable {b b' : Bindings} {p : Plan}

/-- A plan that is made in any case leaves the bindings as they are. -/
theorem eq_ok_of_always {made : Except Refusal Plan} (planned : (made.map fun q => some (q,b)) = .ok (some (p,b'))) :
    made = .ok p ∧ b' = b := by
  cases made with
  | error e => cases planned
  | ok q => cases planned; exact ⟨rfl,rfl⟩

theorem eq_ok_of_optional {made : Except Refusal (Option Plan)}
    (planned : (made.map fun q => q.map (·,b)) = .ok (some (p,b'))) : made = .ok (some p) ∧ b' = b := by
  rcases made with e | _ | q
  · cases planned
  · cases planned
  · cases planned; exact ⟨rfl,rfl⟩

/-- The transition that is broken down. -/
def transition? : Transformation → Option Transition
  | choice t | sequence t | option t | iteration t _ | breakdown t _ => some t
  | _ => none

end Transformation
end StepwiseAutomata
