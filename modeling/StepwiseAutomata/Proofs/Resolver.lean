import StepwiseAutomata.Proofs.Bindings
import StepwiseAutomata.Proofs.Replay

/-!
Symbols are resolved with one table of bindings while the cursor moves in the history. The table is never taken back, so
that it tells of states that are there again after a redo, of others that have been undone, and of some that never were.
Whatever is asked for, in whatever order, what the table says of the states that are there is true.
-/
namespace StepwiseAutomata

namespace Graph

variable {P Q : Graph → Prop} {g : Graph} {ess : List (List Edit)}

/-- The property holds of the graph and of all that the lists of edits lead to, one after the other. -/
def Along (P : Graph → Prop) : Graph → List (List Edit) → Prop
  | g,[] => P g
  | g,es :: ess => P g ∧ Along P (g.editAll es) ess

theorem Along.here (along : Along P g ess) : P g := by
  cases ess with
  | nil => exact along
  | cons es ess => exact along.1

theorem Along.imp (along : Along P g ess) (weaken : ∀ g, P g → Q g) : Along Q g ess := by
  induction ess generalizing g with
  | nil => exact weaken g along
  | cons es ess ih => exact ⟨weaken g along.1,ih along.2⟩

end Graph

/-- An editor in which symbols are resolved with one table of bindings. -/
structure Resolver extends Editor where
  bindings : Bindings := {}
  /-- Where the cursor was when the table was made. -/
  opening : Nat
  /-- How many of the commands after the cursor had been taken back before that; with the cursor at the end there are
      none. -/
  older : Nat

namespace Resolver

/-- A new table for the automaton of an editor. -/
def ofEditor (e : Editor) : Resolver where
  toEditor := e
  opening := e.history.position
  older := e.history.undone.length

inductive Request where
  | resolve (state : Nat)
  | undo
  | redo
  | seek (index : Nat)
  | setClobber (clobber : Bool)

section
variable [Ids]

/-- Resolves the first symbol that leaves the state more than once. The table keeps what it has been told even if the
    command is refused. -/
def resolve (r : Resolver) (state : Nat) : Resolver :=
  let (made,w) := (Builder.resolveState state).run ⟨r.automaton,r.bindings,r.notes⟩
  let r := { r with automaton := w.automaton,notes := w.notes,bindings := w.bindings }
  match made with
  | .ok (some c) =>
    match r.execute c with
    | .ok e => { r with toEditor := e,older := 0 }
    | .error _ => r
  | _ => r

/-- The resolver after a request. One that is refused moves nothing. -/
def answer (r : Resolver) : Request → Resolver
  | .resolve state => r.resolve state
  | .undo => { r with toEditor := r.toEditor.answer .undo }
  | .redo => { r with toEditor := r.toEditor.answer .redo }
  | .seek index => { r with toEditor := r.toEditor.answer (.seek index) }
  | .setClobber clobber => { r with toEditor := r.toEditor.answer (.setClobber clobber) }

def answerAll (r : Resolver) (qs : List Request) : Resolver := qs.foldl answer r

/-- The cursor is not before the place where the table was made, and what had been taken back before that has not been
    applied again. -/
def within (r : Resolver) : Bool := r.opening ≤ r.history.position && r.older ≤ r.history.undone.length

/-- Whether the cursor stays within what is done with the table. -/
def stays (r : Resolver) : List Request → Bool
  | [] => true
  | q :: qs => (r.answer q).within && (r.answer q).stays qs

theorem resolve_eq (r : Resolver) (state : Nat) : r.resolve state =
    match r.automaton.resolveState r.bindings state with
    | .ok (some (p,b)) =>
      match (r.adopt p).execute p.command with
      | .ok e => { r with toEditor := e,bindings := b,older := 0 }
      | .error _ => { r with toEditor := r.adopt p,bindings := b }
    | _ => r := by
  rw [resolve,Builder.run_resolveState]
  rcases r.automaton.resolveState r.bindings state with e | _ | ⟨p,b⟩
  · rfl
  · rfl
  · rfl

theorem answerAll_nil (r : Resolver) : r.answerAll [] = r := rfl

theorem answerAll_cons (r : Resolver) (q : Request) (qs : List Request) :
    r.answerAll (q :: qs) = (r.answer q).answerAll qs := List.foldl_cons ..

theorem stays_nil (r : Resolver) : r.stays [] = true := rfl

theorem stays_cons (r : Resolver) (q : Request) (qs : List Request) :
    r.stays (q :: qs) = ((r.answer q).within && (r.answer q).stays qs) := rfl

/-- No request puts a counter back, and ids without an end make no difference to it where there are enough. -/
theorem agree_answer (r : Resolver) (q : Request) :
    r.automaton.counters ≤ (@answer Ids.endless r q).automaton.counters ∧
      ((@answer Ids.endless r q).automaton.counters.Fits → r.answer q = @answer Ids.endless r q) := by
  have moved {d : Editor} (counters : d.automaton.counters = r.automaton.counters) :
      r.automaton.counters ≤ d.automaton.counters := counters ▸ Counters.le_refl _
  cases q with
  | undo => exact ⟨moved (Editor.counters_undo r.toEditor),fun _ => rfl⟩
  | redo => exact ⟨moved (Editor.counters_redo r.toEditor),fun _ => rfl⟩
  | setClobber clobber => exact ⟨Counters.le_refl _,fun _ => rfl⟩
  | seek index =>
    refine ⟨?_,fun _ => rfl⟩
    show r.automaton.counters ≤ (r.toEditor.answer (.seek index)).automaton.counters
    cases sought : r.toEditor.seek index with
    | error e =>
      rw [Editor.answer,sought]
      exact Counters.le_refl _
    | ok d =>
      rw [Editor.answer,sought]
      exact moved (Editor.counters_seek sought)
  | resolve state =>
    have agree := Builder.agree_resolveState state
    have grows := agree.grows ⟨r.automaton,r.bindings,r.notes⟩
    have same := agree.run (s := ⟨r.automaton,r.bindings,r.notes⟩)
    -- Executing what has been made takes no ids.
    have counters : (@resolve Ids.endless r state).automaton.counters =
        ((@Builder.resolveState Ids.endless state).run ⟨r.automaton,r.bindings,r.notes⟩).2.automaton.counters := by
      rw [@resolve.eq_1 Ids.endless]
      rcases (@Builder.resolveState Ids.endless state).run ⟨r.automaton,r.bindings,r.notes⟩ with ⟨e | _ | c,w⟩
      · rfl
      · rfl
      · simp only
        split
        · rename_i executed
          exact Editor.counters_execute executed
        · rfl
    rw [answer,@answer.eq_1 Ids.endless,counters]
    refine ⟨grows,fun room => ?_⟩
    rw [resolve,same room,← @resolve.eq_1 Ids.endless]

theorem agree_answerAll (r : Resolver) (qs : List Request) :
    r.automaton.counters ≤ (@answerAll Ids.endless r qs).automaton.counters ∧
      ((@answerAll Ids.endless r qs).automaton.counters.Fits →
        r.answerAll qs = @answerAll Ids.endless r qs ∧ r.stays qs = @stays Ids.endless r qs) := by
  induction qs generalizing r with
  | nil =>
    rw [answerAll_nil,@answerAll_nil Ids.endless,stays_nil,@stays_nil Ids.endless]
    exact ⟨Counters.le_refl _,fun _ => ⟨rfl,rfl⟩⟩
  | cons q qs ih =>
    obtain ⟨grows,same⟩ := r.agree_answer q
    obtain ⟨later,rest⟩ := ih (@answer Ids.endless r q)
    rw [answerAll_cons,@answerAll_cons Ids.endless,stays_cons,@stays_cons Ids.endless]
    refine ⟨Counters.le_trans grows later,fun room => ?_⟩
    rw [same (room.mono later),(rest room).2]
    exact ⟨(rest room).1,rfl⟩

end

section
attribute [local instance] Ids.endless

variable {g₀ : Graph} {r : Resolver} {own next : List Command}

/-- What has been executed with the table, before and after the cursor, as a history of its own. -/
def core (r : Resolver) (own next : List Command) : Editor :=
  { r.toEditor with history := { done := own,undone := next,clobber := true } }

/-- The history is that of before with what has been executed with the table around the cursor, and wherever the cursor
    is put among that, the table tells the truth. -/
structure Truthful (g₀ : Graph) (r : Resolver) (own next : List Command) : Prop where
  done : ∃ before, r.history.done = own ++ before ∧ before.length = r.opening
  undone : ∃ tail, r.history.undone = next ++ tail ∧ tail.length = r.older
  coherent : (r.core own next).Coherent
  binds : r.bindings.Binds g₀ r.automaton.counters.nextState
  past : Graph.Along (r.bindings.Meaningful g₀) r.automaton.graph (own.map Command.undoEdits)
  future : Graph.Along (r.bindings.Meaningful g₀) r.automaton.graph (next.map Command.edits)

namespace Truthful

theorem ofEditor {e : Editor} (consistent : e.automaton.Consistent) (symbolic : e.automaton.graph.Symbolic) :
    Truthful e.automaton.graph (ofEditor e) [] [] := by
  have meaning := Bindings.meaningful_empty symbolic
  exact ⟨⟨_,rfl,rfl⟩,⟨_,rfl,rfl⟩,⟨consistent,nofun,trivial,trivial⟩,
    Bindings.binds_empty consistent.below.state,meaning,meaning⟩

variable (truthful : Truthful g₀ r own next)

section
include truthful

/-- It does not matter what has been reported, or whether the history may be clobbered. -/
theorem report {e : Editor} (automaton : e.automaton = r.automaton) (done : e.history.done = r.history.done)
    (undone : e.history.undone = r.history.undone) : Truthful g₀ { r with toEditor := e } own next := by
  obtain ⟨before,after,coherent,binds,past,future⟩ := truthful
  refine ⟨done ▸ before,undone ▸ after,coherent.move (.report automaton rfl),?_,?_,?_⟩
  · rw [← automaton] at binds
    exact binds
  · rw [← automaton] at past
    exact past
  · rw [← automaton] at future
    exact future

end

theorem stepForward {c : Command} (truthful : Truthful g₀ r own (c :: next)) :
    Truthful g₀ { r with toEditor := r.stepForward } (c :: own) next := by
  obtain ⟨⟨before,done,opening⟩,⟨tail,undone,older⟩,coherent,binds,past,future⟩ := truthful
  obtain ⟨automaton,history⟩ := Editor.stepForward_eq undone
  obtain ⟨automaton',history'⟩ := Editor.stepForward_eq (e := r.core own (c :: next)) rfl
  have takes : r.automaton.graph.Takes c.edits := by
    have redoable := coherent.redoable
    rw [show (r.core own (c :: next)).history.undone = c :: next from rfl,List.flatMap_cons,
      Graph.takes_append] at redoable
    exact redoable.1
  have graph := Editor.graph_stepForward undone
  have back := (Editor.takes_undoEdits coherent.consistent.closed takes).2
  refine ⟨⟨before,?_,opening⟩,⟨tail,?_,older⟩,?_,?_,?_,?_⟩
  · show r.stepForward.history.done = _
    rw [history,done]
    rfl
  · show r.stepForward.history.undone = _
    rw [history]
    rfl
  · exact (coherent.moves coherent.stepForward).move (.report (automaton.trans automaton'.symm) history'.symm)
  · show r.bindings.Binds g₀ r.stepForward.automaton.counters.nextState
    rw [automaton,Automaton.counters_applyAll]
    exact binds
  · show Graph.Along _ r.stepForward.automaton.graph (c.undoEdits :: own.map Command.undoEdits)
    rw [graph]
    refine ⟨future.2.here,?_⟩
    rw [show (r.automaton.graph.editAll c.edits).editAll c.undoEdits = r.automaton.graph from back]
    exact past
  · show Graph.Along _ r.stepForward.automaton.graph _
    rw [graph]
    exact future.2

theorem stepBackward {c : Command} (truthful : Truthful g₀ r (c :: own) next) :
    Truthful g₀ { r with toEditor := r.stepBackward } own (c :: next) := by
  obtain ⟨⟨before,done,opening⟩,⟨tail,undone,older⟩,coherent,binds,past,future⟩ := truthful
  obtain ⟨automaton,history⟩ := Editor.stepBackward_eq done
  obtain ⟨automaton',history'⟩ := Editor.stepBackward_eq (e := r.core (c :: own) next) rfl
  have takes : r.automaton.graph.Takes c.undoEdits := by
    have undoable := coherent.undoable
    rw [show (r.core (c :: own) next).history.done = c :: own from rfl,List.flatMap_cons,
      Graph.takes_append] at undoable
    exact undoable.1
  have graph := Editor.graph_stepBackward done
  have again := (Editor.takes_edits coherent.consistent.closed takes).2
  refine ⟨⟨before,?_,opening⟩,⟨tail,?_,older⟩,?_,?_,?_,?_⟩
  · show r.stepBackward.history.done = _
    rw [history]
    rfl
  · show r.stepBackward.history.undone = _
    rw [history,undone]
    rfl
  · exact (coherent.moves coherent.stepBackward).move (.report (automaton.trans automaton'.symm) history'.symm)
  · show r.bindings.Binds g₀ r.stepBackward.automaton.counters.nextState
    rw [automaton,c.backward_eq,Automaton.counters_applyAll]
    exact binds
  · show Graph.Along _ r.stepBackward.automaton.graph _
    rw [graph]
    exact past.2
  · show Graph.Along _ r.stepBackward.automaton.graph (c.edits :: next.map Command.edits)
    rw [graph]
    refine ⟨past.2.here,?_⟩
    rw [show (r.automaton.graph.editAll c.undoEdits).editAll c.edits = r.automaton.graph from again]
    exact future

/-- Steps forward stay within what is done with the table as long as they leave what had been taken back before. -/
theorem stepsForward (n : Nat) (truthful : Truthful g₀ r own next) (enough : r.older ≤ r.history.undone.length - n) :
    ∃ own next, Truthful g₀ { r with toEditor := Editor.steps Editor.stepForward n r.toEditor } own next := by
  induction n generalizing r own next with
  | zero => exact ⟨own,next,truthful⟩
  | succ n ih =>
    cases next with
    | cons c next =>
      refine ih truthful.stepForward ?_
      show r.older ≤ r.stepForward.history.undone.length - n
      rwa [Editor.length_undone_stepForward,Nat.sub_sub,Nat.add_comm]
    | nil =>
      obtain ⟨tail,undone,older⟩ := truthful.undone
      rw [undone,List.nil_append,older] at enough
      have none : r.history.undone = [] := by
        rw [undone,List.eq_nil_of_length_eq_zero (show tail.length = 0 by omega)]
        rfl
      have stuck : r.stepForward = r.toEditor := by rw [Editor.stepForward,none]
      rw [Editor.steps,stuck]
      refine ih truthful ?_
      rw [undone,List.nil_append,older]
      omega

/-- Steps backward stay within what is done with the table as long as they do not go below where it was made. -/
theorem stepsBackward (n : Nat) (truthful : Truthful g₀ r own next) (enough : r.opening ≤ r.history.position - n) :
    ∃ own next, Truthful g₀ { r with toEditor := Editor.steps Editor.stepBackward n r.toEditor } own next := by
  induction n generalizing r own next with
  | zero => exact ⟨own,next,truthful⟩
  | succ n ih =>
    cases own with
    | cons c own =>
      refine ih truthful.stepBackward ?_
      show r.opening ≤ r.stepBackward.history.position - n
      rwa [Editor.position_stepBackward,Nat.sub_sub,Nat.add_comm]
    | nil =>
      obtain ⟨before,done,opening⟩ := truthful.done
      rw [History.position,done,List.nil_append,opening] at enough
      have none : r.history.done = [] := by
        rw [done,List.eq_nil_of_length_eq_zero (show before.length = 0 by omega)]
        rfl
      have stuck : r.stepBackward = r.toEditor := by rw [Editor.stepBackward,none]
      rw [Editor.steps,stuck]
      refine ih truthful ?_
      rw [History.position,done,List.nil_append,opening]
      omega

section
variable {state : Nat} {p : Plan} {b : Bindings}
  (made : r.automaton.resolveState r.bindings state = .ok (some (p,b))) (truthful : Truthful g₀ r own next)
include made truthful

/-- What is bound goes together with the graph that the command leads to, and with those that are there already. -/
private theorem resolved : p.Sound r.automaton ∧ b.Binds g₀ p.counters.nextState ∧
    b.Meaningful g₀ (r.automaton.graph.editAll p.command.edits) ∧
      ∀ g, r.bindings.Meaningful g₀ g → b.Meaningful g₀ g := by
  have consistent : r.automaton.Consistent := truthful.coherent.consistent
  have meaning : r.bindings.Meaningful g₀ r.automaton.graph := truthful.future.here
  obtain ⟨present,symbol,ambiguous,same⟩ := Automaton.resolveState_cases made
  have resolved := meaning.resolve consistent truthful.binds present ambiguous
  rw [← same] at resolved
  exact ⟨Automaton.resolveState_sound consistent made,resolved⟩

/-- A command that is refused leaves the ids and the table as they have become. -/
theorem refuse : Truthful g₀ { r with toEditor := r.adopt p,bindings := b } own next := by
  obtain ⟨sound,binds,_,before⟩ := truthful.resolved made
  obtain ⟨done,undone,coherent,_,past,future⟩ := truthful
  exact ⟨done,undone,(coherent.move (.adopt sound.grows)).move (.report rfl rfl),binds,past.imp before,
    future.imp before⟩

/-- A command that is executed takes the place of those after the cursor. -/
theorem execute {e : Editor} (executed : (r.adopt p).execute p.command = .ok e) :
    Truthful g₀ { r with toEditor := e,bindings := b,older := 0 } (p.command :: own) [] := by
  obtain ⟨sound,binds,meaning,before⟩ := truthful.resolved made
  obtain ⟨⟨earlier,done,opening⟩,_,coherent,_,past,_⟩ := truthful
  obtain ⟨automaton,done',undone'⟩ := Editor.execute_eq executed
  have graph : e.automaton.graph = r.automaton.graph.editAll p.command.edits := by
    rw [automaton]
    exact Automaton.graph_applyAll p.command.edits
  have back := (Editor.takes_undoEdits coherent.consistent.closed sound.takes).2
  have moved := ((coherent.move (.adopt sound.grows)).move (.truncate _)).move
    (.append rfl sound.takes (sound.below coherent.consistent))
  refine ⟨⟨earlier,?_,opening⟩,⟨[],undone',rfl⟩,moved.move (.report ?_ ?_),?_,?_,?_⟩
  · show e.history.done = _
    rw [done']
    exact congrArg (p.command :: ·) done
  · rw [Editor.automaton_append]
    exact automaton
  · rw [Editor.history_append]
    rfl
  · show b.Binds g₀ e.automaton.counters.nextState
    rw [automaton,Automaton.counters_applyAll]
    exact binds
  · show Graph.Along _ e.automaton.graph (p.command.undoEdits :: own.map Command.undoEdits)
    rw [graph]
    refine ⟨meaning,?_⟩
    rw [show (r.automaton.graph.editAll p.command.edits).editAll p.command.undoEdits = r.automaton.graph from back]
    exact past.imp before
  · show b.Meaningful g₀ e.automaton.graph
    rw [graph]
    exact meaning

end

/-- What is reported of a move changes nothing else. -/
theorem notifyMoved {e : Editor} (position : Nat) (truthful : Truthful g₀ { r with toEditor := e } own next) :
    Truthful g₀ { r with toEditor := e.notifyMoved position } own next := by
  obtain ⟨automaton,history⟩ := e.notifyMoved_eq position
  exact truthful.report automaton (history ▸ rfl) (history ▸ rfl)

theorem answer (truthful : Truthful g₀ r own next) {q : Request} (within : (r.answer q).within = true) :
    ∃ own next, Truthful g₀ (r.answer q) own next := by
  rw [Resolver.within,Bool.and_eq_true,decide_eq_true_eq,decide_eq_true_eq] at within
  obtain ⟨opening,older⟩ := within
  cases q with
  | resolve state =>
    show ∃ own next, Truthful g₀ (r.resolve state) own next
    rw [resolve_eq]
    split
    · rename_i p b made
      split
      · rename_i e executed
        exact ⟨_,_,truthful.execute made executed⟩
      · exact ⟨_,_,truthful.refuse made⟩
    · exact ⟨_,_,truthful⟩
  | undo =>
    change r.opening ≤ (r.stepBackward.notifyMoved _).history.position at opening
    rw [(Editor.notifyMoved_eq _ _).2,Editor.position_stepBackward] at opening
    obtain ⟨own,next,moved⟩ := truthful.stepsBackward 1 opening
    exact ⟨own,next,moved.notifyMoved _⟩
  | redo =>
    change r.older ≤ (r.stepForward.notifyMoved _).history.undone.length at older
    rw [(Editor.notifyMoved_eq _ _).2,Editor.length_undone_stepForward] at older
    obtain ⟨own,next,moved⟩ := truthful.stepsForward 1 older
    exact ⟨own,next,moved.notifyMoved _⟩
  | seek index =>
    cases sought : r.seek index with
    | error err =>
      refine ⟨own,next,?_⟩
      rw [Resolver.answer,Editor.answer,sought]
      exact truthful
    | ok e =>
      rw [Resolver.answer,Editor.answer,sought] at opening older ⊢
      change r.opening ≤ e.history.position at opening
      change r.older ≤ e.history.undone.length at older
      show ∃ own next, Truthful g₀ { r with toEditor := e } own next
      rw [Editor.seek_eq sought,(Editor.notifyMoved_eq _ _).2] at opening older
      rw [Editor.seek_eq sought]
      rcases Nat.le_total index r.history.position with below | above
      · rw [Nat.sub_eq_zero_of_le below,Editor.steps] at opening ⊢
        rw [Editor.position_stepsBackward] at opening
        obtain ⟨own,next,moved⟩ := truthful.stepsBackward _ opening
        exact ⟨own,next,moved.notifyMoved _⟩
      · rw [Nat.sub_eq_zero_of_le above,Editor.steps] at older ⊢
        rw [Editor.length_undone_stepsForward] at older
        obtain ⟨own,next,moved⟩ := truthful.stepsForward _ older
        exact ⟨own,next,moved.notifyMoved _⟩
  | setClobber clobber => exact ⟨own,next,truthful.report rfl rfl rfl⟩

/-- Nothing that is asked for breaks the invariant while the cursor stays within what is done with the table. -/
theorem answerAll (truthful : Truthful g₀ r own next) {qs : List Request} (stays : r.stays qs = true) :
    ∃ own next, Truthful g₀ (r.answerAll qs) own next := by
  induction qs generalizing r own next with
  | nil => exact ⟨own,next,truthful⟩
  | cons q qs ih =>
    rw [Resolver.stays,Bool.and_eq_true] at stays
    obtain ⟨own,next,after⟩ := truthful.answer stays.1
    exact ih after stays.2

end Truthful

end

/-- Whatever has been asked for, in whatever order, while the cursor was never before the place where the table was made,
    none of the commands that had been taken back before that was applied again, and the ids sufficed: each state of the
    beginning is there and accepts what it did, a bound state that is there accepts what the states of its set accepted at
    the beginning, and no two states that are there stand for the same set. -/
theorem bindings_exact [Ids] {e : Editor} (consistent : e.automaton.Consistent)
    (symbolic : e.automaton.graph.Symbolic) {qs : List Request} (stays : (ofEditor e).stays qs = true)
    (room : Ids.Suffice ((ofEditor e).answerAll qs).automaton.counters) : ∃ r, (ofEditor e).answerAll qs = r ∧
      (∀ x, e.automaton.graph.HasState x → r.automaton.graph.HasState x ∧
        r.automaton.graph.accepts x = e.automaton.graph.accepts x) ∧
      (∀ s set, r.automaton.graph.HasState s → r.bindings.get? s = some set →
        (∀ x ∈ set, e.automaton.graph.HasState x) ∧
          ∀ w, w ∈ r.automaton.graph.accepts s ↔ ∃ x ∈ set, w ∈ e.automaton.graph.accepts x) ∧
      (∀ s, r.automaton.graph.HasState s → e.automaton.graph.HasState s ∨ ∃ set, r.bindings.get? s = some set) ∧
      (∀ s t, r.automaton.graph.HasState s → r.automaton.graph.HasState t →
        r.bindings.standsFor s = r.bindings.standsFor t → s = t) ∧
      r.automaton.language = e.automaton.language := by
  obtain ⟨same,stayed⟩ := ((ofEditor e).agree_answerAll qs).2 room
  rw [stayed] at stays
  rw [same]
  obtain ⟨own,next,truthful⟩ := (Truthful.ofEditor consistent symbolic).answerAll stays
  have meaning := truthful.future.here
  have binds := truthful.binds
  refine ⟨_,rfl,fun x old => ⟨meaning.kept x old,meaning.accepts_old binds old⟩,
    fun s set present bound => ⟨?_,fun w => ?_⟩,meaning.known,meaning.distinct,meaning.language binds consistent.closed⟩
  · exact binds.members _ (Bindings.mem_of_get? bound)
  · rw [← Bindings.standsFor_eq bound]
    exact meaning.accepts s present w

/-- A state is taken back and resolved again, in vain, and once more in place of what had been taken back. All three
    states are bound to the same set, but only one of them is there. -/
theorem bindings_exact_clobbering : ∃ s t r, Session.ofRegex "ab|ac" {} = .ok s ∧ s.afterAll [.breakdownAll] = t ∧
    (ofEditor t.toEditor).answerAll [.resolve 0,.undo,.resolve 0,.setClobber true,.resolve 0,.seek 4,.redo] = r ∧
    r.bindings.entries.length = 3 ∧ r.automaton.language = t.automaton.language := by
  obtain ⟨s,t,made,reached,begun,symbols,stays,bound,taken⟩ : ∃ s t, Session.ofRegex "ab|ac" {} = .ok s ∧
      s.afterAll [.breakdownAll] = t ∧ (@Session.afterAll Ids.endless s [.breakdownAll]).automaton.counters.Words ∧
      (t.automaton.transitions.all fun t : Transition => t.label.isSymbol) = true ∧
      (ofEditor t.toEditor).stays [.resolve 0,.undo,.resolve 0,.setClobber true,.resolve 0,.seek 4,.redo] = true ∧
      ((ofEditor t.toEditor).answerAll
        [.resolve 0,.undo,.resolve 0,.setClobber true,.resolve 0,.seek 4,.redo]).bindings.entries.length = 3 ∧
      (@answerAll Ids.endless (ofEditor t.toEditor)
        [.resolve 0,.undo,.resolve 0,.setClobber true,.resolve 0,.seek 4,.redo]).automaton.counters.Words :=
    ⟨_,_,rfl,rfl,by decide +kernel,by decide +kernel,by decide +kernel,by decide +kernel,by decide +kernel⟩
  have coherent := ((Session.Begins.ofRegex made).moves (Ids.suffice_words begun)).1
  rw [reached] at coherent
  have symbolic := Graph.symbolic_of_all coherent.consistent.toIndexed symbols
  obtain ⟨r,same,_,_,_,_,language⟩ := bindings_exact coherent.consistent symbolic stays (Ids.suffice_words taken)
  exact ⟨s,t,r,made,reached,same,same ▸ bound,language⟩

/-- The cursor is never before the place where the table was made, but in the end the automaton accepts another word or
    one less. -/
def Alters [Ids] (e : Editor) (qs : List Request) (word : String) : Prop :=
  e.automaton.Consistent ∧ e.automaton.graph.Symbolic ∧
    (∀ n ≤ qs.length, (ofEditor e).opening ≤ ((ofEditor e).answerAll (qs.take n)).history.position) ∧
    ((ofEditor e).answerAll qs).automaton.simulate word ≠ e.automaton.simulate word

/-- A command that was taken back before the table was made is applied again. -/
theorem alters_by_redo : ∃ (s : Session) (d : Editor), Session.ofRegex "a" {} = .ok s ∧
    s.toEditor.execute (.edit (.setFinal 0 true false)) = .ok d ∧ Alters d.undo [.redo] "" := by
  obtain ⟨s,d,made,executed,latest,flag,low,symbols,after,altered⟩ : ∃ (s : Session) (d : Editor),
      Session.ofRegex "a" {} = .ok s ∧ s.toEditor.execute (.edit (.setFinal 0 true false)) = .ok d ∧
      s.history.undone = [] ∧ s.automaton.graph.flag? 0 = some false ∧ 0 < s.automaton.counters.nextState ∧
      (d.undo.automaton.transitions.all fun t : Transition => t.label.isSymbol) = true ∧
      (∀ n ≤ 1, (ofEditor d.undo).opening ≤ ((ofEditor d.undo).answerAll ([.redo].take n)).history.position) ∧
      ((ofEditor d.undo).answerAll [.redo]).automaton.simulate "" ≠ d.undo.automaton.simulate "" :=
    ⟨_,_,rfl,rfl,rfl,rfl,by decide +kernel,by decide +kernel,by decide +kernel,by decide +kernel⟩
  have coherent := (Session.Begins.ofRegex made).coherent
  have appended :
      s.toEditor.execute (.edit (.setFinal 0 true false)) = .ok (s.append (.edit (.setFinal 0 true false))) := by
    rw [Editor.execute,latest]
    rfl
  cases appended.symm.trans executed
  have applied := coherent.move (.append (c := .edit (.setFinal 0 true false)) latest ⟨flag,trivial⟩ fun x own => by
    obtain rfl := List.mem_singleton.mp own
    exact low)
  have undone := applied.moves (applied.moves_of_steps (@Editor.steps_undo Ids.endless _))
  exact ⟨s,_,made,appended,undone.consistent,Graph.symbolic_of_all undone.consistent.toIndexed symbols,after,altered⟩

/-- Where ids run out, the id of a transition is given out again. When that transition is removed at another state, the
    new one is lost instead. -/
theorem alters_after_wrapping : ∃ e : Editor, Alters e [.resolve 0,.resolve 1] "ab" := by
  let picture : Snapshot := ⟨0,[⟨0,false⟩,⟨1,false⟩,⟨2,false⟩,⟨3,true⟩,⟨4,true⟩],
    [⟨0,1,3,"b"⟩,⟨1,0,1,"a"⟩,⟨2,0,2,"a"⟩,⟨3,1,4,"b"⟩],none,some 4294967294⟩
  obtain ⟨a,restored,symbols,after,altered⟩ : ∃ a, picture.restore = .ok a ∧
      (a.transitions.all fun t : Transition => t.label.isSymbol) = true ∧
      (∀ n ≤ 2, (ofEditor (Session.ofAutomaton a {}).toEditor).opening ≤
        ((ofEditor (Session.ofAutomaton a {}).toEditor).answerAll
          ([.resolve 0,.resolve 1].take n)).history.position) ∧
      ((ofEditor (Session.ofAutomaton a {}).toEditor).answerAll [.resolve 0,.resolve 1]).automaton.simulate "ab" ≠
        a.simulate "ab" :=
    ⟨_,rfl,by decide +kernel,by decide +kernel,by decide +kernel⟩
  have consistent : a.Consistent := Snapshot.consistent_restore (by decide) restored
  exact ⟨_,consistent,Graph.symbolic_of_all consistent.toIndexed symbols,after,altered⟩

/-- The language is not kept when a command is applied again that was taken back before the table was made, nor when ids
    run out. -/
theorem language_altered : (∃ (s : Session) (d : Editor), Session.ofRegex "a" {} = .ok s ∧
    s.toEditor.execute (.edit (.setFinal 0 true false)) = .ok d ∧ Alters d.undo [.redo] "") ∧
    ∃ e : Editor, Alters e [.resolve 0,.resolve 1] "ab" := ⟨alters_by_redo,alters_after_wrapping⟩

end Resolver
end StepwiseAutomata
