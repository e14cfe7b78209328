import Mathlib
import StepwiseAutomata.Command

/-!
What an automaton says, whatever the order of its lists: which states are present, which of them are final, and
which transition an id stands for. An edit fits a graph when it does there what its name says. Edits that fit
keep a graph closed, and their reverses, applied from the last to the first, fit as well and lead back exactly.
-/
namespace StepwiseAutomata

/-- The final flags of the present states, and the transitions by id. -/
structure Graph where
  start : Nat
  flag? : Nat → Option Bool
  transition? : Nat → Option Transition

namespace Graph

def HasState (g : Graph) (s : Nat) : Prop := (g.flag? s).isSome = true
def IsFinal (g : Graph) (s : Nat) : Prop := g.flag? s = some true
def Has (g : Graph) (t : Transition) : Prop := g.transition? t.id = some t
def HasArc (g : Graph) (arc : Arc) : Prop := ∃ t, g.Has t ∧ t.toArc = arc

/-- The start state is present, transitions are known by their own ids, and their ends are present. -/
structure Closed (g : Graph) : Prop where
  start_present : g.HasState g.start
  keyed : ∀ i t, g.transition? i = some t → t.id = i
  source_present : ∀ t, g.Has t → g.HasState t.source
  target_present : ∀ t, g.Has t → g.HasState t.target

/-- Every id in the graph has been given out. -/
structure Below (g : Graph) (c : Counters) : Prop where
  state : ∀ s, g.HasState s → s < c.nextState
  transition : ∀ t, g.Has t → t.id < c.nextTransition

def apply (g : Graph) : Change → Graph
  | .addState s => { g with flag? := fun i => if i = s.id then some s.isFinal else g.flag? i }
  | .removeState id => if id = g.start then g else { g with flag? := fun i => if i = id then none else g.flag? i }
  | .addTransition t => { g with transition? := fun i => if i = t.id then some t else g.transition? i }
  | .removeTransition id => { g with transition? := fun i => if i = id then none else g.transition? i }
  | .setFinal id b => { g with flag? := fun i => if i = id then (g.flag? i).map fun _ => b else g.flag? i }

def edit (g : Graph) (e : Edit) : Graph := g.apply e.forward
def editAll (g : Graph) (es : List Edit) : Graph := es.foldl edit g

end Graph

namespace Edit

/-- What the edit adds is not there yet, what it removes is there and not in use, and the flag it records is
    the one that the state has. -/
def Fits (g : Graph) : Edit → Prop
  | addState s => g.flag? s.id = none
  | removeState s => g.flag? s.id = some s.isFinal ∧ s.id ≠ g.start ∧
      ∀ t, g.Has t → t.source ≠ s.id ∧ t.target ≠ s.id
  | addTransition t => g.transition? t.id = none ∧ g.HasState t.source ∧ g.HasState t.target
  | removeTransition t => g.Has t
  | setFinal id _ was => g.flag? id = some was

/-- The edit that takes this one back. -/
def reverse : Edit → Edit
  | addState s => removeState s
  | removeState s => addState s
  | addTransition t => removeTransition t
  | removeTransition t => addTransition t
  | setFinal id isFinal wasFinal => setFinal id wasFinal isFinal

/-- The states that the edits add, in their order. -/
def addedStates (es : List Edit) : List State := es.filterMap addedState?
/-- The transitions that the edits add, in their order. -/
def added (es : List Edit) : List Transition := es.filterMap addedTransition?
/-- The transitions that the edits remove, in their order. -/
def removed (es : List Edit) : List Transition := es.filterMap fun
  | removeTransition t => some t
  | _ => none

/-- The edit leaves all states and their flags as they are. -/
def OnTransitions : Edit → Prop
  | addTransition _ => True
  | removeTransition _ => True
  | _ => False

/-- Every id that the edit names has been given out. -/
def Below (c : Counters) : Edit → Prop
  | addState s | removeState s => s.id < c.nextState
  | addTransition t | removeTransition t =>
    t.id < c.nextTransition ∧ t.source < c.nextState ∧ t.target < c.nextState
  | setFinal id _ _ => id < c.nextState

section
variable (xs ys : List Edit) (ts : List Transition) (ss : List State)

@[simp] theorem added_append : added (xs ++ ys) = added xs ++ added ys := List.filterMap_append
@[simp] theorem removed_append : removed (xs ++ ys) = removed xs ++ removed ys := List.filterMap_append
@[simp] theorem addedStates_append : addedStates (xs ++ ys) = addedStates xs ++ addedStates ys :=
  List.filterMap_append

@[simp] theorem added_nil : added [] = [] := rfl
@[simp] theorem removed_nil : removed [] = [] := rfl
@[simp] theorem addedStates_nil : addedStates [] = [] := rfl

@[simp] theorem added_cons (e : Edit) : added (e :: xs) = e.addedTransition?.toList ++ added xs := by
  cases e <;> rfl
@[simp] theorem removed_cons (e : Edit) : removed (e :: xs) = removed [e] ++ removed xs :=
  removed_append [e] xs
@[simp] theorem addedStates_cons (e : Edit) : addedStates (e :: xs) = e.addedState?.toList ++ addedStates xs := by
  cases e <;> rfl

@[simp] theorem added_map_addTransition : added (ts.map .addTransition) = ts := by
  induction ts with
  | nil => rfl
  | cons t ts ih => simp [ih,addedTransition?]
@[simp] theorem added_map_removeTransition : added (ts.map .removeTransition) = [] := by
  induction ts with
  | nil => rfl
  | cons t ts ih => simp [ih,addedTransition?]
@[simp] theorem added_map_addState : added (ss.map .addState) = [] := by
  induction ss with
  | nil => rfl
  | cons s ss ih => simp [ih,addedTransition?]
@[simp] theorem added_map_removeState : added (ss.map .removeState) = [] := by
  induction ss with
  | nil => rfl
  | cons s ss ih => simp [ih,addedTransition?]
@[simp] theorem removed_map_addTransition : removed (ts.map .addTransition) = [] := by
  induction ts with
  | nil => rfl
  | cons t ts ih => exact ih
@[simp] theorem removed_map_removeTransition : removed (ts.map .removeTransition) = ts := by
  induction ts with
  | nil => rfl
  | cons t ts ih => exact congrArg (t :: ·) ih
@[simp] theorem removed_map_addState : removed (ss.map .addState) = [] := by
  induction ss with
  | nil => rfl
  | cons s ss ih => exact ih
@[simp] theorem removed_map_removeState : removed (ss.map .removeState) = [] := by
  induction ss with
  | nil => rfl
  | cons s ss ih => exact ih
@[simp] theorem addedStates_map_addTransition : addedStates (ts.map .addTransition) = [] := by
  induction ts with
  | nil => rfl
  | cons t ts ih => exact ih
@[simp] theorem addedStates_map_removeTransition : addedStates (ts.map .removeTransition) = [] := by
  induction ts with
  | nil => rfl
  | cons t ts ih => exact ih
@[simp] theorem addedStates_map_addState : addedStates (ss.map .addState) = ss := by
  induction ss with
  | nil => rfl
  | cons s ss ih => exact congrArg (s :: ·) ih
@[simp] theorem addedStates_map_removeState : addedStates (ss.map .removeState) = [] := by
  induction ss with
  | nil => rfl
  | cons s ss ih => exact ih

end

theorem forward_reverse (e : Edit) : e.reverse.forward = e.backward := by cases e <;> rfl

end Edit

namespace Graph

variable {g : Graph}

/-- Each edit fits the graph that the edits before it lead to. -/
def Takes (g : Graph) : List Edit → Prop
  | [] => True
  | e :: es => e.Fits g ∧ (g.edit e).Takes es

theorem Closed.has {i : Nat} {t : Transition} (closed : g.Closed) (found : g.transition? i = some t) : g.Has t := by
  have same := closed.keyed i t found
  rw [Has,same,found]

theorem Closed.transition?_eq_some_iff {i : Nat} {t : Transition} (closed : g.Closed) :
    g.transition? i = some t ↔ g.Has t ∧ t.id = i := by
  constructor
  · intro found
    exact ⟨closed.has found,closed.keyed i t found⟩
  · rintro ⟨has,rfl⟩
    exact has

theorem Has.eq_of_id {t t' : Transition} (first : g.Has t) (second : g.Has t') (same : t.id = t'.id) : t = t' := by
  rw [Has,same,second] at first
  exact (Option.some.inj first).symm

@[simp] theorem start_edit (e : Edit) : (g.edit e).start = g.start := by
  cases e with
  | removeState s =>
    simp only [edit,Edit.forward,apply]
    split <;> rfl
  | _ => rfl

@[simp] theorem start_editAll (es : List Edit) : (g.editAll es).start = g.start := by
  induction es generalizing g with
  | nil => rfl
  | cons e es ih =>
    show ((g.edit e).editAll es).start = g.start
    rw [ih,start_edit]

@[simp] theorem editAll_nil : g.editAll [] = g := rfl
@[simp] theorem editAll_cons (e : Edit) (es : List Edit) : g.editAll (e :: es) = (g.edit e).editAll es := rfl

theorem editAll_append (xs ys : List Edit) : g.editAll (xs ++ ys) = (g.editAll xs).editAll ys := by
  simp [editAll]

@[simp] theorem takes_nil : g.Takes [] := trivial
@[simp] theorem takes_cons {e : Edit} {es : List Edit} :
    g.Takes (e :: es) ↔ e.Fits g ∧ (g.edit e).Takes es := Iff.rfl

theorem takes_append {xs ys : List Edit} : g.Takes (xs ++ ys) ↔ g.Takes xs ∧ (g.editAll xs).Takes ys := by
  induction xs generalizing g with
  | nil => simp
  | cons x xs ih => simp [ih,and_assoc]

@[simp] theorem flag?_edit_addState (s : State) (i : Nat) :
    (g.edit (.addState s)).flag? i = if i = s.id then some s.isFinal else g.flag? i := rfl
theorem flag?_edit_removeState {s : State} (other : s.id ≠ g.start) (i : Nat) :
    (g.edit (.removeState s)).flag? i = if i = s.id then none else g.flag? i := by
  simp [edit,Edit.forward,apply,other]
@[simp] theorem flag?_edit_setFinal (id : Nat) (isFinal wasFinal : Bool) (i : Nat) :
    (g.edit (.setFinal id isFinal wasFinal)).flag? i =
      if i = id then (g.flag? i).map fun _ => isFinal else g.flag? i := rfl
@[simp] theorem flag?_edit_addTransition (t : Transition) : (g.edit (.addTransition t)).flag? = g.flag? := rfl
@[simp] theorem flag?_edit_removeTransition (t : Transition) : (g.edit (.removeTransition t)).flag? = g.flag? := rfl

@[simp] theorem transition?_edit_addTransition (t : Transition) (i : Nat) :
    (g.edit (.addTransition t)).transition? i = if i = t.id then some t else g.transition? i := rfl
@[simp] theorem transition?_edit_removeTransition (t : Transition) (i : Nat) :
    (g.edit (.removeTransition t)).transition? i = if i = t.id then none else g.transition? i := rfl
@[simp] theorem transition?_edit_addState (s : State) : (g.edit (.addState s)).transition? = g.transition? := rfl
@[simp] theorem transition?_edit_setFinal (id : Nat) (isFinal wasFinal : Bool) :
    (g.edit (.setFinal id isFinal wasFinal)).transition? = g.transition? := rfl
@[simp] theorem transition?_edit_removeState (s : State) :
    (g.edit (.removeState s)).transition? = g.transition? := by
  simp only [edit,Edit.forward,apply]
  split <;> rfl

/-- Flags are untouched by edits of transitions. -/
theorem flag?_editAll_of_onTransitions {es : List Edit} (only : ∀ e ∈ es, e.OnTransitions) :
    (g.editAll es).flag? = g.flag? := by
  induction es generalizing g with
  | nil => rfl
  | cons e es ih =>
    rw [editAll_cons,ih fun e' member => only e' (by simp [member])]
    have here := only e (by simp)
    cases e with
    | addTransition t => rfl
    | removeTransition t => rfl
    | _ => exact here.elim

theorem has_edit_addTransition {t t' : Transition} (absent : g.transition? t.id = none) :
    (g.edit (.addTransition t)).Has t' ↔ t' = t ∨ g.Has t' := by
  unfold Has
  rw [transition?_edit_addTransition]
  by_cases same : t'.id = t.id
  · rw [if_pos same,same,absent]
    constructor
    · intro eq; exact .inl (Option.some.inj eq).symm
    · rintro (rfl | impossible)
      · rfl
      · cases impossible
  · rw [if_neg same]
    constructor
    · exact .inr
    · rintro (rfl | has)
      · exact absurd rfl same
      · exact has

theorem has_edit_removeTransition {t t' : Transition} (present : g.Has t) :
    (g.edit (.removeTransition t)).Has t' ↔ g.Has t' ∧ t' ≠ t := by
  unfold Has
  rw [transition?_edit_removeTransition]
  by_cases same : t'.id = t.id
  · rw [if_pos same]
    constructor
    · intro impossible; cases impossible
    · rintro ⟨has,other⟩
      exact absurd (Has.eq_of_id has present same) other
  · rw [if_neg same]
    exact ⟨fun has => ⟨has,fun eq => same (congrArg Transition.id eq)⟩,And.left⟩

theorem Closed.edit (closed : g.Closed) {e : Edit} (fits : e.Fits g) : (g.edit e).Closed := by
  cases e with
  | addState s =>
    have keeps : ∀ i, g.HasState i → (g.edit (.addState s)).HasState i := by
      intro i present
      rw [HasState,flag?_edit_addState]
      split
      · rfl
      · exact present
    exact ⟨keeps _ closed.start_present,closed.keyed,fun t has => keeps _ (closed.source_present t has),
      fun t has => keeps _ (closed.target_present t has)⟩
  | removeState s =>
    obtain ⟨_,other,unused⟩ := fits
    have keeps : ∀ i, i ≠ s.id → g.HasState i → (g.edit (.removeState s)).HasState i := by
      intro i different present
      rw [HasState,flag?_edit_removeState other,if_neg different]
      exact present
    refine ⟨?_,?_,?_,?_⟩
    · rw [start_edit]
      exact keeps _ other.symm closed.start_present
    · rw [transition?_edit_removeState]
      exact closed.keyed
    · intro t has
      rw [Has,transition?_edit_removeState] at has
      exact keeps _ (unused t has).1 (closed.source_present t has)
    · intro t has
      rw [Has,transition?_edit_removeState] at has
      exact keeps _ (unused t has).2 (closed.target_present t has)
  | addTransition t =>
    obtain ⟨absent,source,target⟩ := fits
    refine ⟨closed.start_present,?_,?_,?_⟩
    · intro i t' found
      rw [transition?_edit_addTransition] at found
      split at found
      · rename_i same
        cases found
        exact same.symm
      · exact closed.keyed i t' found
    · intro t' has
      rcases (has_edit_addTransition absent).mp has with rfl | has
      · exact source
      · exact closed.source_present t' has
    · intro t' has
      rcases (has_edit_addTransition absent).mp has with rfl | has
      · exact target
      · exact closed.target_present t' has
  | removeTransition t =>
    refine ⟨closed.start_present,?_,?_,?_⟩
    · intro i t' found
      rw [transition?_edit_removeTransition] at found
      split at found
      · cases found
      · exact closed.keyed i t' found
    · intro t' has
      exact closed.source_present t' ((has_edit_removeTransition fits).mp has).1
    · intro t' has
      exact closed.target_present t' ((has_edit_removeTransition fits).mp has).1
  | setFinal id isFinal wasFinal =>
    have keeps : ∀ i, g.HasState i → (g.edit (.setFinal id isFinal wasFinal)).HasState i := by
      intro i present
      rw [HasState,flag?_edit_setFinal]
      split
      · rw [Option.isSome_map]; exact present
      · exact present
    exact ⟨keeps _ closed.start_present,closed.keyed,fun t has => keeps _ (closed.source_present t has),
      fun t has => keeps _ (closed.target_present t has)⟩

theorem Closed.editAll (closed : g.Closed) {es : List Edit} (takes : g.Takes es) : (g.editAll es).Closed := by
  induction es generalizing g with
  | nil => exact closed
  | cons e es ih => exact ih (closed.edit takes.1) takes.2

/-- What an edit did is exactly what its reverse can undo. -/
theorem fits_reverse (closed : g.Closed) {e : Edit} (fits : e.Fits g) :
    e.reverse.Fits (g.edit e) ∧ (g.edit e).edit e.reverse = g := by
  cases e with
  | addState s =>
    have other : s.id ≠ g.start := by
      intro same
      have present := closed.start_present
      rw [HasState,← same,fits] at present
      cases present
    refine ⟨⟨by simp,other,?_⟩,?_⟩
    · intro t has
      constructor
      · intro same
        have present := closed.source_present t has
        rw [HasState,same,fits] at present
        cases present
      · intro same
        have present := closed.target_present t has
        rw [HasState,same,fits] at present
        cases present
    · refine (if_neg other).trans ?_
      simp only [Graph.edit,Edit.forward,apply]
      congr 1
      funext i
      split
      · rename_i same; rw [same]; exact fits.symm
      · rfl
  | removeState s =>
    obtain ⟨flag,other,unused⟩ := fits
    refine ⟨by simp [Edit.reverse,Edit.Fits,flag?_edit_removeState other],?_⟩
    show Graph.edit _ (.addState s) = g
    simp only [Graph.edit,Edit.forward,apply,if_neg other]
    congr 1
    funext i
    split
    · rename_i same; rw [same,flag]
    · rfl
  | addTransition t =>
    obtain ⟨absent,source,target⟩ := fits
    refine ⟨by simp [Edit.reverse,Edit.Fits,Has],?_⟩
    show Graph.edit _ (.removeTransition t) = g
    simp only [Graph.edit,Edit.forward,apply]
    congr 1
    funext i
    split
    · rename_i same; rw [same,absent]
    · rfl
  | removeTransition t =>
    refine ⟨⟨by simp,closed.source_present t fits,closed.target_present t fits⟩,?_⟩
    show Graph.edit _ (.addTransition t) = g
    simp only [Graph.edit,Edit.forward,apply]
    congr 1
    funext i
    split
    · rename_i same; rw [same]; exact fits.symm
    · rfl
  | setFinal id isFinal wasFinal =>
    have flag : g.flag? id = some wasFinal := fits
    refine ⟨by simp [Edit.reverse,Edit.Fits,flag],?_⟩
    show Graph.edit _ (.setFinal id wasFinal isFinal) = g
    simp only [Graph.edit,Edit.forward,apply]
    congr 1
    funext i
    split
    · rename_i same; rw [same,flag]; rfl
    · rfl

/-- Edits that fit are taken back by their reverses, from the last to the first. -/
theorem takes_reverse (closed : g.Closed) {es : List Edit} (takes : g.Takes es) :
    (g.editAll es).Takes (es.reverse.map Edit.reverse) ∧
      (g.editAll es).editAll (es.reverse.map Edit.reverse) = g := by
  induction es generalizing g with
  | nil => simp
  | cons e es ih =>
    obtain ⟨restTakes,restBack⟩ := ih (closed.edit takes.1) takes.2
    obtain ⟨fits,back⟩ := fits_reverse closed takes.1
    rw [editAll_cons,List.reverse_cons,List.map_append,takes_append,editAll_append,restBack]
    exact ⟨⟨restTakes,fits,trivial⟩,back⟩

/-- After an edit that fits, the transitions are the one added and those that were there and were not removed. -/
theorem has_edit {e : Edit} (fits : e.Fits g) (t : Transition) :
    (g.edit e).Has t ↔ t ∈ Edit.added [e] ∨ g.Has t ∧ t ∉ Edit.removed [e] := by
  cases e with
  | addTransition t' =>
    have here : t ∈ Edit.added [.addTransition t'] ↔ t = t' := List.mem_singleton
    have none : t ∉ Edit.removed [.addTransition t'] := List.not_mem_nil
    rw [has_edit_addTransition fits.1,here,and_iff_left none]
  | removeTransition t' =>
    have here : t ∈ Edit.removed [.removeTransition t'] ↔ t = t' := List.mem_singleton
    have none : t ∉ Edit.added [.removeTransition t'] := List.not_mem_nil
    rw [has_edit_removeTransition fits,here,or_iff_right none]
  | addState s =>
    show g.Has t ↔ _
    simp [Edit.added,Edit.removed,Edit.addedTransition?]
  | removeState s =>
    rw [Has,transition?_edit_removeState]
    simp [Edit.added,Edit.removed,Edit.addedTransition?,Has]
  | setFinal id isFinal wasFinal =>
    show g.Has t ↔ _
    simp [Edit.added,Edit.removed,Edit.addedTransition?]

/-- The same after edits that fit, as long as nothing is added and removed again. -/
theorem has_editAll {es : List Edit} (takes : g.Takes es) (apart : ∀ t ∈ Edit.added es, t ∉ Edit.removed es)
    (t : Transition) : (g.editAll es).Has t ↔ t ∈ Edit.added es ∨ g.Has t ∧ t ∉ Edit.removed es := by
  induction es using List.reverseRecOn with
  | nil => simp
  | append_singleton es e ih =>
    rw [takes_append] at takes
    obtain ⟨before,fits,_⟩ := takes
    rw [Edit.added_append,Edit.removed_append] at apart ⊢
    have before := ih before fun t member removed =>
      apart t (List.mem_append_left _ member) (List.mem_append_left _ removed)
    have kept : t ∈ Edit.added es → t ∉ Edit.removed [e] := fun member removed =>
      apart t (List.mem_append_left _ member) (List.mem_append_right _ removed)
    rw [editAll_append,editAll_cons,editAll_nil,has_edit fits,before,List.mem_append,List.mem_append]
    tauto

/-- What is there after edits that fit has been there before or was added by one of them. -/
theorem Takes.has_or_added {es : List Edit} (takes : g.Takes es) {t : Transition} (has : (g.editAll es).Has t) :
    g.Has t ∨ t ∈ Edit.added es := by
  induction es generalizing g with
  | nil => exact .inl has
  | cons e es ih =>
    rw [show Edit.added (e :: es) = Edit.added [e] ++ Edit.added es from Edit.added_append [e] es,List.mem_append]
    rcases ih takes.2 has with here | later
    · rcases (has_edit takes.1 t).mp here with new | ⟨old,_⟩
      · exact .inr (.inl new)
      · exact .inl old
    · exact .inr (.inr later)

/-- What edits that fit remove was there, or one of them has added it before. -/
theorem Takes.has_of_removed {es : List Edit} (takes : g.Takes es) {t : Transition} (member : t ∈ Edit.removed es) :
    g.Has t ∨ t ∈ Edit.added es := by
  induction es generalizing g with
  | nil => cases member
  | cons e es ih =>
    rw [Edit.removed_cons,List.mem_append] at member
    rcases member with here | later
    · cases e with
      | removeTransition u =>
        rw [List.mem_singleton.mp here]
        exact .inl takes.1
      | _ => cases here
    · rw [show Edit.added (e :: es) = Edit.added [e] ++ Edit.added es from Edit.added_append [e] es,List.mem_append]
      rcases ih takes.2 later with has | added
      · rcases (has_edit takes.1 t).mp has with new | ⟨old,_⟩
        · exact .inr (.inl new)
        · exact .inl old
      · exact .inr (.inr added)

end Graph
end StepwiseAutomata
