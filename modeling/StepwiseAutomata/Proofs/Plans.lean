import StepwiseAutomata.Proofs.Consistency
import StepwiseAutomata.Proofs.Planning

namespace StepwiseAutomata

attribute [local instance] Ids.endless

theorem Edit.Below.mono {c d : Counters} {e : Edit} (below : e.Below c) (le : c ≤ d) : e.Below d := by
  cases e with
  | addState s => exact Nat.lt_of_lt_of_le below le.1
  | removeState s => exact Nat.lt_of_lt_of_le below le.1
  | addTransition t =>
    exact ⟨Nat.lt_of_lt_of_le below.1 le.2,Nat.lt_of_lt_of_le below.2.1 le.1,Nat.lt_of_lt_of_le below.2.2 le.1⟩
  | removeTransition t =>
    exact ⟨Nat.lt_of_lt_of_le below.1 le.2,Nat.lt_of_lt_of_le below.2.1 le.1,Nat.lt_of_lt_of_le below.2.2 le.1⟩
  | setFinal id isFinal wasFinal => exact Nat.lt_of_lt_of_le below le.1

namespace Graph

variable {g : Graph}

theorem Below.mono {c d : Counters} (below : g.Below c) (le : c ≤ d) : g.Below d :=
  ⟨fun s present => Nat.lt_of_lt_of_le (below.state s present) le.1,
    fun t has => Nat.lt_of_lt_of_le (below.transition t has) le.2⟩

theorem Below.absent_state {c : Counters} (below : g.Below c) {s : Nat} (new : c.nextState ≤ s) :
    g.flag? s = none := by
  by_contra present
  have := below.state s (Option.isSome_iff_ne_none.mpr present)
  omega

theorem Below.absent_transition {c : Counters} (below : g.Below c) (closed : g.Closed) {i : Nat}
    (new : c.nextTransition ≤ i) : g.transition? i = none := by
  cases found : g.transition? i with
  | none => rfl
  | some t =>
    have := below.transition t (closed.has found)
    rw [closed.keyed i t found] at this
    omega

/-- An edit that names ids given out brings no others into the graph. -/
theorem Below.edit {c : Counters} {e : Edit} (below : g.Below c) (low : e.Below c) : (g.edit e).Below c := by
  have flags (s : Nat) (present : (g.edit e).HasState s) : g.HasState s ∨ s < c.nextState := by
    cases e with
    | addState r =>
      rw [HasState,flag?_edit_addState] at present
      split at present
      · rename_i same; exact .inr (same ▸ low)
      · exact .inl present
    | removeState r =>
      by_cases start : r.id = g.start
      · rw [Graph.edit,Edit.forward,apply,if_pos start] at present
        exact .inl present
      · rw [HasState,flag?_edit_removeState start] at present
        split at present
        · cases present
        · exact .inl present
    | setFinal id isFinal wasFinal =>
      rw [HasState,flag?_edit_setFinal] at present
      split at present
      · exact .inl (by rwa [Option.isSome_map] at present)
      · exact .inl present
    | addTransition t => exact .inl present
    | removeTransition t => exact .inl present
  refine ⟨fun s present => (flags s present).elim (below.state s) id,fun t has => ?_⟩
  cases e with
  | addTransition u =>
    rw [Has,transition?_edit_addTransition] at has
    split at has
    · cases has; exact low.1
    · exact below.transition t has
  | removeTransition u =>
    rw [Has,transition?_edit_removeTransition] at has
    split at has
    · cases has
    · exact below.transition t has
  | removeState r =>
    rw [Has,transition?_edit_removeState] at has
    exact below.transition t has
  | addState r => exact below.transition t has
  | setFinal id isFinal wasFinal => exact below.transition t has

theorem Below.editAll {c : Counters} {es : List Edit} (below : g.Below c) (low : ∀ e ∈ es, e.Below c) :
    (g.editAll es).Below c := by
  induction es generalizing g with
  | nil => exact below
  | cons e es ih => exact ih (below.edit (low e (by simp))) fun e' member => low e' (by simp [member])

/-- Edits that fit name ids given out, when they do so for what they add. -/
theorem below_of_takes {c : Counters} {es : List Edit} (closed : g.Closed) (below : g.Below c) (takes : g.Takes es)
    (states : ∀ s ∈ Edit.addedStates es, s.id < c.nextState)
    (transitions : ∀ t ∈ Edit.added es, t.id < c.nextTransition) : ∀ e ∈ es, e.Below c := by
  induction es generalizing g with
  | nil => exact nofun
  | cons e es ih =>
    have ends (t : Transition) (has : g.Has t) : t.id < c.nextTransition ∧ t.source < c.nextState ∧
        t.target < c.nextState :=
      ⟨below.transition t has,below.state _ (closed.source_present t has),below.state _ (closed.target_present t has)⟩
    have here : e.Below c := by
      obtain ⟨fits,_⟩ := takes
      cases e with
      | addState s => exact states s (by simp [Edit.addedState?])
      | removeState s => exact below.state s.id (by rw [HasState,fits.1]; rfl)
      | addTransition t =>
        exact ⟨transitions t (by simp [Edit.addedTransition?]),below.state _ fits.2.1,below.state _ fits.2.2⟩
      | removeTransition t => exact ends t fits
      | setFinal id isFinal wasFinal =>
        have flag : g.flag? id = some wasFinal := fits
        exact below.state id (by rw [HasState,flag]; rfl)
    refine List.forall_mem_cons.mpr ⟨here,ih (closed.edit takes.1) (below.edit here) takes.2 ?_ ?_⟩
    · exact fun s member => states s (by rw [Edit.addedStates_cons]; exact List.mem_append_right _ member)
    · exact fun t member => transitions t (by rw [Edit.added_cons]; exact List.mem_append_right _ member)

theorem takes_removals {ts : List Transition} (nodup : ts.Nodup) (present : ∀ t ∈ ts, g.Has t) :
    g.Takes (ts.map .removeTransition) := by
  induction ts generalizing g with
  | nil => trivial
  | cons t ts ih =>
    obtain ⟨new,nodup⟩ := List.nodup_cons.mp nodup
    have here := present t (by simp)
    refine ⟨here,ih nodup fun u member => (has_edit_removeTransition here).mpr ⟨present u (by simp [member]),?_⟩⟩
    rintro rfl
    exact new member

theorem takes_additions {ts : List Transition} (ids : (ts.map Transition.id).Nodup)
    (absent : ∀ t ∈ ts, g.transition? t.id = none) (ends : ∀ t ∈ ts, g.HasState t.source ∧ g.HasState t.target) :
    g.Takes (ts.map .addTransition) := by
  induction ts generalizing g with
  | nil => trivial
  | cons t ts ih =>
    obtain ⟨new,ids⟩ := List.nodup_cons.mp ids
    refine ⟨⟨absent t (by simp),ends t (by simp)⟩,ih ids ?_ fun u member => ends u (by simp [member])⟩
    intro u member
    rw [transition?_edit_addTransition,if_neg]
    · exact absent u (by simp [member])
    · intro same
      exact new (same ▸ List.mem_map_of_mem member)

/-- Arcs between present states can be added under new ids. -/
theorem takes_number {c : Counters} {arcs : List Arc} (new : ∀ i, c.nextTransition ≤ i → g.transition? i = none)
    (ends : ∀ arc ∈ arcs, g.HasState arc.source ∧ g.HasState arc.target) :
    g.Takes ((c.number arcs).map .addTransition) := by
  refine takes_additions ?_ (fun t member => new t.id (Counters.id_of_mem_number member).1)
    fun t member => ends t.toArc (Counters.toArc_mem_of_mem_number member)
  rw [Counters.map_id_number]
  exact Ids.nodup_series _ _

theorem takes_addStates {ss : List State} (ids : (ss.map State.id).Nodup) (absent : ∀ s ∈ ss, g.flag? s.id = none) :
    g.Takes (ss.map .addState) := by
  induction ss generalizing g with
  | nil => trivial
  | cons s ss ih =>
    obtain ⟨new,ids⟩ := List.nodup_cons.mp ids
    refine ⟨absent s (by simp),ih ids ?_⟩
    intro r member
    rw [flag?_edit_addState,if_neg]
    · exact absent r (by simp [member])
    · intro same
      exact new (same ▸ List.mem_map_of_mem member)

theorem takes_removeStates {ss : List State} (ids : (ss.map State.id).Nodup)
    (flags : ∀ s ∈ ss, g.flag? s.id = some s.isFinal) (others : ∀ s ∈ ss, s.id ≠ g.start)
    (unused : ∀ s ∈ ss, ∀ t, g.Has t → t.source ≠ s.id ∧ t.target ≠ s.id) : g.Takes (ss.map .removeState) := by
  induction ss generalizing g with
  | nil => trivial
  | cons s ss ih =>
    obtain ⟨new,ids⟩ := List.nodup_cons.mp ids
    refine ⟨⟨flags s (by simp),others s (by simp),unused s (by simp)⟩,ih ids ?_ ?_ ?_⟩
    · intro r member
      rw [flag?_edit_removeState (others s (by simp)),if_neg]
      · exact flags r (by simp [member])
      · intro same
        exact new (same ▸ List.mem_map_of_mem member)
    · intro r member
      rw [start_edit]
      exact others r (by simp [member])
    · intro r member t has
      rw [Has,transition?_edit_removeState] at has
      exact unused r (by simp [member]) t has

theorem flag?_addStates {ss : List State} (ids : (ss.map State.id).Nodup) :
    (∀ s ∈ ss, (g.editAll (ss.map .addState)).flag? s.id = some s.isFinal) ∧
      ∀ i, i ∉ ss.map State.id → (g.editAll (ss.map .addState)).flag? i = g.flag? i := by
  induction ss generalizing g with
  | nil => simp
  | cons s ss ih =>
    obtain ⟨new,ids⟩ := List.nodup_cons.mp ids
    obtain ⟨added,others⟩ := ih (g := g.edit (.addState s)) ids
    rw [List.map_cons,editAll_cons]
    constructor
    · intro r member
      rcases List.mem_cons.mp member with rfl | member
      · rw [others _ new,flag?_edit_addState,if_pos rfl]
      · exact added r member
    · intro i outside
      rw [List.map_cons,List.mem_cons,not_or] at outside
      rw [others i outside.2,flag?_edit_addState,if_neg outside.1]

theorem flag?_removeStates {ss : List State} (others : ∀ s ∈ ss, s.id ≠ g.start) (i : Nat) :
    (g.editAll (ss.map .removeState)).flag? i = if i ∈ ss.map State.id then none else g.flag? i := by
  induction ss generalizing g with
  | nil => simp
  | cons s ss ih =>
    rw [List.map_cons,editAll_cons,ih fun r member => by rw [start_edit]; exact others r (by simp [member]),
      flag?_edit_removeState (others s (by simp))]
    by_cases here : i = s.id
    · simp [here]
    · simp [here]

end Graph

/-- The edits fit, and the ids of what they add are below counters that have only grown. -/
structure Plan.Sound (p : Plan) (a : Automaton) : Prop where
  takes : a.graph.Takes p.command.edits
  grows : a.counters ≤ p.counters
  states_below : ∀ s ∈ Edit.addedStates p.command.edits, s.id < p.counters.nextState
  transitions_below : ∀ t ∈ Edit.added p.command.edits, t.id < p.counters.nextTransition

theorem Plan.Sound.below {p : Plan} {a : Automaton} (sound : p.Sound a) (consistent : a.Consistent) :
    ∀ e ∈ p.command.edits, e.Below p.counters :=
  Graph.below_of_takes consistent.closed (consistent.below.mono sound.grows) sound.takes sound.states_below
    sound.transitions_below

namespace Automaton

variable {a : Automaton}

/-- The automaton once the ids of the plan are taken and its command is executed. -/
def perform (a : Automaton) (p : Plan) : Automaton := { a with counters := p.counters }.applyAll p.command.forward

@[simp] theorem graph_perform (p : Plan) : (a.perform p).graph = a.graph.editAll p.command.edits :=
  graph_applyAll (a := { a with counters := p.counters }) p.command.edits

@[simp] theorem counters_perform (p : Plan) : (a.perform p).counters = p.counters := counters_applyAll _

/-- The counters are not part of the index. -/
theorem Indexed.counted (indexed : a.Indexed) (c : Counters) : { a with counters := c }.Indexed :=
  ⟨indexed.closed,indexed.outgoing_iff,indexed.ingoing_iff,indexed.outgoing_nodup,indexed.ingoing_nodup⟩

theorem Consistent.perform (consistent : a.Consistent) {p : Plan} (sound : p.Sound a) : (a.perform p).Consistent where
  toIndexed := (consistent.counted p.counters).editAll sound.takes
  below := by
    rw [graph_perform,counters_perform]
    exact (consistent.below.mono sound.grows).editAll (sound.below consistent)

/-- Plans can be made and performed along a list when each leads from the invariant to that for the rest of the list. -/
theorem exists_foldlM_perform {ε α : Type} {make : Automaton → α → Except ε Plan}
    (inv : List α → Automaton → Prop)
    (turn : ∀ x l b, inv (x :: l) b → ∃ p, make b x = .ok p ∧ inv l (b.perform p)) (l : List α) (start : inv l a) :
    ∃ c, l.foldlM (fun b x => (make b x).map b.perform) a = .ok c ∧ inv [] c := by
  induction l generalizing a with
  | nil => exact ⟨a,rfl,start⟩
  | cons x l ih =>
    obtain ⟨p,made,next⟩ := turn x l a start
    obtain ⟨c,run,done⟩ := ih next
    refine ⟨c,?_,done⟩
    rw [List.foldlM_cons,made]
    exact run

/-- New ids for the states and the transitions of a group of edits that fits make a sound plan. -/
theorem sound_ofEdits {title : String} {es : List Edit} {notes : List Note} {arcs : List Arc}
    (takes : a.graph.Takes es)
    (states : ∀ s ∈ Edit.addedStates es, s.id < a.counters.nextState + (Edit.addedStates es).length)
    (transitions : Edit.added es = a.counters.number arcs) : (Plan.ofEdits a title es notes).Sound a := by
  have edits : (Plan.ofEdits a title es notes).command.edits = es := Command.edits_ofEdits title es
  have counters : (Plan.ofEdits a title es notes).counters =
      ⟨a.counters.nextState + (Edit.addedStates es).length,a.counters.nextTransition + (Edit.added es).length⟩ :=
    Counters.advance_endless _ _ _
  refine ⟨by rw [edits]; exact takes,Counters.le_advance _ _ _,by rw [edits,counters]; exact states,?_⟩
  intro t member
  rw [edits] at member
  rw [counters]
  rw [transitions] at member ⊢
  rw [Counters.length_number]
  exact (Counters.id_of_mem_number member).2

/-- The arcs after a plan are the new ones and those of the transitions that are left. -/
theorem Consistent.hasArc_editAll (consistent : a.Consistent) {es : List Edit} {arcs : List Arc}
    (takes : a.graph.Takes es) (added : Edit.added es = a.counters.number arcs)
    (removed : ∀ t ∈ Edit.removed es, a.graph.Has t) (arc : Arc) :
    (a.graph.editAll es).HasArc arc ↔
      arc ∈ arcs ∨ ∃ t, (a.graph.Has t ∧ t ∉ Edit.removed es) ∧ t.toArc = arc := by
  have apart : ∀ t ∈ Edit.added es, t ∉ Edit.removed es := by
    intro t new old
    rw [added] at new
    have := consistent.below.transition t (removed t old)
    have := (Counters.id_of_mem_number new).1
    omega
  simp only [Graph.HasArc,Graph.has_editAll takes apart,added]
  rw [← Counters.exists_mem_number (c := a.counters)]
  constructor
  · rintro ⟨t,new | old,same⟩
    · exact .inl ⟨t,new,same⟩
    · exact .inr ⟨t,old,same⟩
  · rintro (⟨t,new,same⟩ | ⟨t,old,same⟩)
    · exact ⟨t,.inl new,same⟩
    · exact ⟨t,.inr old,same⟩

end Automaton
end StepwiseAutomata
