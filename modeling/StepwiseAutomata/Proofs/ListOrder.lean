import StepwiseAutomata.Proofs.Degrees
import StepwiseAutomata.Proofs.Replay

/-!
The order of the lists of an automaton. Taking an edit back puts a transition at the end of its lists that may have been
elsewhere before, so that in the middle of a history the order depends on the way there. But a transition that was put
back is one that will be removed again, and apart from those the order is that of the commands.
-/
namespace StepwiseAutomata

namespace Edit

/-- The transitions that the edits add with that end at the state, in their order. -/
def addedAt (e : End) (s : Nat) (es : List Edit) : List Transition :=
  (added es).filter fun t : Transition => t.tip e == s

theorem addedAt_append (e : End) (s : Nat) (xs ys : List Edit) :
    addedAt e s (xs ++ ys) = addedAt e s xs ++ addedAt e s ys := by
  rw [addedAt,added_append,List.filter_append]
  rfl

theorem mem_addedAt {e : End} {s : Nat} {es : List Edit} {t : Transition} (member : t ∈ addedAt e s es) :
    t ∈ added es := List.mem_of_mem_filter member

theorem added_reverse (x : Edit) : added [x.reverse] = removed [x] := by cases x <;> rfl

theorem removed_reverse (x : Edit) : removed [x.reverse] = added [x] := by cases x <;> rfl

end Edit

namespace Automaton

/-- The transitions with that end at the state, as the automaton lists them. -/
def listed (a : Automaton) : End → Nat → List Transition
  | .source => a.outgoing
  | .target => a.ingoing

variable {a b base : Automaton} {done undone : List Edit}

theorem Indexed.mem_listed (indexed : a.Indexed) {e : End} {s : Nat} {t : Transition} :
    t ∈ a.listed e s ↔ a.graph.Has t ∧ t.tip e = s := by
  cases e with
  | source => exact indexed.outgoing_iff s t
  | target => exact indexed.ingoing_iff s t

/-- What is listed once a transition with that end is appended. -/
private theorem listed_addTransition {t : Transition} (present : a.graph.HasState t.source) (e : End) (s : Nat) :
    (a.addTransition t).listed e s = if s = t.tip e then a.listed e s ++ [t] else a.listed e s := by
  cases e with
  | source => exact outgoing_addTransition present s
  | target => exact ingoing_addTransition t s

private theorem listed_removeTransition {t : Transition} (found : a.transition? t.id = some t) (e : End) (s : Nat) :
    (a.removeTransition t.id).listed e s =
      if s = t.tip e then (a.listed e s).filter (·.id != t.id) else a.listed e s := by
  cases e with
  | source => exact outgoing_removeTransition found s
  | target => exact ingoing_removeTransition found s

/-- Edits of states leave the lists as they are. -/
private theorem Indexed.listed_states (indexed : a.Indexed) {x : Edit} (fits : x.Fits a.graph)
    (added : Edit.added [x] = []) (removed : Edit.removed [x] = []) (e : End) (s : Nat) :
    (a.apply x.forward).listed e s = a.listed e s := by
  cases x with
  | addTransition t => cases added
  | removeTransition t => cases removed
  | addState r => cases e with
    | source => exact outgoing_addState fits s
    | target => rfl
  | setFinal id isFinal wasFinal => cases e with
    | source => exact outgoing_setFinal id isFinal s
    | target => rfl
  | removeState r => cases e with
    | source =>
      refine outgoing_removeState (List.eq_nil_iff_forall_not_mem.mpr fun t member => ?_) s
      obtain ⟨here,source⟩ := (indexed.outgoing_iff r.id t).mp member
      exact (fits.2.2 t here).1 source
    | target => exact ingoing_removeState r.id s

/-- An edit puts what it adds at the end of a list, and what it removes is no longer there. -/
theorem Indexed.listed_apply (indexed : a.Indexed) {x : Edit} (fits : x.Fits a.graph) (e : End) (s : Nat) :
    (a.apply x.forward).listed e s = (a.listed e s ++ Edit.addedAt e s [x]).filter (· ∉ Edit.removed [x]) := by
  have states (added : Edit.added [x] = []) (removed : Edit.removed [x] = []) : (a.apply x.forward).listed e s =
      (a.listed e s ++ Edit.addedAt e s [x]).filter (· ∉ Edit.removed [x]) := by
    rw [indexed.listed_states fits added removed,Edit.addedAt,added,removed]
    simp
  cases x with
  | addState r => exact states rfl rfl
  | removeState r => exact states rfl rfl
  | setFinal id isFinal wasFinal => exact states rfl rfl
  | addTransition t =>
    have added : Edit.addedAt e s [.addTransition t] = if s = t.tip e then [t] else [] := by
      show List.filter _ [t] = _
      by_cases here : s = t.tip e
      · simp [here]
      · simp [here,Ne.symm here]
    have removed : Edit.removed [.addTransition t] = [] := rfl
    refine (listed_addTransition fits.2.1 e s).trans ?_
    rw [added,removed]
    split <;> simp
  | removeTransition t =>
    have added : Edit.addedAt e s [.removeTransition t] = [] := rfl
    have removed : Edit.removed [.removeTransition t] = [t] := rfl
    refine (listed_removeTransition fits e s).trans ?_
    rw [added,removed,List.append_nil]
    split
    · refine List.filter_congr fun u member => ?_
      have has := (indexed.mem_listed.mp member).1
      rw [Bool.eq_iff_iff]
      simp only [bne_iff_ne,List.mem_singleton,decide_eq_true_iff]
      exact ⟨fun ids same => ids (congrArg Transition.id same),fun other ids => other (has.eq_of_id fits ids)⟩
    · rename_i elsewhere
      refine (List.filter_eq_self.mpr fun u member => ?_).symm
      simp only [List.mem_singleton,decide_eq_true_iff]
      rintro rfl
      exact elsewhere (indexed.mem_listed.mp member).2.symm

/-- A list stays as it is while edits add and remove transitions elsewhere. -/
theorem Indexed.listed_applyAll (indexed : a.Indexed) {es : List Edit} (takes : a.graph.Takes es) {e : End} {s : Nat}
    (added : ∀ t ∈ Edit.added es, t.tip e ≠ s) (removed : ∀ t ∈ Edit.removed es, t.tip e ≠ s) :
    (a.applyAll (es.map Edit.forward)).listed e s = a.listed e s := by
  induction es generalizing a with
  | nil => rfl
  | cons x es ih =>
    rw [show x :: es = [x] ++ es from rfl,Edit.added_append] at added
    rw [show x :: es = [x] ++ es from rfl,Edit.removed_append] at removed
    obtain ⟨added,laterAdded⟩ := List.forall_mem_append.mp added
    obtain ⟨removed,laterRemoved⟩ := List.forall_mem_append.mp removed
    have nothing : Edit.addedAt e s [x] = [] :=
      List.filter_eq_nil_iff.mpr fun t member => by simpa using added t member
    have same : (a.apply x.forward).listed e s = a.listed e s := by
      rw [indexed.listed_apply takes.1,nothing,List.append_nil]
      refine List.filter_eq_self.mpr fun t member => ?_
      exact decide_eq_true fun gone => removed t gone (indexed.mem_listed.mp member).2
    have graph : (a.apply x.forward).graph = a.graph.edit x := graph_apply x.forward
    exact (ih (indexed.edit takes.1) (graph ▸ takes.2) laterAdded laterRemoved).trans same

/-- A plan that adds and removes transitions elsewhere leaves a list as it is. -/
theorem Indexed.listed_perform_elsewhere (indexed : a.Indexed) {p : Plan} (takes : a.graph.Takes p.command.edits)
    {e : End} {s : Nat} (added : ∀ t ∈ Edit.added p.command.edits, t.tip e ≠ s)
    (removed : ∀ t ∈ Edit.removed p.command.edits, t.tip e ≠ s) : (a.perform p).listed e s = a.listed e s := by
  refine ((indexed.counted p.counters).listed_applyAll takes added removed).trans ?_
  cases e <;> rfl

/-- No empty list is kept of transitions that enter a state. -/
def Tidy (a : Automaton) : Prop := ∀ s, a.entering.get? s ≠ some []

theorem tidy_withStart (start : Nat) (isFinal : Bool) : (withStart start isFinal).Tidy := by
  intro s
  show (∅ : IdMap (List Transition)).get? s ≠ _
  rw [IdMap.get?_empty]
  nofun

theorem Tidy.apply (tidy : a.Tidy) (c : Change) : (a.apply c).Tidy := by
  cases c with
  | addState s => exact tidy
  | setFinal id isFinal => exact tidy
  | removeState id =>
    rw [Automaton.apply,removeState]
    split
    · exact tidy
    · exact tidy
  | addTransition t =>
    intro s
    show (a.entering.insert t.target (a.ingoing t.target ++ [t])).get? s ≠ _
    rw [IdMap.get?_insert]
    split
    · simp
    · exact tidy s
  | removeTransition id =>
    rw [Automaton.apply,removeTransition]
    split
    · exact tidy
    · rename_i t _
      intro s
      dsimp only
      split
      · rw [IdMap.get?_erase]
        split
        · simp
        · exact tidy s
      · rename_i some
        rw [IdMap.get?_insert]
        split
        · rw [Ne,Option.some.injEq]
          exact fun empty => some (List.isEmpty_iff.mpr empty)
        · exact tidy s

theorem Tidy.applyAll (tidy : a.Tidy) (cs : List Change) : (a.applyAll cs).Tidy := by
  induction cs generalizing a with
  | nil => exact tidy
  | cons c cs ih => exact ih (tidy.apply c)

theorem vertices_eq (graph : a.graph = b.graph) (outgoing : ∀ s, a.outgoing s = b.outgoing s) :
    a.vertices = b.vertices := by
  refine IdMap.ext fun s => ?_
  have flags : (a.vertices.get? s).map Vertex.isFinal = (b.vertices.get? s).map Vertex.isFinal :=
    congrArg (fun g : Graph => g.flag? s) graph
  have lists : ((a.vertices.get? s).map Vertex.outgoing).getD [] =
      ((b.vertices.get? s).map Vertex.outgoing).getD [] := outgoing s
  cases first : a.vertices.get? s with
  | none => cases second : b.vertices.get? s with
    | none => rfl
    | some w => rw [first,second] at flags; cases flags
  | some v => cases second : b.vertices.get? s with
    | none => rw [first,second] at flags; cases flags
    | some w =>
      rw [first,second] at flags lists
      obtain ⟨isFinal,outgoing⟩ := v
      obtain ⟨isFinal',outgoing'⟩ := w
      cases Option.some.inj flags
      cases show outgoing = outgoing' from lists
      rfl

theorem byId_eq (graph : a.graph = b.graph) : a.byId = b.byId :=
  IdMap.ext fun i => congrArg (fun g : Graph => g.transition? i) graph

/-- Automata that say the same and list it in the same order differ in their counters at most. -/
theorem eq_of_listed (tidy : a.Tidy) (tidy' : b.Tidy) (graph : a.graph = b.graph)
    (listed : ∀ e s, a.listed e s = b.listed e s) : a = { b with counters := a.counters } := by
  have vertices := vertices_eq graph (listed .source)
  have entering : a.entering = b.entering := by
    refine IdMap.ext fun s => ?_
    have lists : (a.entering.get? s).getD [] = (b.entering.get? s).getD [] := listed .target s
    have here := tidy s
    have there := tidy' s
    cases first : a.entering.get? s with
    | none => cases second : b.entering.get? s with
      | none => rfl
      | some w => rw [first,second] at lists; exact (there (by rw [second]; exact congrArg some lists.symm)).elim
    | some v => cases second : b.entering.get? s with
      | none => rw [first,second] at lists; exact (here (by rw [first]; exact congrArg some lists)).elim
      | some w => rw [first,second] at lists; exact congrArg some lists
  have byId := byId_eq graph
  have start : a.start = b.start := congrArg Graph.start graph
  cases a
  cases b
  cases start
  cases vertices
  cases entering
  cases byId
  rfl

end Automaton

namespace Graph

variable {g : Graph}

/-- The edits can be applied one after the other, and no transition comes twice. -/
structure Unrepeated (g : Graph) (es : List Edit) : Prop where
  takes : g.Takes es
  nodup : (Edit.added es).Nodup
  fresh : ∀ t ∈ Edit.added es, ¬g.Has t

/-- What an edit adds has neither been there nor been added or removed before. -/
theorem Unrepeated.new {done undone : List Edit} {x : Edit} (unrepeated : g.Unrepeated (done ++ x :: undone))
    {t : Transition} (member : t ∈ Edit.added [x]) : ¬g.Has t ∧ t ∉ Edit.added done ∧ t ∉ Edit.removed done := by
  obtain ⟨takes,nodup,fresh⟩ := unrepeated
  have split : Edit.added (done ++ x :: undone) = Edit.added done ++ (Edit.added [x] ++ Edit.added undone) := by
    rw [Edit.added_append,← Edit.added_append [x] undone]
    rfl
  rw [split] at nodup fresh
  have absent := fresh t (List.mem_append_right _ (List.mem_append_left _ member))
  have other : t ∉ Edit.added done := fun before =>
    (List.nodup_append.mp nodup).2.2 t before t (List.mem_append_left _ member) rfl
  exact ⟨absent,other,fun gone => ((takes_append.mp takes).1.has_of_removed gone).elim absent other⟩

end Graph

namespace Automaton

variable {a b base : Automaton} {done undone : List Edit}

/-- Some edits have been applied to `base` and others are to be applied again. But for what these remove, the lists are
    in the order of the edits. -/
structure Lined (base : Automaton) (done undone : List Edit) (a : Automaton) : Prop where
  indexed : a.Indexed
  tidy : a.Tidy
  graph : a.graph = base.graph.editAll done
  listed : ∀ e s, (a.listed e s).filter (· ∉ Edit.removed undone) =
    (base.listed e s ++ Edit.addedAt e s done).filter (· ∉ Edit.removed (done ++ undone))

theorem lined_base (indexed : base.Indexed) (tidy : base.Tidy) (es : List Edit) : base.Lined [] es base where
  indexed
  tidy
  graph := rfl
  listed := fun e s => by rw [show Edit.addedAt e s [] = [] from rfl,List.append_nil,List.nil_append]

private theorem filter_twice (ts gone more : List Transition) :
    (ts.filter (· ∉ gone)).filter (· ∉ more) = ts.filter (· ∉ gone ++ more) := by
  rw [List.filter_filter]
  refine List.filter_congr fun t _ => ?_
  by_cases first : t ∈ gone <;> by_cases second : t ∈ more <;> simp [first,second]

/-- More edits may be to be applied again than was said. -/
theorem Lined.extend (lined : base.Lined done undone a) (es : List Edit) : base.Lined done (undone ++ es) a where
  indexed := lined.indexed
  tidy := lined.tidy
  graph := lined.graph
  listed := fun e s => by
    rw [Edit.removed_append,← filter_twice,lined.listed,filter_twice,← Edit.removed_append,List.append_assoc]

/-- The counters do not matter. -/
theorem Lined.recount (lined : base.Lined done undone a) (c : Counters) :
    base.Lined done undone { a with counters := c } where
  indexed :=
    let ⟨closed,outgoing,ingoing,outgoing_nodup,ingoing_nodup⟩ := lined.indexed
    ⟨closed,outgoing,ingoing,outgoing_nodup,ingoing_nodup⟩
  tidy := lined.tidy
  graph := lined.graph
  listed := fun e s => by
    have same : ({ a with counters := c } : Automaton).listed e s = a.listed e s := by cases e <;> rfl
    rw [same]
    exact lined.listed e s

private theorem filter_none {ts gone : List Transition} (all : ∀ t ∈ ts, t ∈ gone) : ts.filter (· ∉ gone) = [] :=
  List.filter_eq_nil_iff.mpr fun t member => by simp [all t member]

private theorem filter_same {ts gone gone' : List Transition} (same : ∀ t ∈ ts, t ∈ gone ↔ t ∈ gone') :
    ts.filter (· ∉ gone) = ts.filter (· ∉ gone') :=
  List.filter_congr fun t member => by simp [same t member]

/-- Edits that fit take what they remove out of a list and put what they add at its end, when nothing is added and
    removed again. -/
theorem Indexed.listed_editAll (indexed : a.Indexed) {es : List Edit} (takes : a.graph.Takes es)
    (apart : ∀ t ∈ Edit.added es, t ∉ Edit.removed es) (e : End) (s : Nat) :
    (a.applyAll (es.map Edit.forward)).listed e s =
      (a.listed e s).filter (· ∉ Edit.removed es) ++ Edit.addedAt e s es := by
  induction es generalizing a with
  | nil => simp [applyAll,Edit.addedAt]
  | cons x es ih =>
    have removed : Edit.removed (x :: es) = Edit.removed [x] ++ Edit.removed es := Edit.removed_append [x] es
    have added : Edit.added (x :: es) = Edit.added [x] ++ Edit.added es := Edit.added_append [x] es
    rw [removed,added] at apart
    obtain ⟨here,later⟩ := List.forall_mem_append.mp apart
    have kept : (Edit.addedAt e s [x]).filter (· ∉ Edit.removed [x] ++ Edit.removed es) = Edit.addedAt e s [x] :=
      List.filter_eq_self.mpr fun t member => decide_eq_true (here t (Edit.mem_addedAt member))
    have graph : (a.apply x.forward).graph = a.graph.edit x := graph_apply x.forward
    have rest := ih (indexed.edit takes.1) (graph ▸ takes.2) fun t member gone =>
      later t member (List.mem_append_right _ gone)
    refine rest.trans ?_
    rw [indexed.listed_apply takes.1,filter_twice,List.filter_append,kept,removed,List.append_assoc,
      ← Edit.addedAt_append]
    rfl

section
variable {x : Edit} (unrepeated : base.graph.Unrepeated (done ++ x :: undone))
include unrepeated

/-- Applying the next edit. What it adds has not been removed before. -/
theorem Lined.forward (lined : base.Lined done (x :: undone) a) :
    base.Lined (done ++ [x]) undone (a.apply x.forward) := by
  have fits : x.Fits a.graph := lined.graph ▸ (Graph.takes_append.mp unrepeated.takes).2.1
  refine ⟨lined.indexed.edit fits,lined.tidy.apply _,?_,fun e s => ?_⟩
  · rw [graph_apply,lined.graph,Graph.editAll_append]
    rfl
  · have before := lined.listed e s
    have new : (Edit.addedAt e s [x]).filter (· ∉ Edit.removed (x :: undone)) =
        (Edit.addedAt e s [x]).filter (· ∉ Edit.removed (done ++ x :: undone)) := by
      refine filter_same fun t member => ?_
      have fresh := (unrepeated.new (Edit.mem_addedAt member)).2.2
      rw [Edit.removed_append,List.mem_append,or_iff_right fresh]
    rw [lined.indexed.listed_apply fits,filter_twice,← Edit.removed_cons,List.filter_append,before,new,
      Edit.addedAt_append,← List.append_assoc,List.append_assoc done [x] undone,← List.filter_append]
    rfl

/-- Taking the last edit back. What it removed is put back, but it is still to be removed. -/
theorem Lined.backward (lined : base.Lined (done ++ [x]) undone a) (indexed : base.Indexed) :
    base.Lined done (x :: undone) (a.apply x.backward) := by
  have takes := (Graph.takes_append.mp unrepeated.takes)
  have graph : a.graph = (base.graph.editAll done).edit x := by
    rw [lined.graph,Graph.editAll_append]
    rfl
  obtain ⟨fits,back⟩ := Graph.fits_reverse (indexed.closed.editAll takes.1) takes.2.1
  rw [← graph] at fits back
  rw [← x.forward_reverse]
  refine ⟨lined.indexed.edit fits,lined.tidy.apply _,?_,fun e s => ?_⟩
  · rw [graph_apply]
    exact back
  · have before := lined.listed e s
    have back : (Edit.addedAt e s [x.reverse]).filter
        (· ∉ Edit.added [x] ++ Edit.removed (x :: undone)) = [] := by
      refine filter_none fun t member => ?_
      have removed := Edit.mem_addedAt member
      rw [Edit.added_reverse] at removed
      rw [Edit.removed_cons]
      exact List.mem_append_right _ (List.mem_append_left _ removed)
    have swapped : (a.listed e s).filter (· ∉ Edit.added [x] ++ Edit.removed (x :: undone)) =
        (a.listed e s).filter (· ∉ Edit.removed undone ++ (Edit.added [x] ++ Edit.removed [x])) := by
      refine filter_same fun t _ => ?_
      rw [Edit.removed_cons]
      simp only [List.mem_append]
      tauto
    have gone : (Edit.addedAt e s [x]).filter
        (· ∉ Edit.removed (done ++ [x] ++ undone) ++ (Edit.added [x] ++ Edit.removed [x])) = [] :=
      filter_none fun t member => List.mem_append_right _ (List.mem_append_left _ (Edit.mem_addedAt member))
    have old : ∀ t ∈ base.listed e s ++ Edit.addedAt e s done, t ∉ Edit.added [x] := by
      intro t member added
      obtain ⟨absent,other,_⟩ := unrepeated.new added
      rcases List.mem_append.mp member with before | done
      · exact absent (indexed.mem_listed.mp before).1
      · exact other (Edit.mem_addedAt done)
    rw [lined.indexed.listed_apply fits,Edit.removed_reverse,filter_twice,List.filter_append,back,List.append_nil,
      swapped,← filter_twice,before,filter_twice,Edit.addedAt_append,← List.append_assoc (base.listed e s),
      List.filter_append,gone,List.append_nil]
    refine filter_same fun t member => ?_
    have kept := old t member
    have next : Edit.removed (x :: undone) = Edit.removed [x] ++ Edit.removed undone :=
      Edit.removed_cons undone x
    simp only [Edit.removed_append,next,List.mem_append]
    tauto

end

/-- Edits are applied one after the other. -/
theorem Lined.forwardAll {es : List Edit} (unrepeated : base.graph.Unrepeated (done ++ es ++ undone))
    (lined : base.Lined done (es ++ undone) a) : base.Lined (done ++ es) undone (a.applyAll (es.map Edit.forward)) := by
  induction es generalizing done a with
  | nil =>
    rw [List.append_nil]
    exact lined
  | cons x es ih =>
    rw [List.append_cons] at unrepeated ⊢
    refine ih unrepeated (Lined.forward ?_ lined)
    rwa [List.append_assoc,List.append_assoc] at unrepeated

/-- Edits are taken back, the last first. -/
theorem Lined.backwardAll {es : List Edit} (unrepeated : base.graph.Unrepeated (done ++ es ++ undone))
    (indexed : base.Indexed) (lined : base.Lined (done ++ es) undone a) :
    base.Lined done (es ++ undone) (a.applyAll (es.reverse.map Edit.backward)) := by
  induction es using List.reverseRecOn generalizing undone a with
  | nil =>
    rw [List.append_nil] at lined
    exact lined
  | append_singleton es x ih =>
    rw [← List.append_assoc,List.append_assoc _ [x] undone] at unrepeated
    rw [← List.append_assoc] at lined
    rw [List.reverse_append,List.append_assoc]
    exact ih unrepeated (Lined.backward unrepeated lined indexed)

/-- Where nothing is to be applied again, all that is left open are the counters. -/
theorem Lined.eq (first : base.Lined done [] a) (second : base.Lined done [] b) :
    a = { b with counters := a.counters } := by
  refine eq_of_listed first.tidy second.tidy (first.graph.trans second.graph.symm) fun e s => ?_
  have all (c : Automaton) : (c.listed e s).filter (· ∉ Edit.removed []) = c.listed e s :=
    List.filter_eq_self.mpr fun t _ => by simp
  rw [← all a,← all b,first.listed,second.listed]

end Automaton
end StepwiseAutomata
