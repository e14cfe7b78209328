import StepwiseAutomata.Automaton.Snapshot
import StepwiseAutomata.Proofs.Plans

namespace StepwiseAutomata

namespace Automaton

theorem indexed_withStart (start : Nat) (isFinal : Bool) (c : Counters) :
    { withStart start isFinal with counters := c }.Indexed ∧
      ∀ s, ({ withStart start isFinal with counters := c } : Automaton).graph.flag? s =
        if s = start then some isFinal else none := by
  have vertices (s : Nat) : (withStart start isFinal).vertices.get? s =
      if s = start then some { isFinal } else none := by
    show ((∅ : IdMap Vertex).insert start { isFinal }).get? s = _
    rw [IdMap.get?_insert,IdMap.get?_empty]
  have flags (s : Nat) : ({ withStart start isFinal with counters := c } : Automaton).graph.flag? s =
      if s = start then some isFinal else none := by
    show ((withStart start isFinal).vertices.get? s).map Vertex.isFinal = _
    rw [vertices]
    split <;> rfl
  have no (t : Transition) : ¬({ withStart start isFinal with counters := c } : Automaton).graph.Has t :=
    fun has => absurd has.symm (Option.some_ne_none t)
  have empty (s : Nat) : ({ withStart start isFinal with counters := c } : Automaton).outgoing s = [] := by
    show (((withStart start isFinal).vertices.get? s).map Vertex.outgoing).getD [] = []
    rw [vertices]
    split <;> rfl
  refine ⟨⟨⟨?_,fun _ t found => absurd found.symm (Option.some_ne_none t),fun t has => (no t has).elim,
    fun t has => (no t has).elim⟩,?_,?_,?_,?_⟩,flags⟩
  · rw [Graph.HasState,flags]
    exact congrArg Option.isSome (if_pos rfl)
  · intro s t
    rw [empty]
    exact ⟨fun member => absurd member List.not_mem_nil,fun has => (no t has.1).elim⟩
  · exact fun s t => ⟨fun member => absurd member List.not_mem_nil,fun has => (no t has.1).elim⟩
  · intro s
    rw [empty]
    exact List.nodup_nil
  · exact fun s => List.nodup_nil

/-- A start state alone, with counters above it. -/
theorem consistent_withStart {start : Nat} (isFinal : Bool) {c : Counters} (low : start < c.nextState) :
    { withStart start isFinal with counters := c }.Consistent := by
  obtain ⟨indexed,flags⟩ := indexed_withStart start isFinal c
  refine ⟨indexed,fun s present => ?_,fun t has => absurd has.symm (Option.some_ne_none t)⟩
  rw [Graph.HasState,flags] at present
  split at present
  · rename_i same; rw [same]; exact low
  · cases present

theorem consistent_initial : initial.Consistent := consistent_withStart false Nat.zero_lt_one

end Automaton

namespace Snapshot

variable {s : Snapshot}

theorem repeated?_eq_none {seen xs : List Nat} : repeated? seen xs = none ↔ xs.Nodup ∧ ∀ x ∈ xs, x ∉ seen := by
  induction xs generalizing seen with
  | nil => simp [repeated?]
  | cons x xs ih =>
    rw [repeated?]
    split
    · rename_i old
      exact ⟨nofun,fun ⟨_,apart⟩ => absurd old (apart x List.mem_cons_self)⟩
    · rename_i new
      rw [ih,List.nodup_cons,List.forall_mem_cons]
      constructor
      · rintro ⟨nodup,apart⟩
        exact ⟨⟨fun member => apart x member List.mem_cons_self,nodup⟩,new,
          fun y member old => apart y member (List.mem_cons_of_mem x old)⟩
      · rintro ⟨⟨other,nodup⟩,_,apart⟩
        refine ⟨nodup,fun y member old => ?_⟩
        rcases List.mem_cons.mp old with rfl | old
        · exact other member
        · exact apart y member old

section
variable [Ids]

/-- Every id in the picture is followed by a greater one. -/
structure Followed (s : Snapshot) : Prop where
  states : ∀ i ∈ s.stateIds, Ids.after i = i + 1
  transitions : ∀ i ∈ s.transitions.map Entry.id, Ids.after i = i + 1

instance : Decidable s.Followed :=
  decidable_of_iff ((∀ i ∈ s.stateIds, Ids.after i = i + 1) ∧ ∀ i ∈ s.transitions.map Entry.id, Ids.after i = i + 1)
    ⟨fun ⟨states,transitions⟩ => ⟨states,transitions⟩,fun followed => ⟨followed.states,followed.transitions⟩⟩

theorem above_perm {ids ids' : List Nat} (perm : ids.Perm ids') : above ids = above ids' := by
  have same : ids.max? = ids'.max? := by
    ext m
    rw [List.max?_eq_some_iff,List.max?_eq_some_iff,perm.mem_iff]
    exact and_congr_right fun _ => forall_congr' fun i => by rw [perm.mem_iff]
  rw [above,above,same]

theorem above_le {ids : List Nat} {n : Nat} (low : ∀ i ∈ ids, i < n) : above ids ≤ n := by
  unfold above
  cases greatest : ids.max? with
  | none => exact Nat.zero_le n
  | some m => exact Nat.le_trans (Ids.after_le m) (low m (List.max?_mem greatest))

theorem lt_above {ids : List Nat} {i : Nat} (followed : ∀ i ∈ ids, Ids.after i = i + 1) (member : i ∈ ids) :
    i < above ids := by
  unfold above
  cases greatest : ids.max? with
  | none => exact absurd (List.max?_eq_none_iff.mp greatest) (List.ne_nil_of_mem member)
  | some m =>
    show i < Ids.after m
    rw [followed m (List.max?_mem greatest)]
    exact Nat.lt_succ_of_le ((List.max?_eq_some_iff.mp greatest).2 i member)

theorem above_le_iff {ids : List Nat} {n : Nat} (followed : ∀ i ∈ ids, Ids.after i = i + 1) :
    above ids ≤ n ↔ ∀ i ∈ ids, i < n :=
  ⟨fun le _ member => Nat.lt_of_lt_of_le (lt_above followed member) le,above_le⟩

end

/-- The transition has the id and the ends of the entry, and the label that is written there. -/
structure Entry.Denotes (x : Entry) (t : Transition) : Prop where
  id : t.id = x.id
  source : t.source = x.source
  target : t.target = x.target
  label : Regex.parse x.label = .ok (some t.label)

section
variable {states seen : List Nat} {x : Entry} {xs : List Entry} {t : Transition} {ts : List Transition}

theorem readLabel_eq_ok {r : Regex} : readLabel x = .ok r ↔ Regex.parse x.label = .ok (some r) := by
  unfold readLabel
  cases Regex.parse x.label with
  | error e => exact ⟨nofun,nofun⟩
  | ok parsed => cases parsed with
    | none => exact ⟨nofun,nofun⟩
    | some r => simp

theorem readEntry_eq_ok : readEntry states seen x = .ok t ↔
    (x.id ∉ seen ∧ x.source ∈ states ∧ x.target ∈ states) ∧ x.Denotes t := by
  constructor
  · intro read
    unfold readEntry at read
    split at read
    · cases read
    · rename_i new
      split at read
      · cases read
      · rename_i source
        split at read
        · cases read
        · rename_i target
          cases label : readLabel x with
          | error e => rw [label] at read; cases read
          | ok l =>
            rw [label] at read
            cases read
            exact ⟨⟨new,not_not.mp source,not_not.mp target⟩,rfl,rfl,rfl,readLabel_eq_ok.mp label⟩
  · rintro ⟨⟨new,source,target⟩,denotes⟩
    obtain ⟨⟨_,_,_⟩,_⟩ := t
    obtain ⟨rfl,rfl,rfl,label⟩ := denotes
    refine (if_neg new).trans ((if_neg (not_not.mpr source)).trans ((if_neg (not_not.mpr target)).trans ?_))
    rw [readLabel_eq_ok.mpr label]
    rfl

theorem readEntries_eq_ok : readEntries states seen xs = .ok ts ↔ List.Forall₂ Entry.Denotes xs ts ∧
    (xs.map Entry.id).Nodup ∧ ∀ x ∈ xs, x.id ∉ seen ∧ x.source ∈ states ∧ x.target ∈ states := by
  induction xs generalizing seen ts with
  | nil => simp [readEntries,eq_comm]
  | cons x xs ih =>
    rw [readEntries]
    constructor
    · intro read
      cases first : readEntry states seen x with
      | error e => rw [first] at read; cases read
      | ok t =>
        cases rest : readEntries states (x.id :: seen) xs with
        | error e => rw [first,rest] at read; cases read
        | ok us =>
          rw [first,rest] at read
          cases read
          obtain ⟨fits,denotes⟩ := readEntry_eq_ok.mp first
          obtain ⟨all,nodup,others⟩ := ih.mp rest
          refine ⟨.cons denotes all,List.nodup_cons.mpr ⟨fun member => ?_,nodup⟩,List.forall_mem_cons.mpr
            ⟨fits,fun y member => ⟨fun old => (others y member).1 (List.mem_cons_of_mem x.id old),(others y member).2⟩⟩⟩
          obtain ⟨y,listed,same⟩ := List.mem_map.mp member
          exact (others y listed).1 (same ▸ List.mem_cons_self)
    · rintro ⟨all,nodup,fits⟩
      obtain ⟨t,us,denotes,tail,rfl⟩ := List.forall₂_cons_left_iff.mp all
      obtain ⟨first,nodup⟩ := List.nodup_cons.mp nodup
      obtain ⟨here,others⟩ := List.forall_mem_cons.mp fits
      have rest : readEntries states (x.id :: seen) xs = .ok us := by
        refine ih.mpr ⟨tail,nodup,fun y member => ⟨fun old => ?_,(others y member).2⟩⟩
        rcases List.mem_cons.mp old with same | old
        · exact first (same ▸ List.mem_map_of_mem member)
        · exact (others y member).1 old
      rw [readEntry_eq_ok.mpr ⟨here,denotes⟩,rest]
      rfl

theorem Entry.map_id_of_denotes (all : List.Forall₂ Entry.Denotes xs ts) :
    ts.map Transition.id = xs.map Entry.id := by
  induction all with
  | nil => rfl
  | cons denotes _ ih => rw [List.map_cons,List.map_cons,denotes.id,ih]

theorem Entry.exists_of_denotes (all : List.Forall₂ Entry.Denotes xs ts) (member : t ∈ ts) :
    ∃ x ∈ xs, x.Denotes t := by
  induction all with
  | nil => cases member
  | cons denotes _ ih =>
    rcases List.mem_cons.mp member with rfl | member
    · exact ⟨_,List.mem_cons_self,denotes⟩
    · obtain ⟨x,listed,denotes⟩ := ih member
      exact ⟨x,List.mem_cons_of_mem _ listed,denotes⟩

/-- The transitions that are read have the ids of the entries, each once, ends among the states, and labels that have
    been read. -/
theorem readEntries_ok (read : readEntries states seen xs = .ok ts) : ts.map Transition.id = xs.map Entry.id ∧
    (xs.map Entry.id).Nodup ∧ (∀ t ∈ ts, t.source ∈ states ∧ t.target ∈ states) ∧
      ∀ t ∈ ts, ∃ x ∈ xs, readLabel x = .ok t.label := by
  obtain ⟨all,nodup,fits⟩ := readEntries_eq_ok.mp read
  refine ⟨Entry.map_id_of_denotes all,nodup,fun t member => ?_,fun t member => ?_⟩
  all_goals obtain ⟨x,listed,denotes⟩ := Entry.exists_of_denotes all member
  · rw [denotes.source,denotes.target]
    exact (fits x listed).2
  · exact ⟨x,listed,readLabel_eq_ok.mpr denotes.label⟩

end

theorem check_ok {start : State} {ts : List Transition} (checked : s.check = .ok (start,ts)) :
    s.stateIds.Nodup ∧ (start ∈ s.states ∧ start.id = s.start) ∧ readEntries s.stateIds [] s.transitions = .ok ts := by
  unfold check at checked
  split at checked
  · cases checked
  · rename_i unique
    split at checked
    · cases checked
    · rename_i first found
      cases read : readEntries s.stateIds [] s.transitions with
      | error e => rw [read] at checked; cases checked
      | ok us =>
        rw [read] at checked
        cases checked
        exact ⟨(repeated?_eq_none.mp unique).1,⟨List.mem_of_find?_eq_some found,eq_of_beq (List.find?_some found :)⟩,rfl⟩

/-- What is made of the base to get the automaton of a picture. -/
def edits (s : Snapshot) (start : State) (ts : List Transition) : List Edit :=
  (s.states.filter (·.id != start.id)).map .addState ++ ts.map .addTransition

theorem changes_eq (start : State) (ts : List Transition) :
    s.changes start ts = (s.edits start ts).map Edit.forward := by
  rw [edits,List.map_append,List.map_map,List.map_map]
  rfl

section
variable [Ids]

private theorem flag?_base (start : State) (i : Nat) :
    (s.base start).graph.flag? i = if i = start.id then some start.isFinal else none :=
  (Automaton.indexed_withStart start.id start.isFinal s.counters).2 i

theorem indexed_base (start : State) : (s.base start).Indexed :=
  (Automaton.indexed_withStart start.id start.isFinal s.counters).1

theorem not_has_base (start : State) (t : Transition) : ¬(s.base start).graph.Has t := by
  intro has
  cases has

omit [Ids] in
private theorem other_of_mem {start r : State} (member : r ∈ s.states.filter (·.id != start.id)) : r.id ≠ start.id := by
  simpa using (List.mem_filter.mp member).2

omit [Ids] in
theorem added_edits (start : State) (ts : List Transition) : Edit.added (s.edits start ts) = ts := by
  rw [edits,Edit.added_append,Edit.added_map_addState,Edit.added_map_addTransition,List.nil_append]

section
variable {start : State} {ts : List Transition} (checked : s.check = .ok (start,ts))
include checked

private theorem below_counters (followed : s.Followed) :
    (∀ r ∈ s.states, r.id < s.counters.nextState) ∧ ∀ t ∈ ts, t.id < s.counters.nextTransition := by
  obtain ⟨_,_,read⟩ := check_ok checked
  constructor
  · intro r member
    exact Nat.lt_of_lt_of_le (lt_above followed.states (List.mem_map_of_mem member)) (Nat.le_max_right _ _)
  · intro t member
    have there : t.id ∈ ts.map Transition.id := List.mem_map_of_mem member
    rw [(readEntries_ok read).1] at there
    exact Nat.lt_of_lt_of_le (lt_above followed.transitions there) (Nat.le_max_right _ _)

/-- Once the states are added, those of the picture are there and no others. -/
private theorem flag?_states :
    (∀ r ∈ s.states, ((s.base start).graph.editAll ((s.states.filter (·.id != start.id)).map .addState)).flag? r.id =
      some r.isFinal) ∧
    ∀ i, i ∉ s.stateIds →
      ((s.base start).graph.editAll ((s.states.filter (·.id != start.id)).map .addState)).flag? i = none := by
  obtain ⟨unique,⟨first,_⟩,_⟩ := check_ok checked
  have others : ((s.states.filter (·.id != start.id)).map State.id).Nodup :=
    (List.filter_sublist.map State.id).nodup unique
  obtain ⟨here,there⟩ := Graph.flag?_addStates (g := (s.base start).graph) others
  constructor
  · intro r listed
    by_cases same : r.id = start.id
    · obtain rfl := List.inj_on_of_nodup_map unique listed first same
      rw [there,flag?_base,if_pos rfl]
      intro found
      obtain ⟨q,filtered,same⟩ := List.mem_map.mp found
      exact other_of_mem filtered same
    · exact here r (List.mem_filter.mpr ⟨listed,by simpa using same⟩)
  · intro i outside
    rw [there,flag?_base,if_neg]
    · rintro rfl
      exact outside (List.mem_map_of_mem first)
    · intro found
      obtain ⟨q,filtered,rfl⟩ := List.mem_map.mp found
      exact outside (List.mem_map_of_mem (List.mem_of_mem_filter filtered))

private theorem takes_states : (s.base start).graph.Takes ((s.states.filter (·.id != start.id)).map .addState) := by
  refine Graph.takes_addStates ((List.filter_sublist.map State.id).nodup (check_ok checked).1) fun r member => ?_
  rw [flag?_base,if_neg (other_of_mem member)]

theorem takes_edits : (s.base start).graph.Takes (s.edits start ts) := by
  obtain ⟨_,_,read⟩ := check_ok checked
  obtain ⟨ids,nodup,ends,_⟩ := readEntries_ok read
  have states := takes_states checked
  have present (i : Nat) (member : i ∈ s.stateIds) :
      ((s.base start).graph.editAll ((s.states.filter (·.id != start.id)).map .addState)).HasState i := by
    obtain ⟨r,listed,rfl⟩ := List.mem_map.mp member
    rw [Graph.HasState,(flag?_states checked).1 r listed]
    rfl
  refine Graph.takes_append.mpr ⟨states,Graph.takes_additions (ids ▸ nodup) ?_ ?_⟩
  · intro t _
    cases found : ((s.base start).graph.editAll ((s.states.filter (·.id != start.id)).map .addState)).transition?
        t.id with
    | none => rfl
    | some u =>
      have has := ((indexed_base start).closed.editAll states).has found
      rw [Graph.has_editAll states (by simp)] at has
      simp only [Edit.added_map_addState,List.not_mem_nil,false_or] at has
      exact absurd has.1 (not_has_base start u)
  · exact fun t member => ⟨present _ (ends t member).1,present _ (ends t member).2⟩

/-- The states of the picture are there in the end, and no others. -/
theorem flag?_edits : (∀ r ∈ s.states, ((s.base start).graph.editAll (s.edits start ts)).flag? r.id = some r.isFinal) ∧
    ∀ i, i ∉ s.stateIds → ((s.base start).graph.editAll (s.edits start ts)).flag? i = none := by
  rw [edits,Graph.editAll_append,Graph.flag?_editAll_of_onTransitions]
  · exact flag?_states checked
  · intro e member
    obtain ⟨t,_,rfl⟩ := List.mem_map.mp member
    trivial

end

theorem restore_eq {start : State} {ts : List Transition} (checked : s.check = .ok (start,ts)) :
    s.restore = .ok ((s.base start).applyAll (s.changes start ts)) := by
  unfold restore
  rw [checked]
  rfl

/-- What is restored has been checked. -/
theorem restore_ok {a : Automaton} (restored : s.restore = .ok a) : ∃ start ts, s.check = .ok (start,ts) ∧
    a = (s.base start).applyAll (s.changes start ts) := by
  unfold restore at restored
  cases checked : s.check with
  | error e => rw [checked] at restored; cases restored
  | ok result =>
    obtain ⟨start,ts⟩ := result
    rw [checked] at restored
    cases restored
    exact ⟨start,ts,rfl,rfl⟩

theorem indexed_restore {a : Automaton} (restored : s.restore = .ok a) : a.Indexed := by
  obtain ⟨start,ts,checked,rfl⟩ := restore_ok restored
  rw [changes_eq]
  exact (indexed_base start).editAll (takes_edits checked)

/-- The automaton of a picture is consistent, unless an id in it has none above it. -/
theorem consistent_restore (followed : s.Followed) {a : Automaton} (restored : s.restore = .ok a) : a.Consistent := by
  refine ⟨indexed_restore restored,?_⟩
  obtain ⟨start,ts,checked,rfl⟩ := restore_ok restored
  obtain ⟨states,transitions⟩ := below_counters checked followed
  have base : (s.base start).Consistent :=
    Automaton.consistent_withStart start.isFinal (states start (check_ok checked).2.1.1)
  have takes := takes_edits checked
  rw [changes_eq,Automaton.graph_applyAll,Automaton.counters_applyAll]
  refine base.below.editAll (Graph.below_of_takes base.closed base.below takes ?_ ?_)
  · intro r member
    rw [edits,Edit.addedStates_append,Edit.addedStates_map_addState,Edit.addedStates_map_addTransition,
      List.append_nil] at member
    exact states r (List.mem_of_mem_filter member)
  · intro t member
    exact transitions t (added_edits start ts ▸ member)

/-- The ids in the picture decide what is restored, and not how many more there are. -/
theorem restore_endless (followed : s.Followed) : s.restore = @restore s Ids.endless := by
  have above_endless {ids : List Nat} (followed : ∀ i ∈ ids, Ids.after i = i + 1) :
      above ids = @above Ids.endless ids := by
    unfold above
    cases greatest : ids.max? with
    | none => rfl
    | some m => exact followed m (List.max?_mem greatest)
  cases checked : s.check with
  | error e =>
    unfold restore
    rw [checked]
    rfl
  | ok result =>
    obtain ⟨start,ts⟩ := result
    have first : s.start ∈ s.stateIds := by
      obtain ⟨_,⟨listed,same⟩,_⟩ := check_ok checked
      exact same ▸ List.mem_map_of_mem listed
    have same : s.counters = @counters s Ids.endless := by
      unfold counters
      rw [above_endless followed.states,above_endless followed.transitions,followed.states _ first]
      rfl
    rw [restore_eq checked,@restore_eq s Ids.endless start ts checked,base,same]
    rfl

end

end Snapshot
end StepwiseAutomata
