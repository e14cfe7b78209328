import StepwiseAutomata.Proofs.Resolution

/-!
A table of bindings is never taken back: it also binds states that have been taken back since, or that were never added
at all. What it says of the states that are there stays true all the same, since an id is bound once, and before any
state has it. Resolving a symbol is looked at here on the graph alone, whatever the table holds besides.
-/
namespace StepwiseAutomata

attribute [local instance] Ids.endless

theorem StateSet.size_singleton (x : Nat) : (singleton x).size = 1 := rfl

/-- A set with a member that is not the set of that member alone has several. -/
theorem StateSet.two_le_size {set : StateSet} {x : Nat} (member : x ∈ set) (other : ∀ y ∈ set, set ≠ singleton y) :
    2 ≤ set.size := by
  rcases list : set.members with _ | ⟨y,_ | ⟨z,rest⟩⟩
  · rw [← mem_members,list] at member
    cases member
  · refine absurd (ext fun z => ?_) (other y (by rw [← mem_members,list]; exact List.mem_singleton_self y))
    rw [mem_singleton,← mem_members,list,List.mem_singleton]
  · rw [size,list]
    exact Nat.le_add_left 2 _

namespace Bindings

variable {b : Bindings} {a : Automaton} {g₀ g : Graph} {next : Nat}

/-- The table binds ids that were free at first, each of them once, to sets of two or more of the states there were. -/
structure Binds (g₀ : Graph) (next : Nat) (b : Bindings) : Prop where
  old : ∀ x, g₀.HasState x → x < next
  given : ∀ e ∈ b.entries, e.1 < next
  fresh : ∀ e ∈ b.entries, ¬g₀.HasState e.1
  once : (b.entries.map Prod.fst).Nodup
  members : ∀ e ∈ b.entries, ∀ x ∈ e.2, g₀.HasState x
  several : ∀ e ∈ b.entries, 2 ≤ e.2.size

/-- In the graph each state accepts what the members of the set it stands for accepted at first, and no two states stand
    for the same set. -/
structure Meaningful (g₀ : Graph) (b : Bindings) (g : Graph) : Prop where
  start : g.start = g₀.start
  symbolic : g.Symbolic
  kept : ∀ x, g₀.HasState x → g.HasState x
  known : ∀ s, g.HasState s → g₀.HasState s ∨ ∃ set, b.get? s = some set
  accepts : ∀ s, g.HasState s → ∀ w, w ∈ g.accepts s ↔ ∃ x ∈ b.standsFor s, w ∈ g₀.accepts x
  distinct : ∀ s t, g.HasState s → g.HasState t → b.standsFor s = b.standsFor t → s = t

theorem standsFor_eq {s : Nat} {set : StateSet} (found : b.get? s = some set) : b.standsFor s = set := by
  rw [standsFor,found]
  rfl

theorem standsFor_eq_singleton {s : Nat} (none : b.get? s = none) : b.standsFor s = .singleton s := by
  rw [standsFor,none]
  rfl

theorem binds_empty (old : ∀ x, g₀.HasState x → x < next) : ({} : Bindings).Binds g₀ next :=
  ⟨old,nofun,nofun,List.nodup_nil,nofun,nofun⟩

namespace Binds

variable (binds : b.Binds g₀ next)
include binds

theorem get?_eq {e : Nat × StateSet} (member : e ∈ b.entries) : b.get? e.1 = some e.2 := by
  have some : (b.entries.find? (·.1 == e.1)).isSome = true := List.find?_isSome.mpr ⟨e,member,by simp⟩
  obtain ⟨e',found⟩ := Option.isSome_iff_exists.mp some
  have same : e' = e := List.inj_on_of_nodup_map binds.once (List.mem_of_find?_eq_some found) member
    (by simpa using List.find?_some found)
  rw [get?,found,same]
  rfl

theorem get?_old {x : Nat} (old : g₀.HasState x) : b.get? x = none := by
  cases found : b.get? x with
  | none => rfl
  | some set => exact absurd old (binds.fresh _ (mem_of_get? found))

theorem standsFor_old {x : Nat} (old : g₀.HasState x) : b.standsFor x = .singleton x :=
  standsFor_eq_singleton (binds.get?_old old)

theorem standsFor_of_mem {e : Nat × StateSet} (member : e ∈ b.entries) : b.standsFor e.1 = e.2 :=
  standsFor_eq (binds.get?_eq member)

theorem unbound : ∀ e ∈ b.entries, e.1 ≠ next := fun e member => Nat.ne_of_lt (binds.given e member)

theorem size_standsFor_pos (s : Nat) : 1 ≤ (b.standsFor s).size := by
  cases found : b.get? s with
  | none => rw [standsFor_eq_singleton found,StateSet.size_singleton]
  | some set =>
    rw [standsFor_eq found]
    exact Nat.le_of_succ_le (binds.several _ (mem_of_get? found))

theorem mono {later : Nat} (grows : next ≤ later) : b.Binds g₀ later :=
  ⟨fun x old => Nat.lt_of_lt_of_le (binds.old x old) grows,
    fun e member => Nat.lt_of_lt_of_le (binds.given e member) grows,binds.fresh,binds.once,binds.members,binds.several⟩

/-- A set of several old states is bound to the next id. -/
theorem put {set : StateSet} {later : Nat} (grows : next < later) (members : ∀ x ∈ set, g₀.HasState x)
    (several : 2 ≤ set.size) : (b.put next set).Binds g₀ later := by
  have unbound := binds.unbound
  have cases {P : Nat × StateSet → Prop} (earlier : ∀ e ∈ b.entries, P e) (last : P (next,set)) :
      ∀ e ∈ (b.put next set).entries, P e := by
    rw [put_of_new unbound]
    intro e member
    rcases List.mem_append.mp member with member | member
    · exact earlier e member
    · exact List.mem_singleton.mp member ▸ last
  refine ⟨fun x old => (binds.old x old).trans grows,cases (fun e member => (binds.given e member).trans grows) grows,
    cases binds.fresh fun old => (binds.old next old).false,?_,cases binds.members members,cases binds.several several⟩
  rw [put_of_new unbound,List.map_append]
  refine List.nodup_append.mpr ⟨binds.once,List.nodup_singleton next,?_⟩
  rintro key listed other single rfl
  obtain ⟨e,member,rfl⟩ := List.mem_map.mp listed
  exact unbound e member (List.mem_singleton.mp single)

end Binds

theorem standsFor_put_self {s : Nat} (new : ∀ e ∈ b.entries, e.1 ≠ s) (set : StateSet) :
    (b.put s set).standsFor s = set := standsFor_eq (get?_put_self new set)

theorem meaningful_empty (symbolic : g.Symbolic) : ({} : Bindings).Meaningful g g := by
  have itself (s : Nat) : ({} : Bindings).standsFor s = .singleton s := rfl
  refine ⟨rfl,symbolic,fun _ => id,fun _ => .inl,fun s _ w => by simp [itself],fun s t _ _ same => ?_⟩
  have member : s ∈ StateSet.singleton s := StateSet.mem_singleton.mpr rfl
  rw [← itself,same] at member
  exact StateSet.mem_singleton.mp member

namespace Meaningful

section
variable (meaning : b.Meaningful g₀ g) (binds : b.Binds g₀ next)
include meaning binds

theorem accepts_old {x : Nat} (old : g₀.HasState x) : g.accepts x = g₀.accepts x := by
  ext w
  rw [meaning.accepts x (meaning.kept x old),binds.standsFor_old old]
  simp

theorem language (closed : g₀.Closed) : g.language = g₀.language := by
  rw [Graph.language,meaning.start]
  exact meaning.accepts_old binds closed.start_present

theorem members {s x : Nat} (present : g.HasState s) (member : x ∈ b.standsFor s) : g₀.HasState x := by
  cases found : b.get? s with
  | some set =>
    rw [standsFor_eq found] at member
    exact binds.members _ (mem_of_get? found) x member
  | none =>
    rw [standsFor_eq_singleton found] at member
    rw [StateSet.mem_singleton.mp member]
    refine (meaning.known s present).resolve_right ?_
    rintro ⟨set,bound⟩
    rw [found] at bound
    cases bound

/-- The next id is no state, so that it can be bound. -/
theorem not_next {s : Nat} (present : g.HasState s) : s ≠ next := by
  rcases meaning.known s present with old | ⟨set,found⟩
  · exact Nat.ne_of_lt (binds.old s old)
  · exact Nat.ne_of_lt (binds.given _ (mem_of_get? found))

/-- Binding the next id says nothing new of the states that are there. -/
theorem put (set : StateSet) : (b.put next set).Meaningful g₀ g := by
  have unbound := binds.unbound
  have get {s : Nat} (present : g.HasState s) : (b.put next set).get? s = b.get? s :=
    get?_put_other unbound set (meaning.not_next binds present)
  have stands {s : Nat} (present : g.HasState s) : (b.put next set).standsFor s = b.standsFor s := by
    rw [standsFor,get present]
    rfl
  refine ⟨meaning.start,meaning.symbolic,meaning.kept,fun s present => ?_,fun s present w => ?_,
    fun s t here there same => ?_⟩
  · rw [get present]
    exact meaning.known s present
  · rw [stands present]
    exact meaning.accepts s present w
  · rw [stands here,stands there] at same
    exact meaning.distinct s t here there same

end

end Meaningful

/-- The state that is found stands for the set. -/
theorem Binds.standsFor_of_find? (binds : b.Binds g₀ next) {set : StateSet} {d : Nat}
    (found : b.find? a set = some d) : b.standsFor d = set := by
  unfold find? at found
  split at found
  · rename_i e listed
    cases found
    have holds := List.find?_some listed
    rw [Bool.and_eq_true,beq_iff_eq] at holds
    rw [binds.standsFor_of_mem (List.mem_of_find?_eq_some listed),holds.1]
  · split at found
    · rename_i s single
      split at found
      · rename_i holds
        cases found
        rw [Bool.and_eq_true,Option.isNone_iff_eq_none] at holds
        rw [standsFor_eq_singleton holds.2]
        refine StateSet.ext fun x => ?_
        rw [StateSet.mem_singleton,← StateSet.mem_members,single,List.mem_singleton]
      · cases found
    · cases found

/-- Where none is found no state that is there stands for the set. -/
theorem standsFor_ne_of_find? {set : StateSet} (none : b.find? a set = none) {s : Nat} (present : a.graph.HasState s) :
    b.standsFor s ≠ set := by
  cases found : b.get? s with
  | some c =>
    rw [standsFor_eq found]
    exact not_mem_of_find? none (mem_of_get? found) present
  | none =>
    rw [standsFor_eq_singleton found]
    rintro rfl
    have single : (StateSet.singleton s).members = [s] := rfl
    unfold find? at none
    split at none
    · cases none
    · simp [single,found,Automaton.hasState_iff.mpr present] at none

section
variable (consistent : a.Consistent) (binds : b.Binds g₀ a.counters.nextState) (meaning : b.Meaningful g₀ a.graph)
  {state : Nat} {symbol : Regex}

/-- The set for the targets of a symbol says what is accepted once the symbol has been read. -/
theorem Meaningful.mem_follow (consistent : a.Consistent) (meaning : b.Meaningful g₀ a.graph) (w : List Char) :
    w ∈ a.graph.follow state symbol ↔ ∃ x ∈ b.resolve (a.targets state symbol), w ∈ g₀.accepts x := by
  simp only [Graph.follow,mem_resolve,consistent.mem_targets]
  constructor
  · rintro ⟨q,arc,accepted⟩
    obtain ⟨x,member,accepted⟩ := (meaning.accepts q (consistent.closed.target_of_hasArc arc) w).mp accepted
    exact ⟨x,⟨q,arc,member⟩,accepted⟩
  · rintro ⟨x,⟨q,arc,member⟩,accepted⟩
    exact ⟨q,arc,(meaning.accepts q (consistent.closed.target_of_hasArc arc) w).mpr ⟨x,member,accepted⟩⟩

include consistent binds meaning

theorem Meaningful.old_of_mem_resolve {x : Nat} (member : x ∈ b.resolve (a.targets state symbol)) : g₀.HasState x := by
  obtain ⟨q,target,member⟩ := mem_resolve.mp member
  exact meaning.members binds (consistent.closed.target_of_hasArc (consistent.mem_targets.mp target)) member

/-- A set for which there is no state is not that of a single one. -/
theorem Meaningful.several_resolve {q : Nat} (arc : a.graph.HasArc ⟨state,q,symbol⟩)
    (none : b.find? a (b.resolve (a.targets state symbol)) = none) :
    2 ≤ (b.resolve (a.targets state symbol)).size := by
  obtain ⟨x,member⟩ := List.exists_mem_of_length_pos (binds.size_standsFor_pos q)
  refine StateSet.two_le_size (mem_resolve.mpr ⟨q,consistent.mem_targets.mpr arc,member⟩) fun y member single => ?_
  have old := meaning.old_of_mem_resolve consistent binds member
  exact standsFor_ne_of_find? none (meaning.kept y old) ((binds.standsFor_old old).trans single.symm)

end

/-- A new state takes the next id. -/
theorem next_lt_of_find? (consistent : a.Consistent) {state : Nat} {symbol : Regex} (present : a.graph.HasState state)
    (none : b.find? a (b.resolve (a.targets state symbol)) = none) :
    a.counters.nextState < (a.resolveSymbol b state symbol).1.counters.nextState := by
  obtain ⟨title,notes,plan⟩ := a.resolveSymbol_eq b state symbol
  refine (Automaton.resolveSymbol_sound consistent present b symbol).states_below
    ⟨a.counters.nextState,(a.targets state symbol).members.any a.isFinal⟩ ?_
  rw [plan,Rewriting.edits_plan,Rewriting.addedStates_edits,Automaton.resolving_none none]
  exact List.mem_singleton_self _

/-- No state goes when a symbol is resolved. -/
theorem hasState_resolved (consistent : a.Consistent) {state x : Nat} (symbol : Regex)
    (present : a.graph.HasState state) (there : a.graph.HasState x) :
    (a.graph.editAll (a.resolveSymbol b state symbol).1.command.edits).HasState x := by
  rw [Automaton.graph_resolveSymbol]
  cases found : b.find? a (b.resolve (a.targets state symbol)) with
  | some d => exact (Automaton.hasState_resolving_some consistent present found x).mpr there
  | none => exact (Automaton.hasState_resolving_none consistent present found x).mpr (.inr there)

/-- What is bound when a symbol is resolved comes last and is a state afterwards. -/
theorem Binds.entries_resolved (consistent : a.Consistent) (binds : b.Binds g₀ a.counters.nextState) {state : Nat}
    (symbol : Regex) (present : a.graph.HasState state) : b.entries <+: (a.resolveSymbol b state symbol).2.entries ∧
      ∀ e ∈ (a.resolveSymbol b state symbol).2.entries, e ∈ b.entries ∨
        (a.graph.editAll (a.resolveSymbol b state symbol).1.command.edits).HasState e.1 := by
  rw [Automaton.graph_resolveSymbol,Automaton.resolveSymbol_snd]
  cases found : b.find? a (b.resolve (a.targets state symbol)) with
  | some d => exact ⟨List.prefix_rfl,fun _ => .inl⟩
  | none =>
    simp only [put_of_new binds.unbound]
    refine ⟨List.prefix_append _ _,fun e member => (List.mem_append.mp member).imp_right fun new => ?_⟩
    rw [List.mem_singleton.mp new]
    exact (Automaton.hasState_resolving_none consistent present found _).mpr (.inl rfl)

section
variable (consistent : a.Consistent) (binds : b.Binds g₀ a.counters.nextState) (meaning : b.Meaningful g₀ a.graph)
  {state : Nat} {symbol : Regex} (present : a.graph.HasState state)
  (ambiguous : ambiguousLabel? (a.outgoing state) = some symbol)
include consistent binds meaning present ambiguous

/-- Where a state stands for the targets already, the table and the meaning of the states stay. -/
private theorem Meaningful.resolve_some {d : Nat} (found : b.find? a (b.resolve (a.targets state symbol)) = some d) :
    b.Meaningful g₀ (a.graph.editAll ((a.resolving b state symbol).edits a)) := by
  obtain ⟨q,arc⟩ := consistent.exists_arc ambiguous
  have isSymbol : symbol.isSymbol = true := meaning.symbolic _ arc
  have led : a.graph.accepts d = a.graph.follow state symbol := by
    ext w
    rw [meaning.accepts d (hasState_of_find? found),binds.standsFor_of_find? found,meaning.mem_follow consistent]
  have accepts := Automaton.accepts_resolving_some consistent present meaning.symbolic isSymbol found led
  have states := Automaton.hasState_resolving_some consistent present found
  refine ⟨(Graph.start_editAll _).trans meaning.start,
    Automaton.symbolic_resolving consistent present meaning.symbolic isSymbol,
    fun x old => (states x).mpr (meaning.kept x old),fun s there => meaning.known s ((states s).mp there),
    fun s there w => ?_,fun s t here there => meaning.distinct s t ((states s).mp here) ((states t).mp there)⟩
  rw [accepts]
  exact meaning.accepts s ((states s).mp there) w

/-- Otherwise a new state is bound to the set, and stands for it. -/
private theorem Meaningful.resolve_none (none : b.find? a (b.resolve (a.targets state symbol)) = none) :
    (b.put a.counters.nextState (b.resolve (a.targets state symbol))).Meaningful g₀
      (a.graph.editAll ((a.resolving b state symbol).edits a)) := by
  obtain ⟨q,arc⟩ := consistent.exists_arc ambiguous
  have isSymbol : symbol.isSymbol = true := meaning.symbolic _ arc
  have unbound := binds.unbound
  have accepts := Automaton.accepts_resolving_none consistent present meaning.symbolic isSymbol none
  have states := Automaton.hasState_resolving_none consistent present none
  have later := meaning.put binds (b.resolve (a.targets state symbol))
  have self := standsFor_put_self unbound (b.resolve (a.targets state symbol))
  have apart {s : Nat} (there : a.graph.HasState s) : (b.put a.counters.nextState
      (b.resolve (a.targets state symbol))).standsFor s ≠ b.resolve (a.targets state symbol) := by
    rw [standsFor,get?_put_other unbound _ (meaning.not_next binds there)]
    exact standsFor_ne_of_find? none there
  refine ⟨(Graph.start_editAll _).trans meaning.start,
    Automaton.symbolic_resolving consistent present meaning.symbolic isSymbol,
    fun x old => (states x).mpr (.inr (later.kept x old)),fun s there => ?_,fun s there w => ?_,
    fun s t here there same => ?_⟩
  · rcases (states s).mp there with rfl | before
    · exact .inr ⟨_,get?_put_self unbound _⟩
    · exact later.known s before
  · rw [accepts]
    rcases (states s).mp there with rfl | before
    · rw [if_pos rfl,self,meaning.mem_follow consistent]
    · rw [if_neg (meaning.not_next binds before)]
      exact later.accepts s before w
  · rcases (states s).mp here with rfl | first
    · rcases (states t).mp there with rfl | second
      · rfl
      · exact absurd (same.symm.trans self) (apart second)
    · rcases (states t).mp there with rfl | second
      · exact absurd (same.trans self) (apart first)
      · exact later.distinct s t first second same

/-- Resolving a symbol gives the table and the graph that go on with their meaning, and what the larger table says of a
    graph from before is what the table said. -/
theorem Meaningful.resolve :
    (a.resolveSymbol b state symbol).2.Binds g₀ (a.resolveSymbol b state symbol).1.counters.nextState ∧
      (a.resolveSymbol b state symbol).2.Meaningful g₀
        (a.graph.editAll (a.resolveSymbol b state symbol).1.command.edits) ∧
      ∀ g, b.Meaningful g₀ g → (a.resolveSymbol b state symbol).2.Meaningful g₀ g := by
  rw [Automaton.graph_resolveSymbol,Automaton.resolveSymbol_snd]
  have grows := (Automaton.resolveSymbol_sound consistent present b symbol).grows.1
  cases found : b.find? a (b.resolve (a.targets state symbol)) with
  | some d => exact ⟨binds.mono grows,meaning.resolve_some consistent binds present ambiguous found,fun _ => id⟩
  | none =>
    obtain ⟨q,arc⟩ := consistent.exists_arc ambiguous
    exact ⟨binds.put (next_lt_of_find? consistent present found) (fun _ => meaning.old_of_mem_resolve consistent binds)
      (meaning.several_resolve consistent binds arc found),
      meaning.resolve_none consistent binds present ambiguous found,fun _ before => before.put binds _⟩

end
end Bindings
end StepwiseAutomata
