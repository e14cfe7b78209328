import StepwiseAutomata.Proofs.Determinism
import StepwiseAutomata.Proofs.GraphLanguage
import StepwiseAutomata.Proofs.Simulation

namespace StepwiseAutomata

namespace Graph

variable {g : Graph}

/-- Every label is a symbol. -/
def Symbolic (g : Graph) : Prop := ∀ arc, g.HasArc arc → arc.label.isSymbol = true

theorem Symbolic.plain (symbolic : g.Symbolic) : g.Plain := by
  rintro ⟨p,q,l⟩ has
  have symbol := symbolic _ has
  cases l with
  | char c => rfl
  | _ => simp [Regex.isSymbol] at symbol

theorem symbolic_of_all {a : Automaton} (indexed : a.Indexed)
    (symbols : (a.transitions.all fun t : Transition => t.label.isSymbol) = true) : a.graph.Symbolic := by
  rintro _ ⟨t,has,rfl⟩
  exact List.all_eq_true.mp symbols t (indexed.mem_transitions_iff.mpr has)

/-- No two transitions leave the state on one label. -/
def Sure (g : Graph) (s : Nat) : Prop :=
  ∀ t u, g.Has t → g.Has u → t.source = s → u.source = s → t.label = u.label → t = u

theorem Symbolic.mono {h : Graph} (symbolic : g.Symbolic) (shrinks : ∀ t, h.Has t → g.Has t) : h.Symbolic := by
  rintro _ ⟨t,has,rfl⟩
  exact symbolic _ ⟨t,shrinks t has,rfl⟩

/-- What is accepted once the label has been read at the state. -/
def follow (g : Graph) (p : Nat) (l : Regex) : Language Char := {w | ∃ q, g.HasArc ⟨p,q,l⟩ ∧ w ∈ g.accepts q}

/-- With symbols as labels there is only one solution of the inequalities. -/
theorem accepts_eq (symbolic : g.Symbolic) {Z : Nat → Language Char} (final : ∀ q, g.IsFinal q → 1 ≤ Z q)
    (arc : ∀ p q l, g.HasArc ⟨p,q,l⟩ → l.language * Z q ≤ Z p)
    (bounded : ∀ p, ∀ w ∈ Z p, w = [] ∧ g.IsFinal p ∨ ∃ q l, g.HasArc ⟨p,q,l⟩ ∧ w ∈ l.language * Z q) (p : Nat) :
    g.accepts p = Z p :=
  le_antisymm (accepts_le final arc p) (le_accepts (fun _ _ _ has => symbolic _ has) bounded p)

end Graph

namespace Bindings

variable {b : Bindings} {a : Automaton}

theorem mem_of_get? {s : Nat} {set : StateSet} (found : b.get? s = some set) : (s,set) ∈ b.entries := by
  obtain ⟨⟨i,c⟩,listed,rfl⟩ := Option.map_eq_some_iff.mp found
  have same : i = s := by simpa using List.find?_some listed
  exact same ▸ List.mem_of_find?_eq_some listed

theorem mem_resolve {states : StateSet} {x : Nat} : x ∈ b.resolve states ↔ ∃ t ∈ states, x ∈ b.standsFor t := by
  have fold (sets : List StateSet) (start : StateSet) :
      x ∈ sets.foldl .union start ↔ x ∈ start ∨ ∃ c ∈ sets, x ∈ c := by
    induction sets generalizing start with
    | nil => simp
    | cons c sets ih => rw [List.foldl_cons,ih,StateSet.mem_union,List.exists_mem_cons_iff,or_assoc]
  rw [resolve,fold]
  constructor
  · rintro (impossible | ⟨c,listed,member⟩)
    · exact (StateSet.mem_empty impossible).elim
    · obtain ⟨t,there,rfl⟩ := List.mem_map.mp listed
      exact ⟨t,there,member⟩
  · rintro ⟨t,there,member⟩
    exact .inr ⟨_,List.mem_map_of_mem there,member⟩

/-- No state that is there is bound to a set for which none is found. -/
theorem not_mem_of_find? {set : StateSet} (none : b.find? a set = none) {e : Nat × StateSet} (member : e ∈ b.entries)
    (present : a.graph.HasState e.1) : e.2 ≠ set := by
  rintro rfl
  unfold Bindings.find? at none
  split at none
  · cases none
  · rename_i missing
    have here := List.find?_eq_none.mp missing e member
    simp [Automaton.hasState_iff.mpr present] at here

/-- A state that was not bound is bound last. -/
theorem put_of_new {s : Nat} (new : ∀ e ∈ b.entries, e.1 ≠ s) (set : StateSet) :
    (b.put s set).entries = b.entries ++ [(s,set)] := by
  unfold put
  rw [if_neg]
  rw [List.any_eq_true]
  rintro ⟨e,member,same⟩
  exact new e member (eq_of_beq same)

theorem get?_put_self {s : Nat} (new : ∀ e ∈ b.entries, e.1 ≠ s) (set : StateSet) : (b.put s set).get? s = some set := by
  have missing : b.entries.find? (·.1 == s) = none :=
    List.find?_eq_none.mpr fun e member same => new e member (eq_of_beq same)
  unfold get?
  rw [put_of_new new]
  simp [List.find?_append,missing]

theorem get?_put_other {s x : Nat} (new : ∀ e ∈ b.entries, e.1 ≠ s) (set : StateSet) (other : x ≠ s) :
    (b.put s set).get? x = b.get? x := by
  unfold get?
  rw [put_of_new new,List.find?_append,List.find?_singleton,if_neg (by simpa using other.symm),Option.or_none]

end Bindings

namespace Automaton

variable {a : Automaton} {b : Bindings} {state : Nat} {symbol : Regex}

theorem removed_resolving : (a.resolving b state symbol).removed = a.onSymbol state symbol := by
  unfold resolving
  split <;> rfl

theorem resolving_some {d : Nat} (found : b.find? a (b.resolve (a.targets state symbol)) = some d) :
    a.resolving b state symbol = { removed := a.onSymbol state symbol,arcs := [⟨state,d,symbol⟩] } := by
  simp only [resolving,found]

theorem resolving_none (none : b.find? a (b.resolve (a.targets state symbol)) = none) :
    a.resolving b state symbol =
      { removed := a.onSymbol state symbol
        created := [⟨a.counters.nextState,(a.targets state symbol).members.any a.isFinal⟩]
        arcs := a.copiesFrom (a.targets state symbol) a.counters.nextState ++ [⟨state,a.counters.nextState,symbol⟩] } := by
  simp only [resolving,none]

section
attribute [local instance] Ids.endless
variable (consistent : a.Consistent) (present : a.graph.HasState state)
include consistent present

/-- What does not leave the state on the symbol stays. -/
theorem hasArc_resolving (arc : Arc) : (a.graph.editAll ((a.resolving b state symbol).edits a)).HasArc arc ↔
    arc ∈ (a.resolving b state symbol).arcs ∨ a.graph.HasArc arc ∧ ¬(arc.source = state ∧ arc.label = symbol) := by
  rw [Rewriting.hasArc consistent (resolving_fits consistent present),removed_resolving]
  refine or_congr_right ⟨?_,?_⟩
  · rintro ⟨t,⟨has,kept⟩,rfl⟩
    exact ⟨⟨t,has,rfl⟩,fun same => kept (consistent.mem_onSymbol.mpr ⟨has,same⟩)⟩
  · rintro ⟨⟨t,has,rfl⟩,kept⟩
    exact ⟨t,⟨has,fun member => kept (consistent.mem_onSymbol.mp member).2⟩,rfl⟩

theorem symbolic_resolving (symbolic : a.graph.Symbolic) (isSymbol : symbol.isSymbol = true) :
    (a.graph.editAll ((a.resolving b state symbol).edits a)).Symbolic := by
  intro arc member
  rcases (hasArc_resolving consistent present arc).mp member with new | ⟨old,_⟩
  · cases found : b.find? a (b.resolve (a.targets state symbol)) with
    | some d =>
      rw [resolving_some found] at new
      rw [List.mem_singleton.mp new]
      exact isSymbol
    | none =>
      rw [resolving_none found] at new
      rcases List.mem_append.mp new with copy | last
      · obtain ⟨_,s,_,copied⟩ := (mem_copiesFrom consistent.toIndexed).mp copy
        exact symbolic ⟨s,arc.target,arc.label⟩ copied
      · rw [List.mem_singleton.mp last]
        exact isSymbol
  · exact symbolic arc old

/-- A state that is there for the targets can be led to. -/
theorem accepts_resolving_some (symbolic : a.graph.Symbolic) (isSymbol : symbol.isSymbol = true) {d : Nat}
    (found : b.find? a (b.resolve (a.targets state symbol)) = some d)
    (same : a.graph.accepts d = a.graph.follow state symbol) (p : Nat) :
    (a.graph.editAll ((a.resolving b state symbol).edits a)).accepts p = a.graph.accepts p := by
  have arcs (arc : Arc) : (a.graph.editAll ((a.resolving b state symbol).edits a)).HasArc arc ↔
      arc = ⟨state,d,symbol⟩ ∨ a.graph.HasArc arc ∧ ¬(arc.source = state ∧ arc.label = symbol) := by
    rw [hasArc_resolving consistent present,resolving_some found]
    exact or_congr_left List.mem_singleton
  have final (q : Nat) : (a.graph.editAll ((a.resolving b state symbol).edits a)).IsFinal q ↔ a.graph.IsFinal q := by
    rw [Rewriting.isFinal_iff consistent (resolving_fits consistent present),resolving_some found]
    simp
  refine Graph.accepts_eq (symbolic_resolving consistent present symbolic isSymbol)
    (fun q isFinal => Graph.one_le_accepts ((final q).mp isFinal)) (fun p q l arc => ?_) (fun p w member => ?_) p
  · rcases (arcs _).mp arc with new | ⟨old,_⟩
    · cases new
      rw [same]
      intro w member
      obtain ⟨u,first,v,⟨r,leads,rest⟩,rfl⟩ := Language.mem_mul.mp member
      exact Graph.append_mem_accepts leads first rest
    · exact Graph.mul_accepts_le old
  · rcases Graph.accepts_cases member with ⟨rfl,isFinal⟩ | ⟨q,l,arc,product⟩
    · exact .inl ⟨rfl,(final p).mpr isFinal⟩
    · right
      by_cases gone : p = state ∧ l = symbol
      · obtain ⟨rfl,rfl⟩ := gone
        obtain ⟨u,first,v,rest,rfl⟩ := Language.mem_mul.mp product
        refine ⟨d,l,(arcs _).mpr (.inl rfl),Language.append_mem_mul first ?_⟩
        rw [same]
        exact ⟨q,arc,rest⟩
      · exact ⟨q,l,(arcs _).mpr (.inr ⟨arc,gone⟩),product⟩

omit present in
private theorem ends_old {p q : Nat} {l : Regex} (arc : a.graph.HasArc ⟨p,q,l⟩) :
    p ≠ a.counters.nextState ∧ q ≠ a.counters.nextState := by
  have old {q : Nat} (there : a.graph.HasState q) : q ≠ a.counters.nextState := by
    rintro rfl
    rw [Graph.HasState,consistent.below.absent_state (Nat.le_refl _)] at there
    cases there
  obtain ⟨t,has,same⟩ := arc
  have source := consistent.closed.source_present t has
  have target := consistent.closed.target_present t has
  rw [same] at source target
  exact ⟨old source,old target⟩

/-- A new state gets copies of the arcs of all targets. -/
theorem hasArc_resolving_none (none : b.find? a (b.resolve (a.targets state symbol)) = none) (arc : Arc) :
    (a.graph.editAll ((a.resolving b state symbol).edits a)).HasArc arc ↔
      ((arc.source = a.counters.nextState ∧ ∃ s, a.graph.HasArc ⟨state,s,symbol⟩ ∧
        a.graph.HasArc ⟨s,arc.target,arc.label⟩) ∨ arc = ⟨state,a.counters.nextState,symbol⟩) ∨
      a.graph.HasArc arc ∧ ¬(arc.source = state ∧ arc.label = symbol) := by
  rw [hasArc_resolving consistent present,resolving_none none]
  refine or_congr_left ?_
  rw [List.mem_append,List.mem_singleton,mem_copiesFrom consistent.toIndexed]
  simp only [consistent.mem_targets]

theorem isFinal_resolving_none (none : b.find? a (b.resolve (a.targets state symbol)) = none) (q : Nat) :
    (a.graph.editAll ((a.resolving b state symbol).edits a)).IsFinal q ↔
      q = a.counters.nextState ∧ (∃ s, a.graph.HasArc ⟨state,s,symbol⟩ ∧ a.graph.IsFinal s) ∨ a.graph.IsFinal q := by
  rw [Rewriting.isFinal_iff consistent (resolving_fits consistent present),resolving_none none]
  have any : (a.targets state symbol).members.any a.isFinal = true ↔
      ∃ s, a.graph.HasArc ⟨state,s,symbol⟩ ∧ a.graph.IsFinal s := by
    simp only [List.any_eq_true,StateSet.mem_members,consistent.mem_targets,isFinal_iff]
  rw [← any]
  simp only [List.mem_singleton,State.mk.injEq,eq_comm]
  simp

/-- A new state accepts what the targets did together. -/
theorem accepts_resolving_none (symbolic : a.graph.Symbolic) (isSymbol : symbol.isSymbol = true)
    (none : b.find? a (b.resolve (a.targets state symbol)) = none) (p : Nat) :
    (a.graph.editAll ((a.resolving b state symbol).edits a)).accepts p =
      if p = a.counters.nextState then a.graph.follow state symbol else a.graph.accepts p := by
  have old {q : Nat} (there : a.graph.HasState q) : q ≠ a.counters.nextState := by
    rintro rfl
    rw [Graph.HasState,consistent.below.absent_state (Nat.le_refl _)] at there
    cases there
  have arcs := hasArc_resolving_none consistent present none
  have final := isFinal_resolving_none consistent present none
  refine Graph.accepts_eq (symbolic_resolving consistent present symbolic isSymbol)
    (Z := fun p => if p = a.counters.nextState then a.graph.follow state symbol else a.graph.accepts p)
    (fun q isFinal => ?_) (fun p q l arc => ?_) (fun p w member => ?_) p
  · rcases (final q).mp isFinal with ⟨rfl,s,leads,accepted⟩ | before
    · rw [if_pos rfl]
      rintro w rfl
      exact ⟨s,leads,Graph.one_le_accepts accepted rfl⟩
    · rw [if_neg (old (by rw [Graph.HasState,before]; rfl))]
      exact Graph.one_le_accepts before
  · rcases (arcs _).mp arc with (⟨rfl,s,leads,copied⟩ | new) | ⟨before,_⟩
    · rw [if_pos rfl,if_neg (ends_old consistent copied).2]
      intro w member
      exact ⟨s,leads,Graph.mul_accepts_le copied member⟩
    · cases new
      rw [if_pos rfl,if_neg (old present)]
      intro w member
      obtain ⟨u,first,v,⟨r,leads,rest⟩,rfl⟩ := Language.mem_mul.mp member
      exact Graph.append_mem_accepts leads first rest
    · rw [if_neg (ends_old consistent before).1,if_neg (ends_old consistent before).2]
      exact Graph.mul_accepts_le before
  · by_cases new : p = a.counters.nextState
    · rw [if_pos new] at member
      obtain ⟨s,leads,accepted⟩ := member
      rcases Graph.accepts_cases accepted with ⟨rfl,isFinal⟩ | ⟨q,l,arc,product⟩
      · exact .inl ⟨rfl,(final p).mpr (.inl ⟨new,s,leads,isFinal⟩)⟩
      · refine .inr ⟨q,l,(arcs _).mpr (.inl (.inl ⟨new,s,leads,arc⟩)),?_⟩
        rw [if_neg (ends_old consistent arc).2]
        exact product
    · rw [if_neg new] at member
      rcases Graph.accepts_cases member with ⟨rfl,isFinal⟩ | ⟨q,l,arc,product⟩
      · exact .inl ⟨rfl,(final p).mpr (.inr isFinal)⟩
      · right
        by_cases gone : p = state ∧ l = symbol
        · obtain ⟨rfl,rfl⟩ := gone
          obtain ⟨u,first,v,rest,rfl⟩ := Language.mem_mul.mp product
          refine ⟨a.counters.nextState,l,(arcs _).mpr (.inl (.inr rfl)),?_⟩
          rw [if_pos rfl]
          exact Language.append_mem_mul first ⟨q,arc,rest⟩
        · refine ⟨q,l,(arcs _).mpr (.inr ⟨arc,gone⟩),?_⟩
          rw [if_neg (ends_old consistent arc).2]
          exact product

theorem hasState_resolving_some {d : Nat} (found : b.find? a (b.resolve (a.targets state symbol)) = some d) (s : Nat) :
    (a.graph.editAll ((a.resolving b state symbol).edits a)).HasState s ↔ a.graph.HasState s := by
  rw [Rewriting.hasState_iff consistent (resolving_fits consistent present),resolving_some found]
  simp

theorem hasState_resolving_none (none : b.find? a (b.resolve (a.targets state symbol)) = none) (s : Nat) :
    (a.graph.editAll ((a.resolving b state symbol).edits a)).HasState s ↔
      s = a.counters.nextState ∨ a.graph.HasState s := by
  rw [Rewriting.hasState_iff consistent (resolving_fits consistent present),resolving_none none]
  simp

/-- The new transitions that leave a state which was there are at most one, and leave `state`. -/
theorem number_resolving (b : Bindings) (symbol : Regex) :
    ∃ d, ((a.resolving b state symbol).arcs.filter fun arc => a.hasState arc.source) =
    [⟨state,d,symbol⟩] := by
  have here : a.hasState state = true := hasState_iff.mpr present
  cases found : b.find? a (b.resolve (a.targets state symbol)) with
  | some d =>
    refine ⟨d,?_⟩
    rw [resolving_some found]
    simp [here]
  | none =>
    refine ⟨a.counters.nextState,?_⟩
    have copies :
        (a.copiesFrom (a.targets state symbol) a.counters.nextState).filter (fun arc => a.hasState arc.source) = [] := by
      refine List.filter_eq_nil_iff.mpr fun arc member there => ?_
      rw [((mem_copiesFrom consistent.toIndexed).mp member).1,hasState_iff,Graph.HasState,
        consistent.below.absent_state (Nat.le_refl _)] at there
      cases there
    rw [resolving_none found,List.filter_append,copies]
    simp [here]

/-- Only the transitions of `state` change among those of the states that were there. -/
theorem sure_resolving {s : Nat} (there : a.graph.HasState s) (other : s ≠ state) (sure : a.graph.Sure s) :
    (a.graph.editAll ((a.resolving b state symbol).edits a)).Sure s := by
  obtain ⟨d,only⟩ := number_resolving consistent present b symbol
  have old {t : Transition} (has : (a.graph.editAll ((a.resolving b state symbol).edits a)).Has t)
      (source : t.source = s) : a.graph.Has t := by
    rcases (Rewriting.has_iff consistent (resolving_fits consistent present) t).mp has with new | kept
    · have listed : t.toArc ∈ (a.resolving b state symbol).arcs.filter fun arc => a.hasState arc.source :=
        List.mem_filter.mpr ⟨Counters.toArc_mem_of_mem_number new,hasState_iff.mpr (source ▸ there)⟩
      rw [only,List.mem_singleton] at listed
      have same : t.source = state := by rw [listed]
      exact absurd (source.symm.trans same) other
    · exact kept.1
  intro t u first second leaves leaves' label
  exact sure t u (old first leaves) (old second leaves') leaves leaves' label

end

theorem graph_resolveSymbol [Ids] (a : Automaton) (b : Bindings) (state : Nat) (symbol : Regex) :
    a.graph.editAll (a.resolveSymbol b state symbol).1.command.edits =
      a.graph.editAll ((a.resolving b state symbol).edits a) := by
  obtain ⟨title,notes,plan⟩ := a.resolveSymbol_eq b state symbol
  rw [plan,Rewriting.edits_plan]

theorem resolveSymbol_snd [Ids] (a : Automaton) (b : Bindings) (state : Nat) (symbol : Regex) :
    (a.resolveSymbol b state symbol).2 = match b.find? a (b.resolve (a.targets state symbol)) with
      | some _ => b
      | none => b.put a.counters.nextState (b.resolve (a.targets state symbol)) := by
  unfold resolveSymbol
  show Prod.snd (match b.find? a (b.resolve (a.targets state symbol)) with | some _ => _ | none => _) = _
  cases b.find? a (b.resolve (a.targets state symbol)) <;> rfl

theorem two_of_ambiguousLabel? {ts : List Transition} {r : Regex} (found : ambiguousLabel? ts = some r) :
    2 ≤ (ts.filter (·.label == r)).length ∧ ∃ t ∈ ts, t.label = r := by
  induction ts with
  | nil => cases found
  | cons t ts ih =>
    rw [ambiguousLabel?] at found
    split at found
    · rename_i later
      cases found
      obtain ⟨u,member,same⟩ := List.any_eq_true.mp later
      have inside : u ∈ ts.filter (·.label == t.label) := List.mem_filter.mpr ⟨member,same⟩
      have positive := List.length_pos_of_mem inside
      refine ⟨?_,t,List.mem_cons_self,rfl⟩
      rw [List.filter_cons_of_pos (by simp),List.length_cons]
      omega
    · obtain ⟨many,u,member,same⟩ := ih found
      refine ⟨Nat.le_trans many ?_,u,List.mem_cons_of_mem t member,same⟩
      exact ((List.sublist_cons_self t ts).filter _).length_le

/-- The symbol that is ambiguous labels a transition of the state. -/
theorem Indexed.exists_arc (indexed : a.Indexed) (ambiguous : ambiguousLabel? (a.outgoing state) = some symbol) :
    ∃ q, a.graph.HasArc ⟨state,q,symbol⟩ := by
  obtain ⟨t,listed,rfl⟩ := (two_of_ambiguousLabel? ambiguous).2
  obtain ⟨has,rfl⟩ := (indexed.outgoing_iff state t).mp listed
  exact ⟨t.target,t,has,rfl⟩

/-- A state is sure of its labels when none of them is ambiguous. -/
theorem Indexed.sure_iff (indexed : a.Indexed) {s : Nat} :
    a.graph.Sure s ↔ ambiguousLabel? (a.outgoing s) = none := by
  have list (ts : List Transition) (nodup : ts.Nodup) :
      (∀ t ∈ ts, ∀ u ∈ ts, t.label = u.label → t = u) ↔ ambiguousLabel? ts = none := by
    induction ts with
    | nil => exact ⟨fun _ => rfl,fun _ => nofun⟩
    | cons t ts ih =>
      obtain ⟨fresh,nodup⟩ := List.nodup_cons.mp nodup
      rw [ambiguousLabel?]
      constructor
      · intro sure
        rw [if_neg,(ih nodup).mp fun u first v second => sure u (by simp [first]) v (by simp [second])]
        intro later
        obtain ⟨u,member,same⟩ := List.any_eq_true.mp later
        have label : t.label = u.label := (eq_of_beq same).symm
        exact fresh (sure t (by simp) u (by simp [member]) label ▸ member)
      · intro none
        split at none
        · cases none
        · rename_i single
          have sure := (ih nodup).mpr none
          have other (u : Transition) (member : u ∈ ts) : u.label ≠ t.label := by
            intro same
            exact single (List.any_eq_true.mpr ⟨u,member,by simp [same]⟩)
          intro u first v second same
          rcases List.mem_cons.mp first with rfl | here
          · rcases List.mem_cons.mp second with rfl | there
            · rfl
            · exact absurd same.symm (other v there)
          · rcases List.mem_cons.mp second with rfl | there
            · exact absurd same (other u here)
            · exact sure u here v there same
  rw [← list _ (indexed.outgoing_nodup s)]
  simp only [indexed.outgoing_iff]
  exact ⟨fun sure t first u second same => sure t u first.1 second.1 first.2 second.2 same,
    fun sure t u first second leaves leaves' same => sure t ⟨first,leaves⟩ u ⟨second,leaves'⟩ same⟩

/-- With symbols as labels a state is not refused. -/
theorem Indexed.resolveState_eq [Ids] (indexed : a.Indexed) (symbolic : a.graph.Symbolic)
    (present : a.graph.HasState state) :
    a.resolveState b state = .ok ((ambiguousLabel? (a.outgoing state)).map (a.resolveSymbol b state)) := by
  have none : (a.outgoing state).find? (!·.label.isSymbol) = none := by
    refine List.find?_eq_none.mpr fun t member => ?_
    rw [symbolic t.toArc ⟨t,((indexed.outgoing_iff state t).mp member).1,rfl⟩]
    exact Bool.false_ne_true
  unfold resolveState
  rw [hasState_iff.mpr present,none]
  rfl

end Automaton
end StepwiseAutomata
