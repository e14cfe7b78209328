import StepwiseAutomata.Proofs.Bindings
import StepwiseAutomata.Proofs.BreakdownAll
import StepwiseAutomata.Proofs.Stages

/-!
Going through all states again and again, until no symbol is left that has to be resolved, comes to an end. Each state
that is made on the way stands for another set of the states there were, and a round for which none is made leaves
nothing to the next. The loop is described here without a bound, and what bounds it in the program is shown to be enough.
-/
namespace StepwiseAutomata.Session

section
variable [Ids]

/-- Symbols of the state are resolved until none is left; tells whether there was any. -/
inductive Resolves (state : Nat) : Bindings → Session → Bool → Bindings → Session → Prop
  | done {b : Bindings} {t : Session} : (makeWith b (Builder.resolveState state)).run t = (.ok (none,b),t) →
      Resolves state b t false b t
  | step {b b' c : Bindings} {t made u v : Session} {command : Command} {more : Bool} :
      (makeWith b (Builder.resolveState state)).run t = (.ok (some command,b'),made) →
      (execute command).run made = (.ok (),u) → Resolves state b' u more c v → Resolves state b t true c v

/-- The states have their turns one after the other. -/
inductive Round : List Nat → Bindings → Session → Bool → Bindings → Session → Prop
  | nil {b : Bindings} {t : Session} : Round [] b t false b t
  | cons {state : Nat} {states : List Nat} {b c d : Bindings} {t u v : Session} {here there : Bool} :
      Resolves state b t here c u → Round states c u there d v → Round (state :: states) b t (here || there) d v

/-- Rounds through all states, the last of which is the first that changes nothing. -/
inductive Rounds : Bindings → Session → Bindings → Session → Prop
  | last {b c : Bindings} {t u : Session} : Round (stateOrder t.automaton) b t false c u → Rounds b t c u
  | again {b c d : Bindings} {t u v : Session} :
      Round (stateOrder t.automaton) b t true c u → Rounds c u d v → Rounds b t d v

end

variable {s t u v : Session} {b c d : Bindings} {state : Nat} {states : List Nat} {changed : Bool}

section
variable [Ids]

theorem Resolves.agree (resolves : @Resolves Ids.endless state b t changed c u) :
    t.automaton.counters ≤ u.automaton.counters ∧ (u.automaton.counters.Fits → Resolves state b t changed c u) := by
  have agree (b : Bindings) := agree_makeWith (Builder.agree_resolveState state) b
  induction resolves with
  | @done b t made =>
    refine ⟨Counters.le_refl _,fun room => .done (((agree b).run ?_).trans made)⟩
    rw [Ids.Suffice,made]
    exact room
  | @step b b' c t w u v command more made executed _ ih =>
    have taken := (agree b).grows t
    have kept := (agree_execute command).grows w
    rw [made] at taken
    rw [executed] at kept
    refine ⟨Counters.le_trans taken (Counters.le_trans kept ih.1),fun room => ?_⟩
    refine .step (((agree b).run ?_).trans made) executed (ih.2 room)
    rw [Ids.Suffice,made]
    exact room.mono (Counters.le_trans kept ih.1)

theorem Round.agree (round : @Round Ids.endless states b t changed c u) :
    t.automaton.counters ≤ u.automaton.counters ∧ (u.automaton.counters.Fits → Round states b t changed c u) := by
  induction round with
  | nil => exact ⟨Counters.le_refl _,fun _ => .nil⟩
  | cons first _ ih =>
    obtain ⟨grows,same⟩ := first.agree
    exact ⟨Counters.le_trans grows ih.1,fun room => .cons (same (room.mono ih.1)) (ih.2 room)⟩

theorem Rounds.agree (rounds : @Rounds Ids.endless b t c u) :
    t.automaton.counters ≤ u.automaton.counters ∧ (u.automaton.counters.Fits → Rounds b t c u) := by
  induction rounds with
  | last round => exact round.agree.imp_right fun same room => .last (same room)
  | again round _ ih =>
    obtain ⟨grows,same⟩ := round.agree
    exact ⟨Counters.le_trans grows ih.1,fun room => .again (same (room.mono ih.1)) (ih.2 room)⟩

end

section
attribute [local instance] Ids.endless

theorem run_makeWith_resolveState (b : Bindings) (state : Nat) (t : Session) :
    (makeWith b (Builder.resolveState state)).run t = match t.automaton.resolveState b state with
      | .error e => (.error (.illegal e),t)
      | .ok none => (.ok (none,b),t)
      | .ok (some (p,b')) => (.ok (some p.command,b'),{ t with toEditor := t.adopt p }) := by
  rw [@makeWith_eq _ (fun a b => a.resolveState b state) (Builder.run_resolveState · state),run_get]
  rcases t.automaton.resolveState b state with e | _ | made <;> rfl

theorem Resolves.of_none (made : t.automaton.resolveState b state = .ok none) : Resolves state b t false b t :=
  .done (by rw [run_makeWith_resolveState,made])

theorem Resolves.unchanged (resolves : Resolves state b t changed c u) (none : changed = false) : c = b ∧ u = t := by
  cases resolves with
  | done => exact ⟨rfl,rfl⟩
  | step => cases none

theorem Round.unchanged (round : Round states b t changed c u) (none : changed = false) : c = b ∧ u = t := by
  induction round with
  | nil => exact ⟨rfl,rfl⟩
  | cons first _ ih =>
    obtain ⟨here,there⟩ := Bool.or_eq_false_iff.mp none
    obtain ⟨rfl,rfl⟩ := first.unchanged here
    exact ih there

/-- However many steps it may take, a round that changes nothing is gone through as such. -/
theorem Round.run (round : Round states b t changed c u) (none : changed = false) :
    (resolveStates states b).run t = (.ok (false,b),t) := by
  induction round with
  | nil => rfl
  | @cons state states b c d t u v here there first _ ih =>
    obtain ⟨unmoved,rest⟩ := Bool.or_eq_false_iff.mp none
    subst unmoved
    cases first with
    | done made =>
      have alone (steps : Nat) : (resolveState state steps b).run t = (.ok (false,b),t) := by
        cases steps with
        | zero => rfl
        | succ steps =>
          rw [resolveState,run_bind_ok made]
          rfl
      show (resolveState state (t.automaton.outgoing state).length b >>= _ : Action (Bool × Bindings)).run t = _
      rw [run_bind_ok (alone _)]
      show (resolveStates states b >>= _ : Action (Bool × Bindings)).run t = _
      rw [run_bind_ok (ih rest)]
      rfl

section
variable (indexed : t.automaton.Indexed) (symbolic : t.automaton.graph.Symbolic)
include indexed symbolic

/-- Where all labels are symbols that states are sure of, a round changes nothing. -/
theorem Round.idle (b : Bindings) (states : List Nat) (present : ∀ x ∈ states, t.automaton.graph.HasState x)
    (sure : ∀ x ∈ states, t.automaton.graph.Sure x) : Round states b t false b t := by
  induction states with
  | nil => exact .nil
  | cons state states ih =>
    have made := indexed.resolveState_eq (b := b) symbolic (present state List.mem_cons_self)
    rw [indexed.sure_iff.mp (sure state List.mem_cons_self)] at made
    exact .cons (.of_none made) (ih (fun x member => present x (List.mem_cons_of_mem state member))
      (fun x member => sure x (List.mem_cons_of_mem state member)))

variable (sure : ∀ x, t.automaton.graph.HasState x → t.automaton.graph.Sure x)
include sure

end

/-- While symbols are resolved the table tells the truth, and all that is bound is there. -/
structure Resolving (s : Session) (b : Bindings) (t : Session) : Prop where
  keeps : Keeps s t
  binds : b.Binds s.automaton.graph t.automaton.counters.nextState
  meaning : b.Meaningful s.automaton.graph t.automaton.graph
  bound : ∀ e ∈ b.entries, t.automaton.graph.HasState e.1

namespace Resolving

theorem start (consistent : s.automaton.Consistent) (symbolic : s.automaton.graph.Symbolic) : Resolving s {} s :=
  ⟨.refl,Bindings.binds_empty consistent.below.state,Bindings.meaningful_empty symbolic,nofun⟩

variable (holds : Resolving s b t)
include holds

/-- The states are those there were and those that are bound. -/
theorem hasState_iff (x : Nat) :
    t.automaton.graph.HasState x ↔ s.automaton.graph.HasState x ∨ x ∈ b.entries.map Prod.fst := by
  constructor
  · exact fun there => (holds.meaning.known x there).imp_right fun ⟨_,found⟩ =>
      List.mem_map_of_mem (Bindings.mem_of_get? found)
  · rintro (old | new)
    · exact holds.meaning.kept x old
    · obtain ⟨e,member,rfl⟩ := List.mem_map.mp new
      exact holds.bound e member

/-- No set is bound twice. -/
theorem distinct : (b.entries.map Prod.snd).Nodup := by
  refine holds.binds.once.of_map.map_on fun e first f second same => ?_
  have stand : b.standsFor e.1 = b.standsFor f.1 := by
    rw [holds.binds.standsFor_of_mem first,holds.binds.standsFor_of_mem second,same]
  exact Prod.ext (holds.meaning.distinct e.1 f.1 (holds.bound e first) (holds.bound f second) stand) same

/-- What is bound was no state before. -/
theorem nodup : (s.automaton.stateIds ++ b.entries.map Prod.fst).Nodup := by
  refine List.nodup_append.mpr ⟨s.automaton.stateIds_nodup,holds.binds.once,?_⟩
  rintro x old _ new rfl
  obtain ⟨e,member,rfl⟩ := List.mem_map.mp new
  exact holds.binds.fresh e member (Automaton.mem_stateIds_iff.mp old)

end Resolving

/-- What resolving brings about: no state goes, what is bound stays bound, and a state that is sure of its labels stays
    so. -/
structure Progress (b : Bindings) (t : Session) (c : Bindings) (u : Session) : Prop where
  grows : b.entries <+: c.entries
  kept : ∀ x, t.automaton.graph.HasState x → u.automaton.graph.HasState x
  sure : ∀ x, t.automaton.graph.HasState x → t.automaton.graph.Sure x → u.automaton.graph.Sure x

theorem Progress.refl (b : Bindings) (t : Session) : Progress b t b t :=
  ⟨List.prefix_rfl,fun _ there => there,fun _ _ sure => sure⟩

theorem Progress.trans (first : Progress b s c t) (second : Progress c t d u) : Progress b s d u :=
  ⟨first.grows.trans second.grows,fun x there => second.kept x (first.kept x there),
    fun x there sure => second.sure x (first.kept x there) (first.sure x there sure)⟩

/-- As long as no more is bound, no state comes. -/
theorem Progress.hasState (progress : Progress b t c u) (before : Resolving s b t) (after : Resolving s c u)
    (same : c.entries.length = b.entries.length) {x : Nat} (there : u.automaton.graph.HasState x) :
    t.automaton.graph.HasState x := by
  rw [after.hasState_iff,← progress.grows.eq_of_length same.symm] at there
  exact (before.hasState_iff x).mpr there

section
variable (consistent : s.automaton.Consistent)
include consistent

/-- One resolution goes on with what holds. -/
theorem Resolving.step (holds : Resolving s b t) {symbol : Regex} (present : t.automaton.graph.HasState state)
    (ambiguous : ambiguousLabel? (t.automaton.outgoing state) = some symbol)
    (performed : Performed (t.automaton.resolveSymbol b state symbol).1 t u) :
    Resolving s (t.automaton.resolveSymbol b state symbol).2 u ∧
      Progress b t (t.automaton.resolveSymbol b state symbol).2 u := by
  have good := holds.keeps.consistent consistent
  obtain ⟨binds,meaning,_⟩ := holds.meaning.resolve good holds.binds present ambiguous
  obtain ⟨grows,bound⟩ := holds.binds.entries_resolved good symbol present
  have kept (x : Nat) (there : t.automaton.graph.HasState x) :=
    Bindings.hasState_resolved (b := b) good symbol present there
  rw [← performed.graph] at meaning bound kept
  have language : u.automaton.language = t.automaton.language :=
    (meaning.language binds consistent.closed).trans (holds.meaning.language holds.binds consistent.closed).symm
  refine ⟨⟨holds.keeps.tail (.perform (Automaton.resolveSymbol_sound good present b symbol) performed language),?_,meaning,
    fun e member => (bound e member).elim (fun old => kept e.1 (holds.bound e old)) id⟩,grows,kept,fun x there sure => ?_⟩
  · rw [performed.automaton,Automaton.counters_perform]
    exact binds
  · have other : x ≠ state := by
      rintro rfl
      rw [good.toIndexed.sure_iff,ambiguous] at sure
      cases sure
    rw [performed.graph,Automaton.graph_resolveSymbol]
    exact Automaton.sure_resolving good present there other sure

end

end

section
variable [Ids]

end

end StepwiseAutomata.Session
