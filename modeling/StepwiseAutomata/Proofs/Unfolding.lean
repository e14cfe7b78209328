import StepwiseAutomata.Proofs.BreakdownAll
import StepwiseAutomata.Proofs.Calls
import StepwiseAutomata.Proofs.Parsing
import StepwiseAutomata.Proofs.Sides

/-!
The language of a written expression after it has been broken down. Loops that are left open at the start state or at
the final state are the only ones that let more words through, and which these are can be read off the expression.
-/
namespace StepwiseAutomata

open Breakdown
open scoped Computability

section
attribute [local instance] Ids.endless

variable {a a' : Automaton} {t : Transition} {heads tails : List Regex}

theorem Side.eq_nil {e : End} {p : Nat} {pending : List Regex} (side : Side e a p pending) (plain : a.graph.Plain) :
    pending = [] := by
  cases side with
  | @opened t has _ _ _ =>
    obtain ⟨c,label⟩ := Regex.isCompound_eq_false_iff.mp (plain t.toArc ⟨t,has,rfl⟩)
    rw [label]
    cases e <;> simp [Regex.leaks]
  | shut => rfl
  | safe => rfl

theorem StartSide.eq_nil {pending : List Regex} (side : StartSide a pending) (plain : a.graph.Plain) : pending = [] := by
  cases side with
  | @fresh t has _ _ _ _ =>
    obtain ⟨c,label⟩ := Regex.isCompound_eq_false_iff.mp (plain t.toArc ⟨t,has,rfl⟩)
    rw [label]
    rfl
  | settled side => exact side.eq_nil plain

theorem FinalSide.eq_nil {q : Nat} {pending : List Regex} (side : FinalSide a q pending) (plain : a.graph.Plain) :
    pending = [] := by
  cases side with
  | @whole t last _ _ =>
    obtain ⟨c,label⟩ := Regex.isCompound_eq_false_iff.mp (plain t.toArc ⟨t,last.has,rfl⟩)
    rw [label]
    rfl
  | doomed => rfl
  | ruined => rfl
  | settled side => exact side.eq_nil plain

/-- A written expression on its way to characters: from the start state 0 to the only final state 1, with the bodies
    that are going to leak at either. -/
structure Unfolding (a : Automaton) (heads tails : List Regex) : Prop where
  consistent : a.Consistent
  start : a.start = 0
  final : ∀ q, a.graph.IsFinal q ↔ q = 1
  straight : ∀ t, a.graph.Has t → t.source ≠ t.target
  flat : ∀ t, a.graph.Has t → t.label.Flat
  /-- What leads back from the final state to the start state is a loop that can be passed by. -/
  bridge : ∀ t, a.graph.Has t → t.label.isCompound = true → t.source = 1 → t.target = 0 →
    a.graph.HasArc ⟨0,1,.epsilon⟩
  startSide : StartSide a heads
  finalSide : FinalSide a 1 tails

/-- An arc that needs breaking down leads back only if it takes the place of such a transition, or of a `*` that led
    there, which has left the bridge. -/
theorem Breakdown.Breaks.bridge (breaks : Breaks a t a') {p q : Nat} (old : p < a.counters.nextState)
    (old' : q < a.counters.nextState) (apart : p ≠ q)
    (bridged : t.source = q → t.target = p → a.graph.HasArc ⟨p,q,.epsilon⟩) {arc : Arc}
    (member : arc ∈ parts a t .optimal)
    (compound : arc.label.isCompound = true) (source : arc.source = q) (target : arc.target = p) :
    a'.graph.HasArc ⟨p,q,.epsilon⟩ := by
  obtain ⟨first,second,_⟩ := breaks.mem_parts member
  have straight := breaks.straight
  rcases first with leaves | new | ⟨leaves,atTarget,iterated⟩
  · rcases second with enters | new | ⟨enters,_⟩
    · obtain ⟨v,has,same⟩ := bridged (leaves.symm.trans source) (enters.symm.trans target)
      exact ⟨v,breaks.kept_plain has (by rw [same]; rfl),same⟩
    · omega
    · exact absurd ((target.symm.trans enters).trans (leaves.symm.trans source)) apart
  · omega
  · rcases second with enters | new | ⟨enters,atSource,_⟩
    · exact absurd ((target.symm.trans enters).trans (leaves.symm.trans source)) apart
    · omega
    · rw [← source,← target,leaves,enters]
      obtain ⟨body,iterated⟩ := Option.isSome_iff_exists.mp iterated
      rcases Regex.eq_of_iterated? iterated with label | label
      · exact breaks.hasArc_epsilon label (by decide)
      · rw [parts_plus label,optimalIsolation_open atSource atTarget] at member
        have member : arc ∈ directLoop a t false body := member
        rcases mem_directLoop.mp member with ⟨back,_⟩ | forth
        · rw [back] at compound
          cases compound
        · rw [forth] at leaves
          exact absurd leaves straight

namespace Unfolding

variable (unfolding : Unfolding a heads tails)
include unfolding

theorem nil_mem_language (has : a.graph.HasArc ⟨0,1,.epsilon⟩) : [] ∈ a.language := by
  rw [← Regex.one_le_iff]
  calc 1 ≤ a.graph.accepts 1 := Graph.one_le_accepts ((unfolding.final 1).mpr rfl)
    _ ≤ a.graph.accepts 0 := Graph.accepts_le_of_epsilon has
    _ = a.language := by rw [← unfolding.start]; rfl

/-- A breakdown takes what leaks off the lists, so that what will be accepted in the end is the same. -/
theorem step (breaks : Breaks a t a')
    (first : ∀ v, a.graph.Has v → v.label.isCompound = true → t.source ≤ v.source) :
    ∃ heads' tails', Unfolding a' heads' tails' ∧
      Regex.leaked heads' tails' a'.language = Regex.leaked heads tails a.language := by
  have start_old : 0 < a.counters.nextState := unfolding.start ▸ breaks.start_old
  have final_old := breaks.final_old ((unfolding.final 1).mpr rfl)
  have bridged := unfolding.bridge t breaks.has breaks.compound
  obtain ⟨heads',split,startSide⟩ := unfolding.startSide.step breaks unfolding.start first
  obtain ⟨tails',split',finalSide⟩ := unfolding.finalSide.step breaks final_old first
  refine ⟨heads',tails',⟨breaks.after,breaks.start_eq.trans unfolding.start,?_,?_,?_,?_,startSide,finalSide⟩,?_⟩
  · exact fun q => (breaks.isFinal_iff q).trans (unfolding.final q)
  · intro v has
    rcases (breaks.has_iff v).mp has with new | ⟨old,_⟩
    · exact (breaks.mem_parts (Counters.toArc_mem_of_mem_number new)).2.2.1
    · exact unfolding.straight v old
  · intro v has
    rcases (breaks.has_iff v).mp has with new | ⟨old,_⟩
    · exact (breaks.mem_parts (Counters.toArc_mem_of_mem_number new)).2.2.2
    · exact unfolding.flat v old
  · intro v has compound source target
    rcases (breaks.has_iff v).mp has with new | ⟨old,_⟩
    · exact breaks.bridge start_old final_old Nat.zero_ne_one bridged (Counters.toArc_mem_of_mem_number new) compound
        source target
    · obtain ⟨w,has,same⟩ := unfolding.bridge v old compound source target
      exact ⟨w,breaks.kept_plain has (by rw [same]; rfl),same⟩
  · have short : (leak .target a t a.start).length ≤ 1 := by
      unfold leak
      split
      · cases t.label.iterated? <;> simp
      · exact Nat.zero_le 1
    have language := breaks.language_eq unfolding.final fun target source =>
      unfolding.nil_mem_language (bridged source (target.trans unfolding.start))
    rw [split,split',Regex.leaked_append short,← language]

/-- Once all labels are characters, nothing is left to leak. -/
theorem language_of_plain (plain : a.graph.Plain) : a.language = Regex.leaked heads tails a.language := by
  rw [unfolding.startSide.eq_nil plain,unfolding.finalSide.eq_nil plain,Regex.leaked_nil]

end Unfolding

/-- The same over a whole run of breakdowns. -/
theorem Unfolding.run (unfolding : Unfolding a heads tails)
    (run : Relation.ReflTransGen (BreaksFirst .optimal) a a') : ∃ heads' tails', Unfolding a' heads' tails' ∧
      Regex.leaked heads' tails' a'.language = Regex.leaked heads tails a.language := by
  induction run with
  | refl => exact ⟨heads,tails,unfolding,rfl⟩
  | @tail b c _ first ih =>
    obtain ⟨heads',tails',unfolding,same⟩ := ih
    have after := first.consistent unfolding.consistent
    obtain ⟨t,notes,found,rfl⟩ := first
    obtain ⟨has,compound⟩ := has_of_find? unfolding.consistent found
    have breaks : Breaks b t _ :=
      ⟨⟨unfolding.consistent,has,compound,unfolding.flat t has,graph_replacing _ _ notes⟩,unfolding.straight t has,after⟩
    obtain ⟨heads'',tails'',unfolding,same'⟩ := unfolding.step breaks fun v has' compound' =>
      unfolding.consistent.source_le_of_find? found has' compound'
    exact ⟨heads'',tails'',unfolding,same'.trans same⟩

namespace Session

variable {settings : Settings} {r : Regex} {s : Session}

/-- The session of a written expression has one transition. -/
theorem Performed.transitions (performed : Performed (Automaton.initial.creation r) (Session.initial settings) s) :
    s.automaton.transitions = [⟨⟨0,1,r⟩,0⟩] := by
  have fits := Automaton.creating_fits Automaton.consistent_initial r
  have perm := Rewriting.transitions_perm Automaton.consistent_initial fits performed.creation.1.toIndexed
    performed.graph_creation
  have all : (s.automaton.transitions ++ []).Perm [⟨⟨0,1,r⟩,0⟩] := perm
  rw [List.append_nil] at all
  exact List.perm_singleton.mp all

/-- What a written expression begins with, from which it is broken down. -/
theorem Performed.unfolding (flat : r.Flat)
    (performed : Performed (Automaton.initial.creation r) (Session.initial settings) s) :
    Unfolding s.automaton r.headLeaks r.tailLeaks := by
  obtain ⟨consistent,arcs,flags⟩ := performed.creation
  have start : s.automaton.start = 0 := performed.start
  have listed := performed.transitions
  have has : s.automaton.graph.Has ⟨⟨0,1,r⟩,0⟩ := by
    rw [← consistent.mem_transitions_iff,listed]
    exact List.mem_singleton_self _
  have only {v : Transition} (has : s.automaton.graph.Has v) : v = ⟨⟨0,1,r⟩,0⟩ := by
    rw [← consistent.mem_transitions_iff,listed] at has
    exact List.mem_singleton.mp has
  have degree (e : End) (p : Nat) : s.automaton.degree e p = if (⟨0,1,r⟩ : Arc).tip e = p then 1 else 0 := by
    rw [Automaton.degree,listed,List.countP_singleton]
    simp only [beq_iff_eq]
  refine ⟨consistent,start,fun q => ?_,fun v has => ?_,fun v has => ?_,fun v has _ source _ => ?_,?_,?_⟩
  · rw [Graph.IsFinal,flags]
    by_cases last : q = 1
    · simp [last]
    · by_cases first : q = 0 <;> simp [last,first]
  · rw [only has]
    exact Nat.zero_ne_one
  · rw [only has]
    exact flat
  · rw [only has] at source
    cases source
  · refine .fresh has start.symm ?_ ?_ (degree .target 1)
    · rw [start]
      exact degree .source 0
    · rw [start]
      exact degree .target 0
  · exact .whole ⟨has,rfl,degree .target 1,degree .source 1⟩ (degree .source 0) (.unreached (degree .target 0))

/-- It accepts what the expression denotes. -/
theorem Performed.language (performed : Performed (Automaton.initial.creation r) (Session.initial settings) s) :
    s.automaton.language = r.language := by
  obtain ⟨_,arcs,flags⟩ := performed.creation
  have start : s.automaton.graph.start = 0 := performed.start
  have final {q : Nat} (last : s.automaton.graph.IsFinal q) : q = 1 := by
    rw [Graph.IsFinal,flags] at last
    by_contra other
    by_cases first : q = 0 <;> simp [other,first] at last
  show s.automaton.graph.accepts _ = _
  rw [start]
  refine le_antisymm ?_ ?_
  · refine Graph.accepts_le (Z := fun p => if p = 0 then r.language else 1) (fun q last => ?_) (fun p q l has => ?_) 0
    · rw [final last]
      exact le_refl 1
    · cases (arcs ⟨p,q,l⟩).mp has
      exact le_of_eq (mul_one _)
  · have last : s.automaton.graph.IsFinal 1 := flags 1
    calc r.language = r.language * 1 := (mul_one _).symm
      _ ≤ r.language * s.automaton.graph.accepts 1 := mul_le_mul' le_rfl (Graph.one_le_accepts last)
      _ ≤ s.automaton.graph.accepts 0 := Graph.mul_accepts_le ((arcs ⟨0,1,r⟩).mpr rfl)

/-- What a written expression is broken down to at the least isolation accepts the words that leak. -/
theorem completes_breakdownAll_ofRegex {text : String} (parsed : Regex.parse text = .ok (some r))
    (optimal : settings.isolation = .optimal) (made : ofRegex text settings = .ok s) :
    Completes breakdownAll s fun n t => n = r.operatorCount ∧ t.automaton.Consistent ∧ t.automaton.graph.Plain ∧
      t.automaton.language = r.leaking := by
  obtain ⟨u,again,performed⟩ := ofRegex_performed parsed settings
  obtain rfl : s = u := Except.ok.inj (made.symm.trans again)
  have unfolding := performed.unfolding (Regex.parse_flat parsed)
  obtain ⟨n,t,result,count,plain,_,run⟩ := completes_breakdownAll unfolding.consistent (.inl performed.undone)
  have weight : s.automaton.weight = r.operatorCount := by
    rw [Automaton.weight,performed.transitions]
    exact Nat.add_zero _
  rw [performed.settings,show (Session.initial settings).settings.isolation = .optimal from optimal] at run
  obtain ⟨heads,tails,unfolded,same⟩ := unfolding.run run
  refine ⟨n,t,result,count.trans weight,unfolded.consistent,plain,?_⟩
  rw [unfolded.language_of_plain plain,same,performed.language]
  rfl

end Session

end

namespace Session

/-- Every written expression is broken down to characters at the least isolation, with a breakdown for each operator, if
    the ids suffice. Then simulating a word tells whether it is among the words that leak, which are at least those of
    the expression; it tells whether the expression denotes the word exactly if they are no more than those. -/
theorem breakdownAll_exact [Ids] {text : String} {settings : Settings} {r : Regex}
    (parsed : Regex.parse text = .ok (some r)) (optimal : settings.isolation = .optimal) :
    ∃ s, ofRegex text settings = .ok s ∧ (Ids.Suffice (breakdownAll.run s).2.automaton.counters →
      ∃ t, breakdownAll.run s = (.ok r.operatorCount,t) ∧ r.language ≤ r.leaking ∧
        (∀ word : String, epsilonChar ∉ word.toList →
          (t.automaton.simulate word = some true ↔ word.toList ∈ r.leaking) ∧
          (t.automaton.simulate word = some false ↔ word.toList ∉ r.leaking)) ∧
        ((∀ word : String, epsilonChar ∉ word.toList →
          (t.automaton.simulate word = some true ↔ word.toList ∈ r.language) ∧
          (t.automaton.simulate word = some false ↔ word.toList ∉ r.language)) ↔ r.leaking = r.language)) := by
  obtain ⟨s,made,_⟩ := ofRegex_performed parsed settings
  refine ⟨s,made,fun room => ?_⟩
  rw [agree_breakdownAll.run room]
  rw [ofRegex_endless] at made
  obtain ⟨_,t,result,rfl,consistent,plain,language⟩ := completes_breakdownAll_ofRegex parsed optimal made
  have simulated (word : String) (symbols : epsilonChar ∉ word.toList) :
      (t.automaton.simulate word = some true ↔ word.toList ∈ r.leaking) ∧
        (t.automaton.simulate word = some false ↔ word.toList ∉ r.leaking) := by
    rw [← language]
    exact consistent.simulate_iff plain symbols
  refine ⟨t,result,Regex.language_le_leaking r,simulated,?_⟩
  constructor
  · intro exact
    refine le_antisymm (fun w member => ?_) (Regex.language_le_leaking r)
    have symbols : epsilonChar ∉ (String.ofList w).toList := by
      rw [String.toList_ofList]
      exact Regex.leaking_le_unmarked r member
    have accepted := (simulated _ symbols).1.mpr (by rwa [String.toList_ofList])
    have denoted := (exact _ symbols).1.mp accepted
    rwa [String.toList_ofList] at denoted
  · intro same
    rw [← same]
    exact simulated

/-- The `*` at the end of a factor that is itself under `*` is left open at the start state, so that its body can be
    read first. -/
theorem breakdownAll_exact_star : ∃ s t, ofRegex "(ab*)*" {} = .ok s ∧ breakdownAll.run s = (.ok 3,t) ∧
    t.automaton.simulate "b" = some true ∧
    ['b'] ∉ (Regex.quant .star (.seq [.char 'a',.quant .star (.char 'b')])).language := by
  have parsed : Regex.parse "(ab*)*" = .ok (some (.quant .star (.seq [.char 'a',.quant .star (.char 'b')]))) := rfl
  have optimal : ({} : Settings).isolation = .optimal := rfl
  obtain ⟨s,made,exact⟩ := breakdownAll_exact parsed optimal
  have room : Ids.Suffice (breakdownAll.run s).2.automaton.counters := by
    cases made
    exact Ids.suffice_words (by decide +kernel)
  obtain ⟨t,result,_,simulated,_⟩ := exact room
  refine ⟨s,t,made,result,(simulated "b" (by decide)).1.mpr ?_,?_⟩
  · have heads : (Regex.quant .star (.seq [.char 'a',.quant .star (.char 'b')])).headLeaks = [.char 'b'] := by
      simp [Regex.headLeaks,Regex.factors,Regex.leaks,Regex.outerLeaks]
    have tails : (Regex.quant .star (.seq [.char 'a',.quant .star (.char 'b')])).tailLeaks = [] := by
      simp [Regex.tailLeaks,Regex.factors,Regex.leaks,Regex.outerLeaks]
    have first : ['b'] ∈ (Regex.char 'b').language∗ := by
      refine ⟨[['b']],rfl,fun w member => ?_⟩
      rw [List.mem_singleton.mp member,Regex.language_char,if_neg (by decide)]
      exact rfl
    rw [Regex.leaking,Regex.leaked,heads,tails]
    simp only [List.reverse_singleton,List.map_cons,List.map_nil,List.prod_singleton,List.prod_nil,mul_one]
    exact ⟨['b'],first,[],Language.nil_mem_kstar _,rfl⟩
  · rintro ⟨words,whole,each⟩
    cases words with
    | nil => cases whole
    | cons w words =>
      obtain ⟨u,letter,v,_,rfl⟩ := each w List.mem_cons_self
      rw [Regex.language_char,if_neg (by decide)] at letter
      obtain rfl : u = ['a'] := letter
      cases whole

end Session
end StepwiseAutomata
