import StepwiseAutomata.Proofs.Simulation
import StepwiseAutomata.Proofs.Snapshot

namespace StepwiseAutomata

namespace Regex

/-- What a label adds to the word that a path spells: a symbol adds itself, and `ε` adds nothing. -/
def letters : Regex → List Char
  | .char c => if c = epsilonChar then [] else [c]
  | _ => []

theorem mem_language_char {c : Char} {w : List Char} : w ∈ (char c).language ↔ (char c).letters = w := by
  rw [language_char,letters]
  split <;> exact eq_comm

theorem isCompound_eq_true_iff {r : Regex} : r.isCompound = true ↔ r.isEpsilon = false ∧ r.isSymbol = false := by
  cases r <;> simp [isCompound,isEpsilon,isSymbol]

end Regex

/-- The word that transitions spell one after the other. -/
def spelled (ts : List Transition) : List Char := ts.flatMap fun t => t.label.letters

theorem spelled_cons (t : Transition) (ts : List Transition) : spelled (t :: ts) = t.label.letters ++ spelled ts :=
  List.flatMap_cons

namespace Graph

/-- The transitions lead from one state to another, each of them on from where the one before it led. -/
inductive Path (g : Graph) : Nat → List Transition → Nat → Prop
  | nil (p : Nat) : Path g p [] p
  | cons {t : Transition} {ts : List Transition} {q : Nat} (has : g.Has t) (rest : Path g t.target ts q) :
      Path g t.source (t :: ts) q

variable {g : Graph}

/-- Where all labels are characters, what is read on the way is what some path spells. -/
theorem Plain.reads_iff (plain : g.Plain) {p q : Nat} {w : List Char} :
    g.Reads p w q ↔ ∃ ts, g.Path p ts q ∧ spelled ts = w := by
  have spells {t : Transition} (has : g.Has t) {u : List Char} : u ∈ t.label.language ↔ t.label.letters = u := by
    obtain ⟨c,label⟩ := Regex.isCompound_eq_false_iff.mp (plain t.toArc ⟨t,has,rfl⟩)
    rw [label,Regex.mem_language_char]
  constructor
  · intro reads
    induction reads with
    | nil p => exact ⟨[],.nil p,rfl⟩
    | @cons p r q l u w arc first _ ih =>
      obtain ⟨t,has,rfl,rfl,rfl⟩ : ∃ t, g.Has t ∧ t.source = p ∧ t.target = r ∧ t.label = l := by
        obtain ⟨t,has,same⟩ := arc
        exact ⟨t,has,congrArg Arc.source same,congrArg Arc.target same,congrArg Arc.label same⟩
      obtain ⟨ts,path,rfl⟩ := ih
      exact ⟨t :: ts,.cons has path,by rw [spelled_cons,(spells has).mp first]⟩
  · rintro ⟨ts,path,rfl⟩
    induction path with
    | nil p => exact .nil p
    | @cons t ts q has rest ih =>
      rw [spelled_cons]
      exact .cons ⟨t,has,rfl⟩ ((spells has).mpr rfl) ih

end Graph

namespace Automaton

variable {a : Automaton}

/-- A word is simulated unless some label is neither `ε` nor a symbol. Then it is accepted when a path from the start
    state to a final state spells it, and not when a part of it has led nowhere. -/
theorem simulate_exact (consistent : a.Consistent) (word : String) :
    (a.simulate word = none ↔ ∃ t ∈ a.transitions, t.label.isEpsilon = false ∧ t.label.isSymbol = false) ∧
    ((∀ t ∈ a.transitions, t.label.isEpsilon = true ∨ t.label.isSymbol = true) → ∃ b, a.simulate word = some b ∧
      (b = true ↔ ∃ ts q, a.graph.Path a.start ts q ∧ a.isFinal q = true ∧
        spelled ts = word.toList.filter (· != epsilonChar)) ∧
      ∀ u v, word.toList.filter (· != epsilonChar) = u ++ v → a.run (.singleton a.start) u = ∅ → b = false) := by
  have refused : a.simulate word = none ↔
      ∃ t ∈ a.transitions, t.label.isEpsilon = false ∧ t.label.isSymbol = false := by
    rw [consistent.simulate_eq_none_iff,consistent.plain_iff]
    simp only [not_forall,Bool.not_eq_false,exists_prop,Regex.isCompound_eq_true_iff]
  refine ⟨refused,fun characters => ?_⟩
  have plain : a.graph.Plain := by
    by_contra other
    obtain ⟨t,member,visible,operator⟩ := refused.mp (consistent.simulate_eq_none_iff.mpr other)
    rcases characters t member with hidden | symbol
    · exact Bool.false_ne_true (visible.symm.trans hidden)
    · exact Bool.false_ne_true (operator.symm.trans symbol)
  obtain ⟨b,made,accepted⟩ := consistent.exists_simulate plain word
  refine ⟨b,made,accepted.trans ?_,fun u v parts nowhere => ?_⟩
  · constructor
    · rintro ⟨q,final,reads⟩
      obtain ⟨ts,path,spells⟩ := plain.reads_iff.mp reads
      exact ⟨ts,q,path,isFinal_iff.mpr final,spells⟩
    · rintro ⟨ts,q,path,final,spells⟩
      exact ⟨q,isFinal_iff.mp final,plain.reads_iff.mpr ⟨ts,path,spells⟩⟩
  · refine Bool.not_eq_true _ |>.mp fun yes => ?_
    obtain ⟨q,_,reads⟩ := accepted.mp yes
    have reached := (consistent.mem_run plain ne_epsilon_of_mem).mpr ⟨a.start,StateSet.mem_singleton.mpr rfl,reads⟩
    rw [parts,run_append_eq_empty nowhere] at reached
    exact StateSet.mem_empty reached

/-- A cycle of `ε` transitions is gone around before each `a`, and the `ε` characters of the word are not looked for. -/
theorem simulate_exact_cycle : ∃ a : Automaton, a.Consistent ∧
    (∃ ts q, a.graph.Path a.start ts q ∧ a.isFinal q = true ∧ spelled ts = ['a','a']) ∧
    ¬∃ ts q, a.graph.Path a.start ts q ∧ a.isFinal q = true ∧ spelled ts = ['a','b'] := by
  let picture : Snapshot := ⟨0,[⟨0,false⟩,⟨1,false⟩,⟨2,true⟩],
    [⟨0,0,1,"ε"⟩,⟨1,1,0,"ε"⟩,⟨2,1,2,"a"⟩,⟨3,2,1,"ε"⟩,⟨4,2,2,"ε"⟩],none,none⟩
  obtain ⟨a,consistent,characters,twice,other⟩ : ∃ a : Automaton, a.Consistent ∧
      (∀ t ∈ a.transitions, t.label.isEpsilon = true ∨ t.label.isSymbol = true) ∧
      a.simulate "εaεεa" = some true ∧ a.simulate "abε" = some false :=
    ⟨_,Snapshot.consistent_restore (by decide) (show picture.restore = .ok _ from rfl),by decide +kernel,by decide +kernel,
      by decide +kernel⟩
  obtain ⟨b,made,accepted,_⟩ := (simulate_exact consistent "εaεεa").2 characters
  obtain ⟨c,found,refused,_⟩ := (simulate_exact consistent "abε").2 characters
  cases made.symm.trans twice
  cases found.symm.trans other
  exact ⟨a,consistent,accepted.mp rfl,fun path => Bool.false_ne_true (refused.mpr path)⟩

end Automaton
end StepwiseAutomata
