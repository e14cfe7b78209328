import StepwiseAutomata.Automaton.Reachability
import StepwiseAutomata.Proofs.Reachability

namespace StepwiseAutomata

namespace Graph

variable {g : Graph}

/-- Every label is a character. -/
def Plain (g : Graph) : Prop := ∀ arc, g.HasArc arc → arc.label.isCompound = false

theorem Slides.reads {p q r : Nat} {w : List Char} (slides : g.Slides p q) (reads : g.Reads q w r) : g.Reads p w r := by
  induction slides using Relation.ReflTransGen.head_induction_on with
  | refl => exact reads
  | head arc _ ih =>
    have none : [] ∈ Regex.epsilon.language := by
      rw [Regex.language_epsilon]
      exact rfl
    exact .cons (u := []) arc none ih

/-- Reading begins with `ε` transitions, and then either ends or goes on with the first character. -/
theorem Plain.reads_cases (plain : g.Plain) {p q : Nat} {w : List Char} (reads : g.Reads p w q) :
    (w = [] ∧ g.Slides p q) ∨ ∃ c v y r, w = c :: v ∧ g.Slides p y ∧ g.HasArc ⟨y,r,.char c⟩ ∧ g.Reads r v q := by
  induction reads with
  | nil p => exact .inl ⟨rfl,.refl⟩
  | @cons p r q l u w arc first rest ih =>
    obtain ⟨c,label⟩ := Regex.isCompound_eq_false_iff.mp (plain _ arc)
    obtain rfl : l = .char c := label
    rw [Regex.language_char] at first
    by_cases hidden : c = epsilonChar
    · rw [if_pos hidden] at first
      have slide : g.HasArc ⟨p,r,.epsilon⟩ := by
        rw [hidden] at arc
        exact arc
      obtain rfl : u = [] := first
      rcases ih with ⟨rfl,slides⟩ | ⟨d,v,y,x,rfl,slides,next,rest⟩
      · exact .inl ⟨rfl,.head slide slides⟩
      · exact .inr ⟨d,v,y,x,rfl,.head slide slides,next,rest⟩
    · rw [if_neg hidden] at first
      obtain rfl : u = [c] := first
      exact .inr ⟨c,w,p,r,rfl,.refl,arc,rest⟩

theorem Plain.reads_nil (plain : g.Plain) {p q : Nat} : g.Reads p [] q ↔ g.Slides p q := by
  constructor
  · intro reads
    rcases plain.reads_cases reads with ⟨_,slides⟩ | ⟨_,_,_,_,impossible,_⟩
    · exact slides
    · cases impossible
  · exact fun slides => slides.reads (.nil q)

theorem Plain.reads_cons (plain : g.Plain) {p q : Nat} {c : Char} (symbol : c ≠ epsilonChar) {w : List Char} :
    g.Reads p (c :: w) q ↔ ∃ y r, g.Slides p y ∧ g.HasArc ⟨y,r,.char c⟩ ∧ g.Reads r w q := by
  constructor
  · intro reads
    rcases plain.reads_cases reads with ⟨impossible,_⟩ | ⟨_,_,y,r,same,slides,arc,rest⟩
    · cases impossible
    · obtain ⟨rfl,rfl⟩ := List.cons.inj same
      exact ⟨y,r,slides,arc,rest⟩
  · rintro ⟨y,r,slides,arc,rest⟩
    have first : [c] ∈ (Regex.char c).language := by
      rw [Regex.language_char,if_neg symbol]
      exact rfl
    exact slides.reads (.cons (u := [c]) arc first rest)

end Graph

namespace Automaton

variable {a : Automaton}

theorem Indexed.mem_step (indexed : a.Indexed) {states : StateSet} {c : Char} {x : Nat} :
    x ∈ a.step states c ↔ ∃ s ∈ states, a.graph.HasArc ⟨s,x,.char c⟩ := by
  simp only [step,StateSet.mem_ofList,List.mem_flatMap,StateSet.mem_members,List.mem_map,List.mem_filter,
    indexed.outgoing_iff,beq_iff_eq]
  refine exists_congr fun s => and_congr_right fun _ => ?_
  constructor
  · rintro ⟨t,⟨⟨has,rfl⟩,label⟩,rfl⟩
    exact ⟨t,has,by rw [← label]⟩
  · rintro ⟨t,has,same⟩
    exact ⟨t,⟨⟨has,by rw [same]⟩,by rw [same]⟩,by rw [same]⟩

/-- A run ends in the states that the word is read on the way to. -/
theorem Indexed.mem_run (indexed : a.Indexed) (plain : a.graph.Plain) {word : List Char}
    (symbols : ∀ c ∈ word, c ≠ epsilonChar) {states : StateSet} {x : Nat} :
    x ∈ a.run states word ↔ ∃ s ∈ states, a.graph.Reads s word x := by
  induction word generalizing states with
  | nil =>
    show x ∈ a.closureOf states ↔ _
    simp only [indexed.mem_closureOf,plain.reads_nil]
  | cons c word ih =>
    show x ∈ a.run (a.step (a.closureOf states) c) word ↔ _
    rw [ih fun d member => symbols d (List.mem_cons_of_mem c member)]
    simp only [indexed.mem_step,indexed.mem_closureOf,plain.reads_cons (symbols c List.mem_cons_self)]
    constructor
    · rintro ⟨r,⟨y,⟨s,member,slides⟩,arc⟩,rest⟩
      exact ⟨s,member,y,r,slides,arc,rest⟩
    · rintro ⟨s,member,y,r,slides,arc,rest⟩
      exact ⟨r,⟨y,⟨s,member,slides⟩,arc⟩,rest⟩

/-- Once a part of a word has led nowhere, so does the word. -/
theorem run_append_eq_empty {states : StateSet} {u : List Char} (nowhere : a.run states u = ∅) (v : List Char) :
    a.run states (u ++ v) = ∅ := by
  have closed : a.closureOf ∅ = ∅ := by
    show explore (a.epsilonArcs.length + 0) a.epsilonArcs [] ∅ = ∅
    cases a.epsilonArcs.length <;> rfl
  show List.foldl _ _ _ = _
  rw [List.foldl_append]
  show v.foldl _ (a.run states u) = _
  rw [nowhere]
  induction v with
  | nil => rfl
  | cons c v ih =>
    rw [List.foldl_cons]
    show v.foldl _ (a.closureOf ∅) = _
    rw [closed]
    exact ih

theorem Indexed.plain_iff (indexed : a.Indexed) :
    a.graph.Plain ↔ ∀ t ∈ a.transitions, t.label.isCompound = false := by
  simp only [indexed.mem_transitions_iff]
  exact ⟨fun plain t has => plain t.toArc ⟨t,has,rfl⟩,fun each _ ⟨t,has,same⟩ => same ▸ each t has⟩

/-- A word is simulated where all labels are characters. -/
theorem Indexed.simulate_eq_none_iff (indexed : a.Indexed) {word : String} :
    a.simulate word = none ↔ ¬a.graph.Plain := by
  rw [indexed.plain_iff,simulate]
  split
  · rename_i compound
    refine iff_of_true rfl fun each => ?_
    obtain ⟨t,member,operator⟩ := List.any_eq_true.mp compound
    exact absurd (each t member) (ne_of_eq_of_ne operator nofun)
  · rename_i none
    exact iff_of_false nofun fun compound => compound fun t member =>
      Bool.not_eq_true _ |>.mp fun operator => none (List.any_eq_true.mpr ⟨t,member,operator⟩)

theorem ne_epsilon_of_mem {word : List Char} : ∀ c ∈ word.filter (· != epsilonChar), c ≠ epsilonChar :=
  fun _ member => bne_iff_ne.mp (List.mem_filter.mp member).2

/-- Where all labels are characters, simulating a word tells whether its part that is not `ε` is in the language. -/
theorem Indexed.exists_simulate (indexed : a.Indexed) (plain : a.graph.Plain) (word : String) :
    ∃ b, a.simulate word = some b ∧ (b = true ↔ word.toList.filter (· != epsilonChar) ∈ a.language) := by
  obtain ⟨b,made⟩ := Option.ne_none_iff_exists'.mp fun none => indexed.simulate_eq_none_iff.mp none plain
  refine ⟨b,made,?_⟩
  rw [simulate] at made
  split at made
  · cases made
  · cases made
    simp only [List.any_eq_true,StateSet.mem_members,indexed.mem_run plain ne_epsilon_of_mem,StateSet.mem_singleton,
      isFinal_iff]
    constructor
    · rintro ⟨q,⟨s,rfl,reads⟩,final⟩
      exact ⟨q,final,reads⟩
    · rintro ⟨q,final,reads⟩
      exact ⟨q,⟨a.start,rfl,reads⟩,final⟩

/-- Where all labels are characters, simulating a word tells whether it is in the language. -/
theorem Indexed.simulate_iff (indexed : a.Indexed) (plain : a.graph.Plain) {word : String}
    (symbols : epsilonChar ∉ word.toList) :
    (a.simulate word = some true ↔ word.toList ∈ a.language) ∧
      (a.simulate word = some false ↔ word.toList ∉ a.language) := by
  have whole : word.toList.filter (· != epsilonChar) = word.toList :=
    List.filter_eq_self.mpr fun c member => bne_iff_ne.mpr fun same => symbols (same ▸ member)
  obtain ⟨b,made,accepted⟩ := indexed.exists_simulate plain word
  rw [whole] at accepted
  rw [made,← accepted]
  cases b <;> simp

end Automaton
end StepwiseAutomata
