import StepwiseAutomata.Proofs.Fragments

namespace StepwiseAutomata.Breakdown
open scoped Computability

attribute [local instance] Ids.endless

variable {a a' : Automaton} {t : Transition}

/-- The words that can be read before all words of `tail`. -/
def before (tail l : Language Char) : Language Char := {w | ∀ v ∈ tail, w ++ v ∈ l}

theorem le_before_iff {tail l m : Language Char} : m ≤ before tail l ↔ m * tail ≤ l := by
  constructor
  · rintro each _ ⟨w,first,v,after,rfl⟩
    exact each first v after
  · intro product w member v after
    exact product (Language.append_mem_mul member after)

theorem mul_before_le {tail l m k : Language Char} (step : k * l ≤ m) : k * before tail l ≤ before tail m := by
  rw [le_before_iff,mul_assoc]
  exact (mul_le_mul' le_rfl (le_before_iff.mp le_rfl)).trans step

/-- The body that can be read again at a state, when the loop for the transition is left open there. -/
def leak (e : End) (a : Automaton) (t : Transition) (p : Nat) : List Regex :=
  if t.tip e = p ∧ (optimalIsolation a t).side e = false then t.label.iterated?.toList else []

theorem leak_of_iterated {body : Regex} (iterated : t.label.iterated? = some body) (e : End) (p : Nat) :
    ((leak e a t p).map (·.language∗)).prod =
      if t.tip e = p ∧ (optimalIsolation a t).side e = false then body.language∗ else 1 := by
  unfold leak
  split <;> simp [iterated]

theorem leak_of_tip_ne {e : End} {p : Nat} (other : t.tip e ≠ p) : leak e a t p = [] := if_neg fun here => other here.1

theorem leak_of_side {e : End} {p : Nat} (side : (optimalIsolation a t).side e = true) : leak e a t p = [] :=
  if_neg fun here => absurd (side.symm.trans here.2) (by decide)

namespace Breaks

variable (breaks : Breaks a t a')
include breaks

/-- What the fragment of an iteration reads: the iteration as a whole, and the body again at an end where the loop is
    open. -/
theorem loop_le_accepts {body : Regex} (iterated : t.label.iterated? = some body) :
    t.label.language * a'.graph.accepts t.target ≤ a'.graph.accepts t.source ∧
    ((optimalIsolation a t).atTarget = false →
      body.language * a'.graph.accepts t.target ≤ a'.graph.accepts t.target) ∧
    ((optimalIsolation a t).atSource = false →
      body.language * a'.graph.accepts t.source ≤ a'.graph.accepts t.source) := by
  obtain ⟨_,_,star⟩ := language_iterated iterated
  have passed (label : t.label = .quant .star body) :=
    Graph.accepts_le_of_epsilon (breaks.hasArc_epsilon label (by decide))
  rcases breaks.exists_loop iterated with ⟨atSource,atTarget,label⟩ | ⟨first,last,loop⟩
  · have passed := passed label
    have arc : a'.graph.HasArc ⟨t.target,t.source,body⟩ := by
      refine breaks.exists_part ?_
      rw [breaks.parts_star_open label atSource atTarget]
      exact List.mem_cons_of_mem _ List.mem_cons_self
    have back := Graph.mul_accepts_le arc
    rw [star label]
    refine ⟨?_,fun _ => (mul_le_mul' le_rfl passed).trans back,fun _ => back.trans passed⟩
    exact kstar_mul_le passed (back.trans passed)
  · have back := Graph.accepts_le_of_epsilon loop.back
    have forth := Graph.mul_accepts_le loop.forth
    have enter : a'.graph.accepts first ≤ a'.graph.accepts t.source := by
      rcases loop.first_cases with ⟨atSource,_⟩ | ⟨_,rfl⟩
      · exact Graph.accepts_le_of_epsilon (loop.enter atSource)
      · exact le_rfl
    have leave : a'.graph.accepts t.target ≤ a'.graph.accepts last := by
      rcases loop.last_cases with ⟨atTarget,_⟩ | ⟨_,rfl⟩
      · exact Graph.accepts_le_of_epsilon (loop.leave atTarget)
      · exact le_rfl
    have some := loop_mul_accepts_le enter leave loop.forth loop.back
    refine ⟨?_,fun atTarget => ?_,fun atSource => ?_⟩
    · rcases Regex.eq_of_iterated? iterated with label | label
      · rw [star label,← one_add_mul_kstar,add_mul,one_mul]
        exact sup_le (passed label) some
      · rw [label,Regex.language_quant]
        exact some
    · obtain rfl := (loop.last_cases.resolve_left (by simp [atTarget])).2
      exact forth.trans back
    · obtain rfl := (loop.first_cases.resolve_left (by simp [atSource])).2
      exact (mul_le_mul' le_rfl back).trans forth

/-- From an open source there is no other way than the transition. -/
theorem accepts_source_cases (atSource : (optimalIsolation a t).atSource = false) {w : List Char}
    (member : w ∈ a.graph.accepts t.source) :
    w = [] ∧ a.graph.IsFinal t.source ∨ w ∈ t.label.language * a.graph.accepts t.target := by
  rcases Graph.accepts_cases member with ends | ⟨q,l,⟨v,has,same⟩,product⟩
  · exact .inl ends
  · have alone : v = t := by
      by_contra other
      have source : v.tip .source = t.source := by rw [same]; rfl
      have side := (breaks.consistent.side_optimal (e := .source) breaks.has).mpr
        (breaks.consistent.two_le_degree has breaks.has source rfl other)
      exact absurd (side.symm.trans atSource) (by decide)
    subst alone
    rw [same]
    exact .inr product

/-- Only one transition enters an open target. -/
theorem target_ne_of_open (atTarget : (optimalIsolation a t).atTarget = false) {v : Transition} (has : a.graph.Has v)
    (other : v ≠ t) : v.target ≠ t.target := by
  intro same
  have side := (breaks.consistent.side_optimal (e := .target) breaks.has).mpr
    (breaks.consistent.two_le_degree has breaks.has same rfl other)
  exact absurd (side.symm.trans atTarget) (by decide)

/-- To bound what is accepted afterwards it is enough to look at the fragment, once the states that were there are
    assigned no less than before, with `tail` after it, and an open target as much as `last`. -/
theorem accepts_after_le_of_old {tail last : Language Char} (nil : 1 ≤ tail)
    (target_le : a.graph.accepts t.target * tail ≤ last) {Z : Nat → Language Char}
    (same : ∀ x < a.counters.nextState, Z x = if x = t.target ∧ (optimalIsolation a t).atTarget = false then last
      else a.graph.accepts x * tail)
    (new : ∀ arc ∈ parts a t .optimal, arc.label.language * Z arc.target ≤ Z arc.source) (p : Nat) :
    a'.graph.accepts p ≤ Z p := by
  have above {x : Nat} (old : x < a.counters.nextState) : a.graph.accepts x * tail ≤ Z x := by
    rw [same x old]
    split
    · rename_i here
      rw [here.1]
      exact target_le
    · exact le_rfl
  refine breaks.accepts_after_le (fun q isFinal => ?_) (fun v has other => ?_) new p
  · calc (1 : Language Char) = 1 * 1 := (one_mul 1).symm
      _ ≤ a.graph.accepts q * tail := mul_le_mul' (Graph.one_le_accepts isFinal) nil
      _ ≤ Z q := above (breaks.final_old isFinal)
  · rw [same v.target (breaks.tip_old has .target),if_neg fun here => breaks.target_ne_of_open here.2 has other here.1,
      ← mul_assoc]
    exact (mul_le_mul' (Graph.mul_accepts_le ⟨v,has,rfl⟩) le_rfl).trans (above (breaks.tip_old has .source))

omit breaks in
/-- The words `last` are enough for the last state of a loop of `body` in place of the transition, when what is accepted
    elsewhere is followed by `tail`. -/
structure LoopBounds (a : Automaton) (t : Transition) (body : Regex) (tail last : Language Char) : Prop where
  enters : a.graph.accepts t.target * tail ≤ last
  round : body.language * last ≤ last
  begins : body.language * last ≤ a.graph.accepts t.source * tail
  passes : t.label = .quant .star body → last ≤ a.graph.accepts t.source * tail
  ends : (optimalIsolation a t).atSource = false → a.graph.accepts t.source * tail ≤ last

/-- Enough is what goes round any number of times, then leads on to the target or ends at the source. There `extra` is
    accepted without the transition, when the source is open. -/
theorem loopBounds {body : Regex} (iterated : t.label.iterated? = some body) (tail extra : Language Char)
    (least : extra ≤ a.graph.accepts t.source)
    (only : (optimalIsolation a t).atSource = false →
      a.graph.accepts t.source ≤ t.label.language * a.graph.accepts t.target + extra)
    (again : body.language∗ * (extra * tail) ≤ extra * tail) :
    LoopBounds a t body tail (body.language∗ * ((a.graph.accepts t.target + extra) * tail)) := by
  obtain ⟨fewest,most,star⟩ := language_iterated iterated
  have step : t.label.language * a.graph.accepts t.target ≤ a.graph.accepts t.source :=
    Graph.mul_accepts_le ⟨t,breaks.has,rfl⟩
  have round {l : Language Char} (fewer : l ≤ t.label.language) :
      l * ((a.graph.accepts t.target + extra) * tail) ≤ a.graph.accepts t.source * tail := by
    rw [add_mul,mul_add]
    refine sup_le ?_ ?_
    · rw [← mul_assoc]
      exact mul_le_mul' ((mul_le_mul' fewer le_rfl).trans step) le_rfl
    · calc l * (extra * tail) ≤ body.language∗ * (extra * tail) := mul_le_mul' (fewer.trans most) le_rfl
        _ ≤ extra * tail := again
        _ ≤ a.graph.accepts t.source * tail := mul_le_mul' least le_rfl
  constructor
  · exact (mul_le_mul' le_sup_left le_rfl).trans le_rounds
  · exact round_le
  · rw [← mul_assoc]
    exact round fewest
  · exact fun label => round (le_of_eq (star label).symm)
  · intro atSource
    rw [← mul_assoc]
    refine mul_le_mul' ((only atSource).trans (sup_le ?_ ?_)) le_rfl
    · exact mul_le_mul' most le_sup_left
    · exact le_sup_right.trans le_rounds

omit breaks in
/-- What the states are assigned while there is a loop between `first` and `final`: `last` where the loop ends, what
    begins with the body at a new first state, and elsewhere what was accepted, with `tail` after it. -/
def around (a : Automaton) (t : Transition) (body : Regex) (tail last : Language Char) (first final x : Nat) :
    Language Char :=
  if x = final then last
  else if (optimalIsolation a t).atSource = true ∧ x = first then body.language * last
  else a.graph.accepts x * tail

section
variable {body : Regex} {tail last : Language Char} {first final : Nat}
  (gates : Gates a t (optimalIsolation a t) first final)
include gates

omit breaks in
theorem around_old {x : Nat} (old : x < a.counters.nextState) : around a t body tail last first final x =
    if x = t.target ∧ (optimalIsolation a t).atTarget = false then last else a.graph.accepts x * tail := by
  have notFirst : ¬((optimalIsolation a t).atSource = true ∧ x = first) := by
    rintro ⟨atSource,here⟩
    have := (gates.first_cases.resolve_right (by simp [atSource])).2
    omega
  unfold around
  rw [if_neg notFirst]
  rcases gates.last_cases with ⟨atTarget,new⟩ | ⟨atTarget,here⟩
  · rw [if_neg (by omega),if_neg (by simp [atTarget])]
  · simp only [here,atTarget,and_true]

omit breaks in
/-- The first state is between one round and the last state, and no more than the source. -/
theorem around_first (bounds : LoopBounds a t body tail last) :
    body.language * last ≤ around a t body tail last first final first ∧
      around a t body tail last first final first ≤ last ∧
      around a t body tail last first final first ≤ a.graph.accepts t.source * tail := by
  unfold around
  rw [if_neg gates.apart]
  rcases gates.first_cases with ⟨atSource,_⟩ | ⟨atSource,here⟩
  · rw [if_pos ⟨atSource,rfl⟩]
    exact ⟨le_rfl,bounds.round,bounds.begins⟩
  · rw [if_neg (by simp [atSource]),here]
    exact ⟨bounds.begins,bounds.ends atSource,le_rfl⟩

end

/-- The bound for a `*` that is open at both sides. -/
private theorem accepts_after_star_le {body : Regex} {tail last : Language Char} (nil : 1 ≤ tail)
    (bounds : LoopBounds a t body tail last) (label : t.label = .quant .star body)
    (atSource : (optimalIsolation a t).atSource = false) (atTarget : (optimalIsolation a t).atTarget = false) (p : Nat) :
    a'.graph.accepts p ≤ if p = t.target then last else a.graph.accepts p * tail := by
  have straight := breaks.straight
  refine breaks.accepts_after_le_of_old nil bounds.enters
    (Z := fun x => if x = t.target then last else a.graph.accepts x * tail)
    (fun x _ => by simp only [atTarget,and_true]) (fun arc member => ?_) p
  rw [breaks.parts_star_open label atSource atTarget] at member
  rcases List.mem_cons.mp member with rfl | back
  · show Regex.epsilon.language * (if t.target = t.target then last else _) ≤ if t.source = t.target then _ else _
    rw [if_pos rfl,if_neg straight,Regex.language_epsilon,one_mul]
    exact bounds.passes label
  · obtain rfl := List.mem_singleton.mp back
    show body.language * (if t.source = t.target then _ else _) ≤ if t.target = t.target then last else _
    rw [if_pos rfl,if_neg straight]
    exact (mul_le_mul' le_rfl (bounds.ends atSource)).trans bounds.round

/-- The bound for a loop between gates. -/
private theorem accepts_after_gates_le {body : Regex} {tail last : Language Char} (nil : 1 ≤ tail)
    (bounds : LoopBounds a t body tail last) {first final : Nat} (loop : Loop a t a' body first final) (p : Nat) :
    a'.graph.accepts p ≤ around a t body tail last first final p := by
  have atFinal : around a t body tail last first final final = last := if_pos rfl
  have atSource : around a t body tail last first final t.source = a.graph.accepts t.source * tail := by
    rw [around_old loop.toGates breaks.source_old,if_neg fun here => breaks.straight here.1]
  have atTarget : around a t body tail last first final t.target ≤ last := by
    rw [around_old loop.toGates breaks.target_old]
    split
    · exact le_rfl
    · exact bounds.enters
  obtain ⟨round,first_last,first_source⟩ := around_first loop.toGates bounds
  refine breaks.accepts_after_le_of_old nil bounds.enters (fun x old => around_old loop.toGates old)
    (fun arc member => ?_) p
  rcases loop.only arc member with rfl | rfl | ⟨_,rfl⟩ | ⟨_,rfl⟩ | ⟨label,rfl⟩
  · rw [Regex.language_epsilon,one_mul,atFinal]
    exact first_last
  · rw [atFinal]
    exact round
  · rw [Regex.language_epsilon,one_mul,atSource]
    exact first_source
  · rw [Regex.language_epsilon,one_mul,atFinal]
    exact atTarget
  · rw [Regex.language_epsilon,one_mul,atSource]
    exact atTarget.trans (bounds.passes label)

/-- An upper bound for what is accepted after an iteration has been broken down. -/
theorem accepts_after_loop_le {body : Regex} (iterated : t.label.iterated? = some body) {tail last : Language Char}
    (nil : 1 ≤ tail) (bounds : LoopBounds a t body tail last) {p : Nat} (old : p < a.counters.nextState) :
    a'.graph.accepts p ≤ if p = t.target ∧ (optimalIsolation a t).atTarget = false then last
      else a.graph.accepts p * tail := by
  rcases breaks.exists_loop iterated with ⟨atSource,atTarget,label⟩ | ⟨first,final,loop⟩
  · simp only [atTarget,and_true]
    exact breaks.accepts_after_star_le nil bounds label atSource atTarget p
  · rw [← around_old loop.toGates old]
    exact breaks.accepts_after_gates_le nil bounds loop p

/-- A lower bound: what can be read at the final states can be read after every word. -/
theorem mul_le_accepts_after {body : Regex} (iterated : t.label.iterated? = some body) (tail : Language Char)
    (ends : ∀ q, a.graph.IsFinal q → tail ≤ a'.graph.accepts q) (p : Nat) :
    a.graph.accepts p * tail ≤ a'.graph.accepts p := by
  rw [← le_before_iff]
  refine breaks.accepts_le (Z := fun x => before tail (a'.graph.accepts x)) (fun q isFinal => ?_)
    (fun x y l arc => mul_before_le (Graph.mul_accepts_le arc)) (mul_before_le (breaks.loop_le_accepts iterated).1) p
  rw [le_before_iff,one_mul]
  exact ends q isFinal

/-- What an iteration that is broken down does to the language. -/
theorem language_iteration {body : Regex} (iterated : t.label.iterated? = some body) {q : Nat}
    (final : ∀ x, a.graph.IsFinal x ↔ x = q)
    (nil : t.target = a.start → (optimalIsolation a t).atTarget = false → t.source = q →
      (optimalIsolation a t).atSource = false → [] ∈ a.language) :
    a'.language = (if t.target = a.start ∧ (optimalIsolation a t).atTarget = false then body.language∗ else 1) *
      a.language * (if t.source = q ∧ (optimalIsolation a t).atSource = false then body.language∗ else 1) := by
  have start_old := breaks.start_old
  have after : a'.language = a'.graph.accepts a.start := by
    show a'.graph.accepts a'.start = _
    rw [breaks.start_eq]
  obtain ⟨_,turnTarget,turnSource⟩ := breaks.loop_le_accepts iterated
  rw [after]
  show _ = _ * a.graph.accepts a.start * _
  refine le_antisymm ?_ ?_
  · -- without the transition, only the empty word is accepted at an open source
    have bounds := breaks.loopBounds iterated
      (if t.source = q ∧ (optimalIsolation a t).atSource = false then body.language∗ else 1)
      (if t.source = q ∧ (optimalIsolation a t).atSource = false then 1 else 0) ?_ ?_ ?_
    · refine (breaks.accepts_after_loop_le iterated (by split; exacts [one_le_kstar,le_rfl]) bounds start_old).trans ?_
      by_cases head : t.target = a.start ∧ (optimalIsolation a t).atTarget = false
      · rw [if_pos head,if_pos ⟨head.1.symm,head.2⟩,mul_assoc,head.1]
        refine mul_le_mul' le_rfl (mul_le_mul' (sup_le le_rfl ?_) le_rfl)
        split
        · rename_i here
          exact Regex.one_le_iff.mpr (nil head.1 head.2 here.1 here.2)
        · exact zero_le
      · rw [if_neg head,if_neg fun here => head ⟨here.1.symm,here.2⟩,one_mul]
    · split
      · rename_i here
        exact Graph.one_le_accepts ((final _).mpr here.1)
      · exact zero_le
    · intro atSource w member
      rcases breaks.accepts_source_cases atSource member with ⟨rfl,isFinal⟩ | product
      · rw [if_pos ⟨(final _).mp isFinal,atSource⟩]
        exact .inr rfl
      · exact .inl product
    · split
      · rw [one_mul,kstar_mul_kstar]
      · rw [zero_mul,mul_zero]
  · have bound := breaks.mul_le_accepts_after iterated
      (if t.source = q ∧ (optimalIsolation a t).atSource = false then body.language∗ else 1)
      (fun x isFinal => ?_) a.start
    · split
      · rename_i head
        rw [mul_assoc]
        refine kstar_mul_le bound ?_
        rw [← head.1]
        exact turnTarget head.2
      · rw [one_mul]
        exact bound
    · have ends := Graph.one_le_accepts ((breaks.isFinal_iff x).mpr isFinal)
      split
      · rename_i here
        rw [(final x).mp isFinal,← here.1] at ends ⊢
        have again := kstar_mul_le ends (turnSource here.2)
        rwa [mul_one] at again
      · exact ends

/-- What a breakdown does to the language: the body of an iteration can be read any number of times before all words
    when its loop is open at the start state, and after all words when it is open at the final state. -/
theorem language_eq {q : Nat} (final : ∀ x, a.graph.IsFinal x ↔ x = q)
    (nil : t.target = a.start → t.source = q → [] ∈ a.language) :
    a'.language = ((leak .target a t a.start).map (·.language∗)).prod * a.language *
      ((leak .source a t q).map (·.language∗)).prod := by
  have start_old := breaks.start_old
  have sealed (none : t.label.iterated? = none) (same : a'.graph.accepts a.start = a.graph.accepts a.start) :
      a'.language = ((leak .target a t a.start).map (·.language∗)).prod * a.language *
        ((leak .source a t q).map (·.language∗)).prod := by
    have dry (e : End) (p : Nat) : leak e a t p = [] := by
      unfold leak
      rw [none]
      split <;> rfl
    rw [dry,dry]
    show a'.graph.accepts a'.start = 1 * a.graph.accepts a.start * 1
    rw [breaks.start_eq,same,one_mul,mul_one]
  have iteration {body : Regex} (iterated : t.label.iterated? = some body) :
      a'.language = ((leak .target a t a.start).map (·.language∗)).prod * a.language *
        ((leak .source a t q).map (·.language∗)).prod := by
    rw [leak_of_iterated iterated,leak_of_iterated iterated]
    exact breaks.language_iteration iterated final fun target _ source _ => nil target source
  rcases breaks.label_cases with ⟨rs,label,_⟩ | ⟨rs,label,_⟩ | ⟨r,label,_⟩ | ⟨r,label,_⟩ | ⟨r,label,_⟩
  · exact sealed (by rw [label]; rfl) (breaks.accepts_choice label start_old)
  · exact sealed (by rw [label]; rfl) (breaks.accepts_seq label start_old)
  · exact sealed (by rw [label]; rfl) (breaks.accepts_option label start_old)
  · exact iteration (by rw [label]; rfl)
  · exact iteration (by rw [label]; rfl)

end Breaks
end StepwiseAutomata.Breakdown
