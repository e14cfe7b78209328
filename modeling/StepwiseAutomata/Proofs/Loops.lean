import StepwiseAutomata.Proofs.Agreement
import StepwiseAutomata.Proofs.Breakdown
import StepwiseAutomata.Proofs.GraphLanguage
import StepwiseAutomata.Proofs.Leaks
import StepwiseAutomata.Proofs.Snapshot

/-!
What an automaton accepts once new states and arcs have come in place of a transition, and what when these are the loop
of an iteration. At every level of isolation the loop can be passed on the words of the iteration. Nothing else is read
on the way as long as no run can begin or end at an end that is left open, and only the transition led from or to it.
-/
namespace StepwiseAutomata

namespace Breakdown

open scoped Computability

section
attribute [local instance] Ids.endless

variable {a a' : Automaton} {t : Transition}

/-- New states, as many as said, and arcs have come in place of the transition. -/
structure Swaps (a : Automaton) (t : Transition) (n : Nat) (arcs : List Arc) (a' : Automaton) : Prop where
  consistent : a.Consistent
  has : a.graph.Has t
  joins : Joins a t n arcs
  graph : a'.graph = a.graph.editAll ((replacement a t n arcs).edits a)

namespace Swaps

variable {n : Nat} {arcs : List Arc} (swaps : Swaps a t n arcs a')
include swaps

theorem fits : (replacement a t n arcs).Fits a := replacement_fits swaps.consistent swaps.has swaps.joins

/-- Transitions lead between states that are there. -/
theorem tip_old {v : Transition} (has : a.graph.Has v) (e : End) : v.tip e < a.counters.nextState := by
  cases e with
  | source => exact swaps.consistent.below.state _ (swaps.consistent.closed.source_present v has)
  | target => exact swaps.consistent.below.state _ (swaps.consistent.closed.target_present v has)

theorem final_old {q : Nat} (isFinal : a.graph.IsFinal q) : q < a.counters.nextState := by
  refine swaps.consistent.below.state q ?_
  rw [Graph.HasState,show a.graph.flag? q = some true from isFinal]
  rfl

theorem has_iff (v : Transition) : a'.graph.Has v ↔ v ∈ a.counters.number arcs ∨ a.graph.Has v ∧ v ≠ t := by
  rw [swaps.graph,Rewriting.has_iff swaps.consistent swaps.fits]
  show _ ∨ _ ∧ v ∉ [t] ↔ _
  rw [List.mem_singleton]
  rfl

theorem kept {v : Transition} (has : a.graph.Has v) (other : v ≠ t) : a'.graph.Has v :=
  (swaps.has_iff v).mpr (.inr ⟨has,other⟩)

theorem exists_part {arc : Arc} (member : arc ∈ arcs) : a'.graph.HasArc arc := by
  obtain ⟨v,new,same⟩ := Counters.exists_mem_number.mpr member
  exact ⟨v,(swaps.has_iff v).mpr (.inl new),same⟩

theorem hasArc_iff (arc : Arc) :
    a'.graph.HasArc arc ↔ arc ∈ arcs ∨ ∃ v, (a.graph.Has v ∧ v ≠ t) ∧ v.toArc = arc := by
  constructor
  · rintro ⟨v,has,rfl⟩
    rcases (swaps.has_iff v).mp has with new | old
    · exact .inl (Counters.toArc_mem_of_mem_number new)
    · exact .inr ⟨v,old,rfl⟩
  · rintro (member | ⟨v,⟨has,other⟩,rfl⟩)
    · exact swaps.exists_part member
    · exact ⟨v,swaps.kept has other,rfl⟩

theorem start_eq : a'.start = a.start := by
  show a'.graph.start = _
  rw [swaps.graph,Graph.start_editAll]
  rfl

theorem isFinal_iff (q : Nat) : a'.graph.IsFinal q ↔ a.graph.IsFinal q := by
  rw [swaps.graph,Rewriting.isFinal_iff swaps.consistent swaps.fits]
  simp [replacement]

/-- An arc that is added unless it is present is there afterwards, when it is not what is replaced. -/
theorem hasArc_unlessPresent {arc : Arc} (other : t.toArc ≠ arc) (sub : a.unlessPresent arc ⊆ arcs) :
    a'.graph.HasArc arc := by
  by_cases present : a.hasArc arc = true
  · obtain ⟨v,has,same⟩ := swaps.consistent.hasArc_iff.mp present
    exact ⟨v,swaps.kept has fun here => other (here ▸ same),same⟩
  · exact swaps.exists_part (sub (mem_unlessPresent.mpr ⟨rfl,Bool.not_eq_true _ |>.mp present⟩))

/-- What solves the inequalities of the other transitions and of the new arcs is not less than what is accepted
    afterwards. -/
theorem accepts_after_le {Z : Nat → Language Char} (final : ∀ q, a.graph.IsFinal q → 1 ≤ Z q)
    (old : ∀ v, a.graph.Has v → v ≠ t → v.label.language * Z v.target ≤ Z v.source)
    (new : ∀ arc ∈ arcs, arc.label.language * Z arc.target ≤ Z arc.source) (p : Nat) : a'.graph.accepts p ≤ Z p := by
  refine Graph.accepts_le (fun q isFinal => final q ((swaps.isFinal_iff q).mp isFinal)) (fun p q l arc => ?_) p
  rcases (swaps.hasArc_iff _).mp arc with member | ⟨v,⟨has,other⟩,same⟩
  · exact new _ member
  · have step := old v has other
    rw [same] at step
    exact step

/-- What solves the inequalities afterwards, and that of the transition, is not less than what was accepted. -/
theorem accepts_le {Z : Nat → Language Char} (final : ∀ q, a.graph.IsFinal q → 1 ≤ Z q)
    (arcs : ∀ p q l, a'.graph.HasArc ⟨p,q,l⟩ → l.language * Z q ≤ Z p)
    (whole : t.label.language * Z t.target ≤ Z t.source) (p : Nat) : a.graph.accepts p ≤ Z p := by
  refine Graph.accepts_le final (fun p q l arc => ?_) p
  obtain ⟨v,has,same⟩ := arc
  by_cases here : v = t
  · subst here
    rw [same] at whole
    exact whole
  · exact arcs p q l ⟨v,swaps.kept has here,same⟩

/-- Nothing is lost when the way from the source to the target is still open for the words of the transition. -/
theorem le_accepts_after (whole : t.label.language * a'.graph.accepts t.target ≤ a'.graph.accepts t.source) (p : Nat) :
    a.graph.accepts p ≤ a'.graph.accepts p :=
  swaps.accepts_le (fun q isFinal => Graph.one_le_accepts ((swaps.isFinal_iff q).mpr isFinal))
    (fun _ _ _ arc => Graph.mul_accepts_le arc) whole p

end Swaps

/-- An iteration reads its body at least as often as said by the quantifier. -/
theorem language_iterated {r body : Regex} (iterated : r.iterated? = some body) :
    body.language * body.language∗ ≤ r.language ∧ r.language ≤ body.language∗ ∧
      (r = .quant .star body → r.language = body.language∗) := by
  have star : (Regex.quant .star body).language = body.language∗ := Regex.language_quant .star body
  have plus : (Regex.quant .plus body).language = body.language * body.language∗ := Regex.language_quant .plus body
  rcases Regex.eq_of_iterated? iterated with rfl | rfl
  · exact ⟨star ▸ mul_kstar_le_kstar,le_of_eq star,fun _ => star⟩
  · exact ⟨le_of_eq plus.symm,plus ▸ mul_kstar_le_kstar,nofun⟩

/-- No round at all is among any number of rounds. -/
theorem le_rounds {l m : Language Char} : m ≤ l∗ * m := by
  calc m = 1 * m := (one_mul m).symm
    _ ≤ l∗ * m := mul_le_mul' one_le_kstar le_rfl

/-- One round more is among any number of rounds. -/
theorem round_le {l m : Language Char} : l * (l∗ * m) ≤ l∗ * m := by
  rw [← mul_assoc]
  exact mul_le_mul' mul_kstar_le_kstar le_rfl

/-- A loop that is entered from the source and left for the target reads the iteration of its body. -/
theorem loop_mul_accepts_le {g : Graph} {source target first last : Nat} {body : Regex}
    (enter : g.accepts first ≤ g.accepts source) (leave : g.accepts target ≤ g.accepts last)
    (forth : g.HasArc ⟨first,last,body⟩) (back : g.HasArc ⟨last,first,.epsilon⟩) :
    body.language * body.language∗ * g.accepts target ≤ g.accepts source := by
  have once := Graph.mul_accepts_le forth
  have again : body.language∗ * g.accepts target ≤ g.accepts last :=
    kstar_mul_le leave (once.trans (Graph.accepts_le_of_epsilon back))
  rw [mul_assoc]
  exact ((mul_le_mul' le_rfl again).trans once).trans enter

/-- The states that a loop stands between: new ones where it is isolated. -/
structure Gates (a : Automaton) (t : Transition) (level : Isolation) (first last : Nat) : Prop where
  entry : if level.atSource then a.counters.nextState ≤ first else first = t.source
  exit : if level.atTarget then a.counters.nextState ≤ last else last = t.target
  apart : first ≠ last

theorem Gates.first_cases {level : Isolation} {first last : Nat} (gates : Gates a t level first last) :
    level.atSource = true ∧ a.counters.nextState ≤ first ∨ level.atSource = false ∧ first = t.source := by
  have entry := gates.entry
  cases isolated : level.atSource with
  | true => exact .inl ⟨rfl,by rwa [if_pos isolated] at entry⟩
  | false => exact .inr ⟨rfl,by rwa [if_neg (isolated ▸ Bool.false_ne_true)] at entry⟩

theorem Gates.last_cases {level : Isolation} {first last : Nat} (gates : Gates a t level first last) :
    level.atTarget = true ∧ a.counters.nextState ≤ last ∨ level.atTarget = false ∧ last = t.target := by
  have exit := gates.exit
  cases isolated : level.atTarget with
  | true => exact .inl ⟨rfl,by rwa [if_pos isolated] at exit⟩
  | false => exact .inr ⟨rfl,by rwa [if_neg (isolated ▸ Bool.false_ne_true)] at exit⟩

/-- A loop is between the ends themselves, or isolated at one of them at least. -/
theorem loop_cases (level : Isolation) (isStar : Bool) (body : Regex) (old : t.source < a.counters.nextState)
    (old' : t.target < a.counters.nextState) :
    (level.atSource = false ∧ level.atTarget = false ∧ (loop a t level isStar body).2 = directLoop a t isStar body) ∨
      ∃ first last, Gates a t level first last ∧ (level.atSource = true ∨ level.atTarget = true) ∧
        (loop a t level isStar body).2 = isolatedLoop a t level first last isStar body := by
  obtain ⟨atSource,atTarget⟩ := level
  cases atSource with
  | false =>
    cases atTarget with
    | false => exact .inl ⟨rfl,rfl,rfl⟩
    | true =>
      refine .inr ⟨t.source,a.counters.nextState,⟨rfl,Nat.le_refl _,Nat.ne_of_lt old⟩,.inr rfl,rfl⟩
  | true =>
    cases atTarget with
    | false =>
      refine .inr ⟨a.counters.nextState,t.target,⟨Nat.le_refl _,rfl,(Nat.ne_of_lt old').symm⟩,.inl rfl,rfl⟩
    | true =>
      refine .inr ⟨a.counters.nextState,a.counters.nextState + 1,⟨Nat.le_refl _,?_,by omega⟩,.inl rfl,rfl⟩
      show _ ≤ _ + 1
      omega

/-- At a side that is left open no other transition leaves the source or enters the target, and no run ends at the
    source. -/
structure Apart (a : Automaton) (t : Transition) (level : Isolation) : Prop where
  leaves : level.atSource = false → ∀ v, a.graph.Has v → v.source = t.source → v = t
  ends : level.atSource = false → ¬a.graph.IsFinal t.source
  enters : level.atTarget = false → ∀ v, a.graph.Has v → v.target = t.target → v = t

/-- What is enough for the states around a loop: the body any number of times and then what the target accepted, where
    the loop ends; that after the body, at a new state where it begins; and elsewhere what was accepted. -/
def looping (a : Automaton) (t : Transition) (level : Isolation) (body : Regex) (first x : Nat) : Language Char :=
  if x < a.counters.nextState then
    if x = t.target ∧ level.atTarget = false then body.language∗ * a.graph.accepts t.target else a.graph.accepts x
  else if level.atSource = true ∧ x = first then body.language * (body.language∗ * a.graph.accepts t.target)
  else body.language∗ * a.graph.accepts t.target

section
variable {level : Isolation} {body : Regex} {first last x : Nat}

/-- Where nothing is left open, it is what was accepted. -/
theorem looping_eq (old : x < a.counters.nextState) (closed : level.atTarget = true ∨ x ≠ t.target) :
    looping a t level body first x = a.graph.accepts x := by
  rw [looping,if_pos old,if_neg]
  rintro ⟨here,side⟩
  rcases closed with closed | other
  · exact Bool.false_ne_true (side.symm.trans closed)
  · exact other here

theorem le_looping (old : x < a.counters.nextState) : a.graph.accepts x ≤ looping a t level body first x := by
  rw [looping,if_pos old]
  split
  · rename_i here
    rw [here.1]
    exact le_rounds
  · exact le_rfl

theorem looping_target_le (old : t.target < a.counters.nextState) :
    looping a t level body first t.target ≤ body.language∗ * a.graph.accepts t.target := by
  rw [looping,if_pos old]
  split
  · exact le_rfl
  · exact le_rounds

theorem looping_last (old : t.target < a.counters.nextState) (gates : Gates a t level first last) :
    looping a t level body first last = body.language∗ * a.graph.accepts t.target := by
  rcases gates.last_cases with ⟨_,new⟩ | ⟨side,rfl⟩
  · rw [looping,if_neg (Nat.not_lt_of_le new),if_neg fun here => gates.apart here.2.symm]
  · rw [looping,if_pos old,if_pos ⟨rfl,side⟩]

end

namespace Swaps

variable {level : Isolation} {isStar : Bool} {body : Regex} {n : Nat}
  (swaps : Swaps a t n (loop a t level isStar body).2 a')
  (label : t.label = .quant (if isStar then .star else .plus) body)
include label

omit swaps in
theorem iterated_of_label : t.label.iterated? = some body := by
  rw [label]
  cases isStar <;> rfl

omit swaps in
/-- The transition is none on `ε`. -/
theorem toArc_ne_epsilon (p q : Nat) : t.toArc ≠ ⟨p,q,.epsilon⟩ := by
  intro same
  rw [same] at label
  cases isStar <;> cases label

include swaps

/-- The loop can be passed on the words of the iteration. -/
theorem loop_mul_le : t.label.language * a'.graph.accepts t.target ≤ a'.graph.accepts t.source := by
  obtain ⟨_,_,star⟩ := language_iterated (iterated_of_label label)
  have old := swaps.tip_old swaps.has
  rcases loop_cases level isStar body (old .source) (old .target) with ⟨_,_,same⟩ | ⟨first,last,gates,_,same⟩
  · have listed {arc : Arc} (member : arc ∈ directLoop a t isStar body) : a'.graph.HasArc arc :=
      swaps.exists_part (same ▸ member)
    cases isStar with
    | true =>
      have passed : a'.graph.HasArc ⟨t.source,t.target,.epsilon⟩ :=
        swaps.hasArc_unlessPresent (toArc_ne_epsilon label _ _) fun arc member => by
          rw [same]
          exact List.mem_append_left _ member
      have back := Graph.mul_accepts_le (listed (mem_directLoop.mpr (.inr rfl)))
      rw [star label]
      exact kstar_mul_le (Graph.accepts_le_of_epsilon passed) (back.trans (Graph.accepts_le_of_epsilon passed))
    | false =>
      have back : a'.graph.HasArc ⟨t.target,t.source,.epsilon⟩ :=
        swaps.hasArc_unlessPresent (toArc_ne_epsilon label _ _) fun arc member => by
          rw [same]
          exact List.mem_append_left _ member
      have forth := listed (mem_directLoop.mpr (.inr rfl))
      rw [label,Regex.language_quant]
      exact loop_mul_accepts_le le_rfl le_rfl forth back
  · have listed {arc : Arc} (member : arc ∈ isolatedLoop a t level first last isStar body) : a'.graph.HasArc arc :=
      swaps.exists_part (same ▸ member)
    have enter : a'.graph.accepts first ≤ a'.graph.accepts t.source := by
      rcases gates.first_cases with ⟨side,_⟩ | ⟨_,rfl⟩
      · exact Graph.accepts_le_of_epsilon (listed (mem_isolatedLoop.mpr (.inl ⟨side,rfl⟩)))
      · exact le_rfl
    have leave : a'.graph.accepts t.target ≤ a'.graph.accepts last := by
      rcases gates.last_cases with ⟨side,_⟩ | ⟨_,rfl⟩
      · exact Graph.accepts_le_of_epsilon (listed (mem_isolatedLoop.mpr (.inr (.inl ⟨side,rfl⟩))))
      · exact le_rfl
    have back := listed (mem_isolatedLoop.mpr (.inr (.inr (.inr (.inl rfl)))))
    have forth := listed (mem_isolatedLoop.mpr (.inr (.inr (.inr (.inr rfl)))))
    have some := loop_mul_accepts_le enter leave forth back
    cases isStar with
    | true =>
      have passed : a'.graph.HasArc ⟨t.source,t.target,.epsilon⟩ :=
        swaps.hasArc_unlessPresent (toArc_ne_epsilon label _ _) fun arc member => by
          obtain ⟨rfl,absent⟩ := mem_unlessPresent.mp member
          rw [same]
          exact mem_isolatedLoop.mpr (.inr (.inr (.inl ⟨rfl,rfl,absent⟩)))
      rw [star label,← one_add_mul_kstar,add_mul,one_mul]
      exact sup_le (Graph.accepts_le_of_epsilon passed) some
    | false =>
      rw [label,Regex.language_quant]
      exact some

variable (apart : Apart a t level)
include apart

/-- What an open source accepted went on through the transition. -/
theorem accepts_source_le (side : level.atSource = false) :
    a.graph.accepts t.source ≤ body.language∗ * a.graph.accepts t.target := by
  obtain ⟨_,most,_⟩ := language_iterated (iterated_of_label label)
  intro w member
  rcases Graph.accepts_cases member with ⟨_,final⟩ | ⟨q,l,⟨v,has,same⟩,product⟩
  · exact absurd final (apart.ends side)
  · obtain rfl := apart.leaves side v has (by rw [same])
    have label : l = v.label := by rw [same]
    have target : q = v.target := by rw [same]
    subst label target
    exact mul_le_mul' most le_rfl product

/-- The first state of the loop is between one round and the last state, and no more than the source. -/
theorem looping_first {first last : Nat} (gates : Gates a t level first last) :
    body.language * (body.language∗ * a.graph.accepts t.target) ≤ looping a t level body first first ∧
      looping a t level body first first ≤ body.language∗ * a.graph.accepts t.target ∧
      looping a t level body first first ≤ looping a t level body first t.source := by
  obtain ⟨fewest,_,_⟩ := language_iterated (iterated_of_label label)
  have old := swaps.tip_old swaps.has
  have begins : body.language * (body.language∗ * a.graph.accepts t.target) ≤ a.graph.accepts t.source := by
    rw [← mul_assoc]
    exact (mul_le_mul' fewest le_rfl).trans (Graph.mul_accepts_le ⟨t,swaps.has,rfl⟩)
  rcases gates.first_cases with ⟨side,new⟩ | ⟨side,rfl⟩
  · have value : looping a t level body first first = body.language * (body.language∗ * a.graph.accepts t.target) := by
      rw [looping,if_neg (Nat.not_lt_of_le new),if_pos ⟨side,rfl⟩]
    rw [value]
    exact ⟨le_rfl,round_le,begins.trans (le_looping (old .source))⟩
  · refine ⟨begins.trans (le_looping (old .source)),?_,le_rfl⟩
    rw [looping,if_pos (show t.source < _ from old .source)]
    split
    · exact le_rfl
    · exact swaps.accepts_source_le label apart side

/-- Each arc of the loop leads on to no more than is enough. -/
theorem loop_le_looping : ∃ first, ∀ arc ∈ (loop a t level isStar body).2,
    arc.label.language * looping a t level body first arc.target ≤ looping a t level body first arc.source := by
  obtain ⟨fewest,most,star⟩ := language_iterated (iterated_of_label label)
  have old := swaps.tip_old swaps.has
  have step : t.label.language * a.graph.accepts t.target ≤ a.graph.accepts t.source :=
    Graph.mul_accepts_le ⟨t,swaps.has,rfl⟩
  have passes (first : Nat) (isStar : t.label = .quant .star body) :
      looping a t level body first t.target ≤ looping a t level body first t.source := by
    rw [star isStar] at step
    exact ((looping_target_le (old .target)).trans step).trans (le_looping (old .source))
  rcases loop_cases level isStar body (old .source) (old .target) with
    ⟨atSource,atTarget,same⟩ | ⟨first,last,gates,_,same⟩
  · have target : looping a t level body t.source t.target = body.language∗ * a.graph.accepts t.target := by
      rw [looping,if_pos (show t.target < _ from old .target),if_pos ⟨rfl,atTarget⟩]
    have source : looping a t level body t.source t.source ≤ body.language∗ * a.graph.accepts t.target := by
      rw [looping,if_pos (show t.source < _ from old .source)]
      split
      · exact le_rfl
      · exact swaps.accepts_source_le label apart atSource
    refine ⟨t.source,fun arc member => ?_⟩
    rw [same,mem_directLoop] at member
    cases isStar with
    | true =>
      rcases member with ⟨rfl,_⟩ | rfl
      · rw [Regex.language_epsilon,one_mul]
        exact passes _ label
      · rw [target]
        exact (mul_le_mul' le_rfl source).trans round_le
    | false =>
      rcases member with ⟨rfl,_⟩ | rfl
      · rw [Regex.language_epsilon,one_mul,target]
        exact source
      · rw [target]
        refine le_trans ?_ (le_looping (old .source))
        rw [← mul_assoc]
        exact (mul_le_mul' fewest le_rfl).trans step
  · obtain ⟨begins,first_last,first_source⟩ := swaps.looping_first label apart gates
    have atLast : looping a t level body first last = body.language∗ * a.graph.accepts t.target :=
      looping_last (old .target) gates
    refine ⟨first,fun arc member => ?_⟩
    rw [same,mem_isolatedLoop] at member
    rcases member with ⟨_,rfl⟩ | ⟨_,rfl⟩ | ⟨starred,rfl,_⟩ | rfl | rfl
    · rw [Regex.language_epsilon,one_mul]
      exact first_source
    · rw [Regex.language_epsilon,one_mul,atLast]
      exact looping_target_le (old .target)
    · rw [Regex.language_epsilon,one_mul]
      exact passes first (by rw [label,if_pos starred])
    · rw [Regex.language_epsilon,one_mul,atLast]
      exact first_last
    · rw [atLast]
      exact begins

/-- Whatever the level, the states that were there accept what they accepted, but for a target that is left open. -/
theorem accepts_loop {p : Nat} (old : p < a.counters.nextState) (closed : level.atTarget = true ∨ p ≠ t.target) :
    a'.graph.accepts p = a.graph.accepts p := by
  obtain ⟨first,new⟩ := swaps.loop_le_looping label apart
  refine le_antisymm ?_ (swaps.le_accepts_after (swaps.loop_mul_le label) p)
  have before : looping a t level body first p = a.graph.accepts p := looping_eq old closed
  rw [← before]
  refine swaps.accepts_after_le (fun q isFinal => ?_) (fun v has other => ?_) new p
  · exact (Graph.one_le_accepts isFinal).trans (le_looping (swaps.final_old isFinal))
  · have target : looping a t level body first v.target = a.graph.accepts v.target := by
      refine looping_eq (swaps.tip_old has .target) ?_
      cases side : level.atTarget with
      | true => exact .inl rfl
      | false => exact .inr fun same => other (apart.enters side v has same)
    rw [target]
    exact (Graph.mul_accepts_le ⟨v,has,rfl⟩).trans (le_looping (swaps.tip_old has .source))

end Swaps

end

end Breakdown

namespace Session

variable {s u : Session} {t : Transition}

end Session
end StepwiseAutomata
