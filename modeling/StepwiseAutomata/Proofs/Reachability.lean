import StepwiseAutomata.Automaton.Reachability
import StepwiseAutomata.Proofs.Consistency

namespace StepwiseAutomata
open Relation

/-- A path along the listed arcs. -/
def Leads (arcs : List (Nat × Nat)) : Nat → Nat → Prop := ReflTransGen fun p q => (p,q) ∈ arcs

/-- The states that a search still has to look at, and those it has seen. -/
structure Search where
  pending : List Nat
  seen : StateSet

namespace Search

/-- A turn takes one of the pending states. If it has been seen, it is dropped; else what the arcs lead to from it
    becomes pending, but states that have been seen may be left out. -/
inductive Turn (arcs : List (Nat × Nat)) : Search → Search → Prop
  | drop (before after : List Nat) {s : Nat} {seen : StateSet} (old : s ∈ seen) :
      Turn arcs ⟨before ++ s :: after,seen⟩ ⟨before ++ after,seen⟩
  | visit (before after next : List Nat) {s : Nat} {seen : StateSet} (new : s ∉ seen)
      (led : ∀ q ∈ next, (s,q) ∈ arcs) (followed : ∀ q, (s,q) ∈ arcs → q ∈ seen.insert s ∨ q ∈ next) :
      Turn arcs ⟨before ++ s :: after,seen⟩ ⟨next ++ (before ++ after),seen.insert s⟩

/-- The search has come across the state. -/
def Met (x : Search) (s : Nat) : Prop := s ∈ x.seen ∨ s ∈ x.pending

/-- What holds on the way: paths lead to all that was met, and what the arcs lead to from a seen state was met. -/
structure Sound (arcs : List (Nat × Nat)) (starts : List Nat) (x : Search) : Prop where
  led : ∀ s, x.Met s → ∃ r ∈ starts, Leads arcs r s
  starts : ∀ s ∈ starts, x.Met s
  arcs : ∀ s ∈ x.seen, ∀ q, (s,q) ∈ arcs → x.Met q

/-- The search has come to an end. -/
def Ends (arcs : List (Nat × Nat)) (starts : List Nat) (x : Search) : Prop :=
  ReflTransGen (Turn arcs) ⟨starts,∅⟩ x ∧ ∀ next, ¬Turn arcs x next

variable {arcs : List (Nat × Nat)} {starts : List Nat} {x y : Search}

theorem sound_start : Sound arcs starts ⟨starts,∅⟩ where
  led := fun s met => ⟨s,met.resolve_left StateSet.mem_empty,.refl⟩
  starts := fun _ member => .inr member
  arcs := fun _ member => absurd member StateSet.mem_empty

/-- What the arcs lead to from a state. -/
private def targets (arcs : List (Nat × Nat)) (s : Nat) : List Nat := (arcs.filter (·.1 == s)).map Prod.snd

private theorem mem_targets {s q : Nat} : q ∈ targets arcs s ↔ (s,q) ∈ arcs := by
  simp only [targets,List.mem_map,List.mem_filter,beq_iff_eq]
  exact ⟨fun ⟨⟨_,_⟩,⟨arc,rfl⟩,rfl⟩ => arc,fun arc => ⟨(s,q),⟨arc,rfl⟩,rfl⟩⟩

private theorem mem_pending {before after : List Nat} {s q : Nat} :
    q ∈ before ++ s :: after ↔ q = s ∨ q ∈ before ++ after :=
  List.perm_middle.mem_iff.trans List.mem_cons

/-- What was met stays met. -/
theorem Turn.met (turn : Turn arcs x y) {s : Nat} (met : x.Met s) : y.Met s := by
  cases turn with
  | drop before after old =>
    rcases met with here | here
    · exact .inl here
    · rcases mem_pending.mp here with rfl | rest
      · exact .inl old
      · exact .inr rest
  | visit before after next new led followed =>
    rcases met with here | here
    · exact .inl (StateSet.mem_insert.mpr (.inr here))
    · rcases mem_pending.mp here with rfl | rest
      · exact .inl (StateSet.mem_insert.mpr (.inl rfl))
      · exact .inr (List.mem_append_right _ rest)

theorem Turn.sound (turn : Turn arcs x y) (sound : Sound arcs starts x) : Sound arcs starts y := by
  refine ⟨?_,fun s member => turn.met (sound.starts s member),?_⟩
  · intro s met
    cases turn with
    | drop before after old => exact sound.led s (met.imp_right fun rest => mem_pending.mpr (.inr rest))
    | @visit before after next d _ new led followed =>
      have taken := sound.led d (.inr (mem_pending.mpr (.inl rfl)))
      rcases met with here | here
      · rcases StateSet.mem_insert.mp here with rfl | here
        · exact taken
        · exact sound.led s (.inl here)
      · rcases List.mem_append.mp here with further | rest
        · obtain ⟨r,member,path⟩ := taken
          exact ⟨r,member,path.tail (led s further)⟩
        · exact sound.led s (.inr (mem_pending.mpr (.inr rest)))
  · intro s here q arc
    have stays (met : x.Met q) := turn.met met
    cases turn with
    | drop before after old => exact stays (sound.arcs s here q arc)
    | visit before after next new led followed =>
      rcases StateSet.mem_insert.mp here with rfl | before
      · exact (followed q arc).imp_right (List.mem_append_left _)
      · exact stays (sound.arcs s before q arc)

theorem sound_of_turns (turns : ReflTransGen (Turn arcs) ⟨starts,∅⟩ x) : Sound arcs starts x := by
  induction turns with
  | refl => exact sound_start
  | tail _ turn ih => exact turn.sound ih

/-- With nothing pending, all paths stay within what was seen. -/
theorem Sound.mem_seen (sound : Sound arcs starts x) (done : x.pending = []) {s : Nat} :
    s ∈ x.seen ↔ ∃ r ∈ starts, Leads arcs r s := by
  have seen {q : Nat} (met : x.Met q) : q ∈ x.seen := met.resolve_right (done ▸ List.not_mem_nil)
  refine ⟨fun member => sound.led s (.inl member),?_⟩
  rintro ⟨r,member,path⟩
  induction path with
  | refl => exact seen (sound.starts r member)
  | tail _ arc ih => exact seen (sound.arcs _ ih _ arc)

theorem Turn.pending_ne_nil (turn : Turn arcs x y) : x.pending ≠ [] := by
  cases turn <;> exact List.append_ne_nil_of_right_ne_nil _ (List.cons_ne_nil _ _)

/-- A search goes on as long as anything is pending. -/
theorem exists_turn (more : x.pending ≠ []) : ∃ y, Turn arcs x y := by
  obtain ⟨pending,seen⟩ := x
  obtain ⟨s,rest,rfl⟩ := List.exists_cons_of_ne_nil more
  by_cases old : s ∈ seen
  · exact ⟨_,.drop [] rest old⟩
  · exact ⟨_,.visit [] rest (targets arcs s) old (fun q member => mem_targets.mp member)
      fun q arc => .inr (mem_targets.mpr arc)⟩

/-- The arcs that no turn has followed yet. -/
private def unused (arcs : List (Nat × Nat)) (seen : StateSet) : List (Nat × Nat) :=
  arcs.filter fun arc => !seen.contains arc.1

private theorem mem_unused {seen : StateSet} {arc : Nat × Nat} : arc ∈ unused arcs seen ↔ arc ∈ arcs ∧ arc.1 ∉ seen := by
  rw [unused,List.mem_filter,Bool.not_eq_true',← Bool.not_eq_true,StateSet.contains_iff]

private theorem unused_insert (seen : StateSet) (s : Nat) :
    unused arcs (seen.insert s) = (unused arcs seen).filter fun arc => !(arc.1 == s) := by
  rw [unused,unused,List.filter_filter]
  refine List.filter_congr fun arc _ => ?_
  rw [Bool.eq_iff_iff]
  simp [← Bool.not_eq_true]

/-- No search goes on forever: a turn uses up arcs, or it takes a pending state and makes none pending. -/
theorem wellFounded_turn (arcs : List (Nat × Nat)) : WellFounded fun after before => Turn arcs before after := by
  let left (x : Search) : Nat × Nat := ((unused arcs x.seen).length,x.pending.length)
  refine Subrelation.wf (fun {y x} turn => ?_) (InvImage.wf left (Nat.lt_wfRel.wf.prod_lex Nat.lt_wfRel.wf))
  have shorter (before after : List Nat) (s : Nat) : (before ++ after).length < (before ++ s :: after).length := by simp
  cases turn with
  | drop before after old => exact .right _ (shorter before after _)
  | @visit before after next s seen new led followed =>
    show Prod.Lex _ _ ((unused arcs (seen.insert s)).length,_) _
    rw [unused_insert]
    rcases next with _ | ⟨q,next⟩
    · exact Prod.Lex.right' _ (List.length_filter_le _ _) (shorter before after s)
    · have unfollowed : (s,q) ∈ unused arcs seen := mem_unused.mpr ⟨led q List.mem_cons_self,new⟩
      exact .left _ _ (List.length_filter_lt_length_iff_exists.mpr ⟨(s,q),unfollowed,by simp⟩)

/-- The search with a bound on its steps is not cut off: each step leaves an arc or a pending state less. -/
theorem turns_explore {steps : Nat} (pending : List Nat) (seen : StateSet)
    (enough : (unused arcs seen).length + pending.length ≤ steps) :
    ReflTransGen (Turn arcs) ⟨pending,seen⟩ ⟨[],explore steps (unused arcs seen) pending seen⟩ := by
  induction steps generalizing pending seen with
  | zero =>
    obtain rfl : pending = [] := List.eq_nil_of_length_eq_zero (by omega)
    exact .refl
  | succ steps ih =>
    cases pending with
    | nil => exact .refl
    | cons s pending =>
      rw [List.length_cons] at enough
      rw [explore]
      split
      · rename_i old
        exact .head (.drop [] pending old) (ih pending seen (by omega))
      · rename_i new
        rw [List.partition_eq_filter_filter]
        show ReflTransGen (Turn arcs) _ ⟨[],explore steps ((unused arcs seen).filter fun arc => !(arc.1 == s))
          (targets (unused arcs seen) s ++ pending) (seen.insert s)⟩
        rw [← unused_insert]
        refine .head (.visit [] pending (targets (unused arcs seen) s) new (fun q member => ?_) fun q arc => ?_)
          (ih (targets (unused arcs seen) s ++ pending) (seen.insert s) ?_)
        · exact (mem_unused.mp (mem_targets.mp member)).1
        · exact .inr (mem_targets.mpr (mem_unused.mpr ⟨arc,new⟩))
        · have counts := List.length_eq_length_filter_add (l := unused arcs seen) fun arc => arc.1 == s
          rw [← unused_insert] at counts
          rw [List.length_append,targets,List.length_map]
          omega

theorem turns_reach (arcs : List (Nat × Nat)) (starts : List Nat) :
    ReflTransGen (Turn arcs) ⟨starts,∅⟩ ⟨[],reach arcs starts⟩ := by
  have all : unused arcs ∅ = arcs := List.filter_eq_self.mpr fun _ _ => rfl
  have bound : (unused arcs ∅).length + starts.length ≤ arcs.length + starts.length := by rw [all]
  have turns := turns_explore starts ∅ bound
  rwa [all] at turns

end Search

section
variable {arcs : List (Nat × Nat)} {starts : List Nat}

theorem mem_reach {s : Nat} : s ∈ reach arcs starts ↔ ∃ r ∈ starts, Leads arcs r s :=
  (Search.sound_of_turns (Search.turns_reach arcs starts)).mem_seen rfl

/-- In whatever order the pending states are taken, all searches end with the same states. -/
theorem Search.ends_iff {x : Search} : Ends arcs starts x ↔ x = ⟨[],reach arcs starts⟩ := by
  constructor
  · rintro ⟨turns,stuck⟩
    have done : x.pending = [] := by
      by_contra more
      obtain ⟨y,turn⟩ : ∃ y, Turn arcs x y := exists_turn more
      exact stuck y turn
    have same : x.seen = reach arcs starts := StateSet.ext fun s => by
      rw [(sound_of_turns turns).mem_seen done,mem_reach]
    rw [← done,← same]
  · rintro rfl
    exact ⟨turns_reach arcs starts,fun _ turn => turn.pending_ne_nil rfl⟩

end

namespace Graph

variable (g : Graph)

/-- Some transition leads from one state to the other. -/
def Steps (p q : Nat) : Prop := ∃ l, g.HasArc ⟨p,q,l⟩

def Reaches : Nat → Nat → Prop := ReflTransGen g.Steps

/-- A path along `ε` transitions. -/
def Slides : Nat → Nat → Prop := ReflTransGen fun p q => g.HasArc ⟨p,q,.epsilon⟩

variable {g}

theorem Closed.target_of_hasArc (closed : g.Closed) {p q : Nat} {l : Regex} (arc : g.HasArc ⟨p,q,l⟩) :
    g.HasState q := by
  obtain ⟨t,has,same⟩ := arc
  have target := closed.target_present t has
  rwa [same] at target

theorem Closed.present_of_reaches (closed : g.Closed) {s : Nat} (reached : g.Reaches g.start s) : g.HasState s := by
  cases reached with
  | refl => exact closed.start_present
  | tail _ step =>
    obtain ⟨_,arc⟩ := step
    exact closed.target_of_hasArc arc

end Graph

namespace Automaton

variable {a : Automaton}

theorem isEpsilon_iff {arc : Arc} : arc.isEpsilon = true ↔ arc.label = .epsilon := by
  obtain ⟨p,q,l⟩ := arc
  cases l <;> simp [Arc.isEpsilon,Regex.isEpsilon,Regex.epsilon]

theorem Indexed.mem_reachable (indexed : a.Indexed) {x : Nat} :
    x ∈ a.reachable ↔ a.graph.Reaches a.start x := by
  have same : (fun p q => (p,q) ∈ a.transitions.map fun t => (t.source,t.target)) = a.graph.Steps := by
    funext p q
    simp only [List.mem_map,indexed.mem_transitions_iff,Graph.Steps,Graph.HasArc,Prod.mk.injEq,eq_iff_iff]
    constructor
    · rintro ⟨t,has,rfl,rfl⟩; exact ⟨t.label,t,has,rfl⟩
    · rintro ⟨l,t,has,same⟩; exact ⟨t,has,congrArg Arc.source same,congrArg Arc.target same⟩
  rw [reachable,mem_reach,Leads,same]
  simp [Graph.Reaches]

theorem Indexed.mem_unreachable (indexed : a.Indexed) {x : Nat} :
    x ∈ a.unreachable ↔ a.graph.HasState x ∧ ¬a.graph.Reaches a.start x := by
  rw [← indexed.mem_reachable,unreachable,List.mem_filter,mem_stateIds_iff,Bool.not_eq_true',← Bool.not_eq_true,
    StateSet.contains_iff]

theorem Indexed.mem_epsilonArcs (indexed : a.Indexed) {p q : Nat} :
    (p,q) ∈ a.epsilonArcs ↔ a.graph.HasArc ⟨p,q,.epsilon⟩ := by
  simp only [epsilonArcs,List.mem_map,List.mem_filter,indexed.mem_transitions_iff,isEpsilon_iff,Graph.HasArc,
    Prod.mk.injEq]
  constructor
  · rintro ⟨⟨⟨source,target,label⟩,id⟩,⟨has,rfl⟩,rfl,rfl⟩; exact ⟨_,has,rfl⟩
  · rintro ⟨t,has,same⟩
    exact ⟨t,⟨has,congrArg Arc.label same⟩,congrArg Arc.source same,congrArg Arc.target same⟩

theorem Indexed.mem_closureOf (indexed : a.Indexed) {states : StateSet} {x : Nat} :
    x ∈ a.closureOf states ↔ ∃ s ∈ states, a.graph.Slides s x := by
  have same : (fun p q => (p,q) ∈ a.epsilonArcs) = fun p q => a.graph.HasArc ⟨p,q,.epsilon⟩ := by
    funext p q
    rw [indexed.mem_epsilonArcs]
  rw [closureOf,mem_reach,Leads,same]
  rfl

theorem Indexed.mem_closure (indexed : a.Indexed) {s x : Nat} : x ∈ a.closure s ↔ a.graph.Slides s x := by
  rw [closure,indexed.mem_closureOf]
  simp

/-- Closures are equal when each state is in the closure of the other. -/
theorem Indexed.closure_eq_iff (indexed : a.Indexed) {x y : Nat} :
    a.closure x = a.closure y ↔ a.graph.Slides x y ∧ a.graph.Slides y x := by
  constructor
  · intro same
    have there : y ∈ a.closure y := indexed.mem_closure.mpr .refl
    have here : x ∈ a.closure x := indexed.mem_closure.mpr .refl
    rw [← same,indexed.mem_closure] at there
    rw [same,indexed.mem_closure] at here
    exact ⟨there,here⟩
  · rintro ⟨there,back⟩
    refine StateSet.ext fun z => ?_
    rw [indexed.mem_closure,indexed.mem_closure]
    exact ⟨back.trans,there.trans⟩

end Automaton
end StepwiseAutomata
