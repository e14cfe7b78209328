import StepwiseAutomata.Proofs.FragmentLanguage

/-!
How the two ends of a broken-down expression leak. For the start state and for the final state there is a list of the
bodies that are still going to leak there, and each breakdown takes from the list what it leaks.
-/
namespace StepwiseAutomata

attribute [local instance] Ids.endless

open Breakdown

variable {a a' : Automaton} {t : Transition} {e : End} {p : Nat}

/-- Whatever is broken down at this end is isolated there: there are two transitions, or one that stays. -/
def Automaton.Safe (a : Automaton) (e : End) (p : Nat) : Prop :=
  2 ≤ a.degree e p ∨ ∃ v, a.graph.Has v ∧ v.tip e = p ∧ v.label.isCompound = false

theorem Automaton.safe_of_hasArc {arc : Arc} (has : a.graph.HasArc arc) (plain : arc.label.isCompound = false)
    (tip : arc.tip e = p) : a.Safe e p := by
  obtain ⟨v,has,rfl⟩ := has
  exact .inr ⟨v,has,tip,plain⟩

namespace Breakdown.Breaks

variable (breaks : Breaks a t a')
include breaks

theorem side_of_safe (safe : a.Safe e (t.tip e)) : (optimalIsolation a t).side e = true := by
  refine (breaks.consistent.side_optimal breaks.has).mpr ?_
  rcases safe with many | ⟨v,has,tip,plain⟩
  · exact many
  · refine breaks.consistent.two_le_degree has breaks.has tip rfl ?_
    rintro rfl
    rw [breaks.compound] at plain
    cases plain

theorem side_of_degree (one : a.degree e (t.tip e) = 1) : (optimalIsolation a t).side e = false := by
  refine Bool.not_eq_true _ |>.mp fun side => ?_
  have := (breaks.consistent.side_optimal breaks.has).mp side
  omega

theorem safe_after (safe : a.Safe e p) : a'.Safe e p := by
  rcases safe with many | ⟨v,has,tip,plain⟩
  · exact .inl (Nat.le_trans many (breaks.degree_le e p))
  · exact .inr ⟨v,breaks.kept_plain has plain,tip,plain⟩

/-- A choice leaves several transitions at its ends. -/
theorem safe_of_choice {rs : List Regex} (label : t.label = .choice rs) (many : 2 ≤ rs.length) (e : End) :
    a'.Safe e (t.tip e) := by
  have counted := breaks.degree_choice label e
  have positive := breaks.consistent.degree_pos breaks.has (e := e) rfl
  exact .inl (by omega)

/-- The way past an option or a `*` stays at its ends. -/
theorem safe_of_passing {q : Quantifier} {r : Regex} (label : t.label = .quant q r) (other : q ≠ .plus) (e : End) :
    a'.Safe e (t.tip e) := by
  refine Automaton.safe_of_hasArc (breaks.hasArc_epsilon label other) rfl ?_
  cases e <;> rfl

end Breakdown.Breaks

/-- A state with its transitions at one end, and the bodies that are going to leak there. One transition is `opened`
    while the other end has something that stays; or there is none, and none can come; or the end is `safe`. -/
inductive Side (e : End) (a : Automaton) (p : Nat) : List Regex → Prop
  | opened {t : Transition} : a.graph.Has t → t.tip e = p → a.degree e p = 1 →
      (∃ v, a.graph.Has v ∧ v.tip e.other = p ∧ v.label.isCompound = false) → Side e a p (t.label.leaks e)
  | shut : a.degree e p = 0 → a.Safe e.other p → Side e a p []
  | safe : a.Safe e p → Side e a p []

/-- Breaking the opened transition down leaks the next body of the list. -/
theorem Side.step_opened (breaks : Breaks a t a') (tip : t.tip e = p) (one : a.degree e p = 1)
    (plain : ∃ v, a.graph.Has v ∧ v.tip e.other = p ∧ v.label.isCompound = false) :
    ∃ rest, t.label.leaks e = leak e a t p ++ rest ∧ Side e a' p rest := by
  subst tip
  obtain ⟨v,has,far,plain⟩ := plain
  have stays : ∃ v, a'.graph.Has v ∧ v.tip e.other = t.tip e ∧ v.label.isCompound = false :=
    ⟨v,breaks.kept_plain has plain,far,plain⟩
  have leaks : leak e a t (t.tip e) = t.label.iterated?.toList := if_pos ⟨rfl,breaks.side_of_degree one⟩
  rw [leaks]
  rcases breaks.label_cases with ⟨rs,label,many,_⟩ | ⟨rs,label,_⟩ | ⟨r,label,_⟩ | ⟨r,label,_⟩ | ⟨r,label,_⟩
  · rw [label]
    exact ⟨[],by simp [Regex.leaks,Regex.iterated?],.safe (breaks.safe_of_choice label many e)⟩
  · obtain ⟨same,arc,member,near,leaks⟩ := breaks.degree_seq label e
    obtain ⟨w,has,rfl⟩ := breaks.exists_part member
    refine ⟨_,?_,.opened has near (same.trans one) stays⟩
    rw [leaks,label]
    rfl
  · rw [label]
    exact ⟨[],by simp [Regex.leaks,Regex.iterated?],.safe (breaks.safe_of_passing label (by decide) e)⟩
  · rw [label]
    exact ⟨[],by simp [Regex.leaks,Regex.iterated?],.safe (breaks.safe_of_passing label (by decide) e)⟩
  · obtain ⟨same,arc,member,near,body⟩ := breaks.degree_plus label (breaks.side_of_degree one)
    obtain ⟨w,has,rfl⟩ := breaks.exists_part member
    refine ⟨_,?_,.opened has near (same.trans one) stays⟩
    rw [body,label,Regex.leaks]
    rfl

theorem Side.step (breaks : Breaks a t a') (old : p < a.counters.nextState) {pending : List Regex}
    (side : Side e a p pending) : ∃ rest, pending = leak e a t p ++ rest ∧ Side e a' p rest := by
  cases side with
  | @opened v has tip one plain =>
    by_cases here : t = v
    · subst here
      exact Side.step_opened breaks tip one plain
    · have other : t.tip e ≠ p := fun tip' => here (breaks.consistent.eq_of_degree one breaks.has has tip' tip)
      obtain ⟨w,has',far,plain⟩ := plain
      have same : a'.degree e p = a.degree e p := by
        refine breaks.degree_other old other fun tip open' _ => ?_
        have isolated := breaks.side_of_safe (e := e.other) (.inr ⟨w,has',far.trans tip.symm,plain⟩)
        exact absurd (isolated.symm.trans open') (by decide)
      refine ⟨_,?_,.opened (breaks.kept has (Ne.symm here)) tip (same.trans one)
        ⟨w,breaks.kept_plain has' plain,far,plain⟩⟩
      rw [leak_of_tip_ne other,List.nil_append]
  | shut none safe =>
    have other := breaks.consistent.tip_ne_of_degree none breaks.has
    have same : a'.degree e p = a.degree e p := by
      refine breaks.degree_other old other fun tip open' _ => ?_
      have isolated := breaks.side_of_safe (e := e.other) (tip.symm ▸ safe)
      exact absurd (isolated.symm.trans open') (by decide)
    refine ⟨[],?_,.shut (same.trans none) (breaks.safe_after safe)⟩
    rw [leak_of_tip_ne other,List.nil_append]
  | safe safe =>
    refine ⟨[],?_,.safe (breaks.safe_after safe)⟩
    by_cases tip : t.tip e = p
    · rw [leak_of_side (breaks.side_of_safe (tip.symm ▸ safe)),List.nil_append]
    · rw [leak_of_tip_ne tip,List.nil_append]

/-- The start state and the bodies that are going to leak there. While it is fresh, nothing enters it and one path
    begins there. -/
inductive StartSide (a : Automaton) : List Regex → Prop
  | fresh {t : Transition} : a.graph.Has t → t.source = a.start → a.degree .source a.start = 1 →
      a.degree .target a.start = 0 → a.degree .target t.target = 1 → StartSide a t.label.headLeaks
  | settled {pending : List Regex} : Side .target a a.start pending → StartSide a pending

/-- The first breakdown of a fresh start state leaks nothing there, but decides what will. -/
theorem StartSide.step_fresh (breaks : Breaks a t a') (source : t.source = a.start)
    (leaves : a.degree .source a.start = 1) (enters : a.degree .target a.start = 0)
    (alone : a.degree .target t.target = 1) : StartSide a' t.label.headLeaks := by
  have start := breaks.start_eq
  have atSource : (optimalIsolation a t).atSource = false :=
    breaks.side_of_degree (e := .source) (source.symm ▸ leaves : a.degree .source t.source = 1)
  have atTarget : (optimalIsolation a t).atTarget = false := breaks.side_of_degree (e := .target) alone
  have other : t.target ≠ a.start := breaks.consistent.tip_ne_of_degree enters breaks.has
  have start_old : a.start < a.counters.nextState := source ▸ breaks.source_old
  have still (none : t.label.iterated? = none) : a'.degree .target a'.start = 0 := by
    rw [start,breaks.degree_other (e := .target) start_old other fun _ _ iterated => by simp [none] at iterated]
    exact enters
  rcases breaks.label_cases with ⟨rs,label,many,_⟩ | ⟨rs,label,many,flats⟩ | ⟨r,label,_⟩ | ⟨r,label,_⟩ | ⟨r,label,_⟩
  · have safe : a'.Safe .source t.source := breaks.safe_of_choice label many .source
    rw [source,← start] at safe
    rw [label]
    exact .settled (.shut (still (by rw [label]; rfl)) safe)
  · obtain ⟨r,rs,rfl⟩ := List.exists_cons_of_length_pos (show 0 < rs.length by omega)
    obtain ⟨s,rs,rfl⟩ := List.exists_cons_of_length_pos (Nat.le_of_succ_le_succ many)
    obtain ⟨x,_,member,one⟩ := breaks.path_first label
    obtain ⟨w,has,same⟩ := breaks.exists_part member
    have heads : t.label.headLeaks = w.label.headLeaks := by
      rw [label,same]
      exact Regex.headLeaks_seq (flats r List.mem_cons_self).2 _
    rw [heads]
    refine .fresh has ?_ ?_ (still (by rw [label]; rfl)) ?_
    · rw [same,start]
      exact source
    · have kept := (breaks.degree_seq label .source).1
      rw [show t.tip .source = a.start from source] at kept
      rw [start,kept,leaves]
    · rw [same]
      exact one
  · have safe : a'.Safe .source t.source := breaks.safe_of_passing label (by decide) .source
    rw [source,← start] at safe
    rw [label]
    exact .settled (.shut (still (by rw [label]; rfl)) safe)
  · have turned := breaks.parts_star_open label atSource atTarget
    obtain ⟨w,has,same⟩ := breaks.exists_part (show ⟨t.target,t.source,r⟩ ∈ parts a t .optimal by simp [turned])
    have leaks : t.label.headLeaks = w.label.leaks .target := by
      rw [label,same]
      rfl
    rw [leaks]
    refine .settled (.opened has ?_ ?_ ?_)
    · rw [same,start]
      exact source
    · have counted := breaks.degree_star_open label atSource atTarget .target
      rw [show t.tip End.target.other = a.start from source,enters] at counted
      rw [start,counted]
    · obtain ⟨v,has,same⟩ := breaks.hasArc_epsilon label (by decide)
      exact ⟨v,has,by rw [same,start]; exact source,by rw [same]; rfl⟩
  · rw [label]
    refine .settled (.safe ?_)
    exact Automaton.safe_of_hasArc (breaks.hasArc_back label atSource atTarget) rfl (source.trans start.symm)

theorem StartSide.step (breaks : Breaks a t a') (zero : a.start = 0)
    (first : ∀ v, a.graph.Has v → v.label.isCompound = true → t.source ≤ v.source) {pending : List Regex}
    (side : StartSide a pending) : ∃ rest, pending = leak .target a t a.start ++ rest ∧ StartSide a' rest := by
  have start_old := breaks.start_old
  have settled {pending : List Regex} (side : Side .target a a.start pending) :
      ∃ rest, pending = leak .target a t a.start ++ rest ∧ StartSide a' rest := by
    obtain ⟨rest,split,after⟩ := side.step breaks start_old
    exact ⟨rest,split,.settled (breaks.start_eq ▸ after)⟩
  cases side with
  | @fresh v has source leaves enters alone =>
    by_cases compound : v.label.isCompound = true
    · have low := first v has compound
      have here : t.source = a.start := by omega
      obtain rfl := breaks.consistent.eq_of_degree leaves breaks.has has here source
      refine ⟨_,?_,step_fresh breaks source leaves enters alone⟩
      rw [leak_of_tip_ne (breaks.consistent.tip_ne_of_degree enters breaks.has),List.nil_append]
    · have plain : v.label.isCompound = false := Bool.not_eq_true _ |>.mp compound
      obtain ⟨c,label⟩ := Regex.isCompound_eq_false_iff.mp plain
      rw [label]
      exact settled (.shut enters (.inr ⟨v,has,source,plain⟩))
  | settled side => exact settled side

/-- The transition is the only one that enters the state, which none leaves. -/
structure Last (a : Automaton) (q : Nat) (t : Transition) : Prop where
  has : a.graph.Has t
  target : t.target = q
  enters : a.degree .target q = 1
  leaves : a.degree .source q = 0

namespace Last

variable {q : Nat} {v : Transition} (last : Last a q v)
include last

theorem old (breaks : Breaks a t a') : q < a.counters.nextState :=
  last.target ▸ breaks.tip_old last.has .target

theorem source_ne (breaks : Breaks a t a') : t.source ≠ q :=
  breaks.consistent.tip_ne_of_degree (e := .source) last.leaves breaks.has

theorem eq_of_target (breaks : Breaks a t a') (target : t.target = q) : t = v :=
  breaks.consistent.eq_of_degree (e := .target) last.enters breaks.has last.has target last.target

/-- Nothing leaves the state unless the last transition itself turns round there. -/
theorem leaves_after (breaks : Breaks a t a') (turn : t = v → t.label.iterated? = none) :
    a'.degree .source q = 0 := by
  rw [breaks.degree_other (e := .source) (last.old breaks) (last.source_ne breaks) fun target _ iterated => ?_]
  · exact last.leaves
  · simp [turn (last.eq_of_target breaks target)] at iterated

theorem after (breaks : Breaks a t a') (other : t ≠ v) : Last a' q v where
  has := breaks.kept last.has other.symm
  target := last.target
  enters := by
    rw [breaks.degree_other (e := .target) (last.old breaks) (fun here => other (last.eq_of_target breaks here))
      fun source _ _ => last.source_ne breaks source]
    exact last.enters
  leaves := last.leaves_after breaks fun here => absurd here other

end Last

/-- No loop will turn round at the state on its way to it: nothing enters it, or what enters it is isolated, or it is
    no iteration and not about to become one. -/
inductive Calm (a : Automaton) (p : Nat) : Prop
  | unreached : a.degree .target p = 0 → Calm a p
  | safe : a.Safe .target p → Calm a p
  | plain {t : Transition} : a.graph.Has t → t.target = p → a.degree .target p = 1 → t.label.iterated? = none →
      t.label.operator ≠ .sequence → Calm a p

theorem Calm.turn (breaks : Breaks a t a') (calm : Calm a p) (target : t.target = p)
    (side : (optimalIsolation a t).side .target = false) : t.label.iterated? = none := by
  cases calm with
  | unreached none => exact absurd target (breaks.consistent.tip_ne_of_degree (e := .target) none breaks.has)
  | safe safe =>
    subst target
    exact absurd ((breaks.side_of_safe (e := .target) safe).symm.trans side) (by decide)
  | @plain v has tip one none _ =>
    rw [breaks.consistent.eq_of_degree (e := .target) one breaks.has has target tip]
    exact none

theorem Calm.after (breaks : Breaks a t a') (old : p < a.counters.nextState) (other : t.source ≠ p)
    (calm : Calm a p) : Calm a' p := by
  have same (far : t.target ≠ p) : a'.degree .target p = a.degree .target p :=
    breaks.degree_other (e := .target) old far fun source _ _ => other source
  cases calm with
  | unreached none =>
    have far : t.target ≠ p := breaks.consistent.tip_ne_of_degree (e := .target) none breaks.has
    exact .unreached ((same far).trans none)
  | safe safe => exact .safe (breaks.safe_after safe)
  | @plain v has tip one none single =>
    by_cases here : t = v
    · subst here
      rcases breaks.label_cases with ⟨rs,label,many,_⟩ | ⟨rs,label,_⟩ | ⟨r,label,_⟩ | ⟨r,label,_⟩ | ⟨r,label,_⟩
      · exact .safe (tip ▸ breaks.safe_of_choice label many .target)
      · rw [label] at single
        exact absurd rfl single
      · exact .safe (tip ▸ breaks.safe_of_passing label (by decide) .target)
      · rw [label] at none
        cases none
      · rw [label] at none
        cases none
    · have far : t.target ≠ p := fun target =>
        here (breaks.consistent.eq_of_degree (e := .target) one breaks.has has target tip)
      exact .plain (breaks.kept has (Ne.symm here)) tip ((same far).trans one) none single

/-- The final state and the bodies that are going to leak there. Its last transition is `whole` while the paths to the
    final state are what the last factors stand for; it is `doomed` when an iteration before it is going to turn round
    where it begins, and `ruined` once this has happened: then it cannot leave a loop open at its source. -/
inductive FinalSide (a : Automaton) (q : Nat) : List Regex → Prop
  | whole {t : Transition} : Last a q t → a.degree .source t.source = 1 → Calm a t.source →
      FinalSide a q t.label.tailLeaks
  | doomed {t v : Transition} : Last a q t → t.label.operator ≠ .sequence → a.graph.Has v → v.target = t.source →
      a.degree .target t.source = 1 → v.label.iterated?.isSome = true → v.source < t.source → FinalSide a q []
  | ruined {t : Transition} : Last a q t → t.label.operator ≠ .sequence → a.Safe .source t.source → FinalSide a q []
  | settled {pending : List Regex} : Side .source a q pending → FinalSide a q pending

/-- Of a sequence the last factor becomes the last transition. It is doomed if an iteration comes before it. -/
private theorem FinalSide.step_seq {q : Nat} (breaks : Breaks a t a') (last : Last a q t) {init : List Regex}
    {s r : Regex} (label : t.label = .seq (init ++ [s] ++ [r])) (other : s.operator ≠ .sequence)
    (single : r.operator ≠ .sequence) : FinalSide a' q t.label.tailLeaks := by
  obtain ⟨p,x,_,lower,before,member,leave,enter⟩ := breaks.path_last label
  obtain ⟨w,has,same⟩ := breaks.exists_part member
  obtain ⟨v,has',same'⟩ := breaks.exists_part before
  have last' : Last a' q w := by
    refine ⟨has,?_,?_,last.leaves_after breaks fun _ => by rw [label]; rfl⟩
    · rw [same]
      exact last.target
    · have kept := (breaks.degree_seq label .target).1
      rw [show t.tip .target = q from last.target] at kept
      exact kept.trans last.enters
  cases iterated : s.iterated? with
  | none =>
    have tails : t.label.tailLeaks = w.label.tailLeaks := by
      rw [label,same]
      exact Regex.tailLeaks_seq iterated single init
    rw [tails]
    refine .whole last' (by rw [same]; exact leave) (.plain has' (by rw [same,same']) ?_ ?_ ?_)
    · rw [same]
      exact enter
    · rw [same']
      exact iterated
    · rw [same']
      exact other
  | some body =>
    rw [label,Regex.tailLeaks_of_iterated (by rw [iterated]; rfl)]
    refine .doomed last' ?_ has' (by rw [same,same']) ?_ ?_ ?_
    · rw [same]
      exact single
    · rw [same]
      exact enter
    · rw [same']
      exact Option.isSome_iff_exists.mpr ⟨body,iterated⟩
    · rw [same,same']
      exact lower

/-- Breaking the last transition down leaks nothing, but decides what will. -/
theorem FinalSide.step_whole {q : Nat} (breaks : Breaks a t a') (last : Last a q t)
    (leaves : a.degree .source t.source = 1) : FinalSide a' q t.label.tailLeaks := by
  have atSource : (optimalIsolation a t).atSource = false := breaks.side_of_degree (e := .source) leaves
  have target := last.target
  have atTarget : (optimalIsolation a t).atTarget = false :=
    breaks.side_of_degree (e := .target) (target ▸ last.enters : a.degree .target t.target = 1)
  have still (none : t.label.iterated? = none) : a'.degree .source q = 0 := last.leaves_after breaks fun _ => none
  rcases breaks.label_cases with ⟨rs,label,many,_⟩ | ⟨rs,label,many,flats⟩ | ⟨r,label,_⟩ | ⟨r,label,_⟩ | ⟨r,label,_⟩
  · rw [label]
    exact .settled (.shut (still (by rw [label]; rfl)) (target ▸ breaks.safe_of_choice label many .target))
  · obtain ⟨rs,r,rfl⟩ := (List.eq_nil_or_concat rs).resolve_left (by rintro rfl; simp at many)
    obtain ⟨init,s,rfl⟩ := (List.eq_nil_or_concat rs).resolve_left (by rintro rfl; simp at many)
    rw [List.concat_eq_append,List.concat_eq_append] at label flats
    exact step_seq breaks last label (flats s (by simp)).2 (flats r (by simp)).2
  · rw [label]
    exact .settled (.shut (still (by rw [label]; rfl)) (target ▸ breaks.safe_of_passing label (by decide) .target))
  · have turned := breaks.parts_star_open label atSource atTarget
    obtain ⟨w,has,same⟩ := breaks.exists_part (show ⟨t.target,t.source,r⟩ ∈ parts a t .optimal by simp [turned])
    have leaks : t.label.tailLeaks = w.label.leaks .source := by
      rw [label,same]
      rfl
    rw [leaks]
    refine .settled (.opened has ?_ ?_ ?_)
    · rw [same]
      exact target
    · have counted := breaks.degree_star_open label atSource atTarget .source
      rw [show t.tip End.source.other = q from target,last.leaves] at counted
      exact counted
    · obtain ⟨v,has,same⟩ := breaks.hasArc_epsilon label (by decide)
      exact ⟨v,has,by rw [same]; exact target,by rw [same]; rfl⟩
  · rw [label]
    refine .settled (.safe ?_)
    exact Automaton.safe_of_hasArc (breaks.hasArc_back label atSource atTarget) rfl target

/-- The iteration before the last transition turns round where that begins. -/
theorem FinalSide.step_doomed {q : Nat} {v : Transition} (breaks : Breaks a t a') (last : Last a q v) (other : t ≠ v)
    (single : v.label.operator ≠ .sequence) (target : t.target = v.source) (one : a.degree .target v.source = 1)
    (iterated : t.label.iterated?.isSome = true) : FinalSide a' q [] := by
  have last' := last.after breaks other
  have atTarget : (optimalIsolation a t).atTarget = false :=
    breaks.side_of_degree (e := .target) (target ▸ one : a.degree .target t.target = 1)
  obtain ⟨body,iterated⟩ := Option.isSome_iff_exists.mp iterated
  refine .ruined last' single ?_
  rcases breaks.turns_round iterated atTarget with ⟨p,back⟩ | ⟨_,_,member⟩
  · exact Automaton.safe_of_hasArc back rfl target
  · obtain ⟨w,has,same⟩ := breaks.exists_part member
    refine .inl (breaks.after.two_le_degree (e := .source) has last'.has (by rw [same]; exact target) rfl ?_)
    rintro rfl
    have turned : t.source = q := by rw [← last.target,same]
    exact last.source_ne breaks turned

/-- The ruined transition is isolated at its source, so a loop for it turns round at the final state on `ε`. -/
theorem FinalSide.step_ruined {q : Nat} (breaks : Breaks a t a') (last : Last a q t)
    (single : t.label.operator ≠ .sequence) (safe : a.Safe .source t.source) : FinalSide a' q [] := by
  have target := last.target
  have atSource : (optimalIsolation a t).atSource = true := breaks.side_of_safe (e := .source) safe
  have atTarget : (optimalIsolation a t).atTarget = false :=
    breaks.side_of_degree (e := .target) (target ▸ last.enters : a.degree .target t.target = 1)
  have still (none : t.label.iterated? = none) : a'.degree .source q = 0 := last.leaves_after breaks fun _ => none
  have turned {body : Regex} (iterated : t.label.iterated? = some body) : FinalSide a' q [] := by
    rcases breaks.turns_round iterated atTarget with ⟨p,back⟩ | ⟨open',_⟩
    · exact .settled (.safe (Automaton.safe_of_hasArc back rfl target))
    · exact absurd (atSource.symm.trans open') (by decide)
  rcases breaks.label_cases with ⟨rs,label,many,_⟩ | ⟨rs,label,_⟩ | ⟨r,label,_⟩ | ⟨r,label,_⟩ | ⟨r,label,_⟩
  · exact .settled (.shut (still (by rw [label]; rfl)) (target ▸ breaks.safe_of_choice label many .target))
  · rw [label] at single
    exact absurd rfl single
  · exact .settled (.shut (still (by rw [label]; rfl)) (target ▸ breaks.safe_of_passing label (by decide) .target))
  · exact turned (by rw [label]; rfl)
  · exact turned (by rw [label]; rfl)

theorem FinalSide.step {q : Nat} (breaks : Breaks a t a') (old : q < a.counters.nextState)
    (first : ∀ v, a.graph.Has v → v.label.isCompound = true → t.source ≤ v.source) {pending : List Regex}
    (side : FinalSide a q pending) : ∃ rest, pending = leak .source a t q ++ rest ∧ FinalSide a' q rest := by
  have quiet {v : Transition} (last : Last a q v) {rest : List Regex} (after : FinalSide a' q rest) :
      ∃ rest', rest = leak .source a t q ++ rest' ∧ FinalSide a' q rest' := by
    refine ⟨rest,?_,after⟩
    rw [leak_of_tip_ne (e := .source) (last.source_ne breaks),List.nil_append]
  cases side with
  | @whole v last leaves calm =>
    refine quiet last ?_
    by_cases here : t = v
    · subst here
      exact step_whole breaks last leaves
    · have far : t.source ≠ v.source := fun source =>
        here (breaks.consistent.eq_of_degree (e := .source) leaves breaks.has last.has source rfl)
      have before : v.source < a.counters.nextState := breaks.tip_old last.has .source
      refine .whole (last.after breaks here) ?_ (calm.after breaks before far)
      rw [breaks.degree_other (e := .source) before far fun target side iterated => ?_]
      · exact leaves
      · simp [calm.turn breaks target side] at iterated
  | @doomed v w last single has target one iterated lower =>
    refine quiet last ?_
    by_cases here : t = w
    · subst here
      refine step_doomed breaks last ?_ single target one iterated
      rintro rfl
      omega
    · by_cases turn : t = v
      · subst turn
        obtain ⟨body,iterated⟩ := Option.isSome_iff_exists.mp iterated
        have compound : w.label.isCompound = true := by
          rcases Regex.eq_of_iterated? iterated with label | label
          · rw [label]; rfl
          · rw [label]; rfl
        have := first w has compound
        omega
      · have far : t.target ≠ v.source := fun target' =>
          here (breaks.consistent.eq_of_degree (e := .target) one breaks.has has target' target)
        have before : v.source < a.counters.nextState := breaks.tip_old last.has .source
        refine .doomed (last.after breaks turn) single (breaks.kept has (Ne.symm here)) target ?_ iterated lower
        rw [breaks.degree_other (e := .target) before far fun source open' _ => ?_]
        · exact one
        · have many := breaks.consistent.two_le_degree (e := .source) breaks.has last.has rfl source.symm turn
          exact absurd ((breaks.side_of_safe (e := .source) (.inl many)).symm.trans open') (by decide)
  | @ruined v last single safe =>
    refine quiet last ?_
    by_cases here : t = v
    · subst here
      exact step_ruined breaks last single safe
    · exact .ruined (last.after breaks here) single (breaks.safe_after safe)
  | settled side =>
    obtain ⟨rest,split,after⟩ := side.step breaks old
    exact ⟨rest,split,.settled after⟩

end StepwiseAutomata
