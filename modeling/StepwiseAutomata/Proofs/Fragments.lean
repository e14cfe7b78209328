import StepwiseAutomata.Proofs.Replacement

namespace StepwiseAutomata.Breakdown

attribute [local instance] Ids.endless

variable {a a' : Automaton} {t : Transition}

/-! ### Paths through new states -/

section
variable {source target : Nat} {states : List Nat} {rs : List Regex} (length : rs.length = states.length + 1)
include length

theorem map_source_chain : (chain source states target rs).map Arc.source = source :: states := by
  induction states generalizing source rs with
  | nil =>
    obtain ⟨r,rfl⟩ := List.length_eq_one_iff.mp length
    rfl
  | cons s states ih =>
    obtain ⟨r,rs,rfl⟩ := List.exists_cons_of_length_eq_add_one length
    rw [chain_cons,List.map_cons,ih (by simpa using length)]

theorem map_target_chain : (chain source states target rs).map Arc.target = states ++ [target] := by
  induction states generalizing source rs with
  | nil =>
    obtain ⟨r,rfl⟩ := List.length_eq_one_iff.mp length
    rfl
  | cons s states ih =>
    obtain ⟨r,rs,rfl⟩ := List.exists_cons_of_length_eq_add_one length
    rw [chain_cons,List.map_cons,ih (by simpa using length)]
    rfl

theorem map_label_chain : (chain source states target rs).map Arc.label = rs := by
  induction states generalizing source rs with
  | nil =>
    obtain ⟨r,rfl⟩ := List.length_eq_one_iff.mp length
    rfl
  | cons s states ih =>
    obtain ⟨r,rs,rfl⟩ := List.exists_cons_of_length_eq_add_one length
    rw [chain_cons,List.map_cons,ih (by simpa using length)]

theorem chain_concat (x : Nat) (r : Regex) : chain source (states ++ [x]) target (rs ++ [r]) =
    chain source states x rs ++ [⟨x,target,r⟩] := by
  induction states generalizing source rs with
  | nil =>
    obtain ⟨s,rfl⟩ := List.length_eq_one_iff.mp length
    rfl
  | cons s states ih =>
    obtain ⟨first,rs,rfl⟩ := List.exists_cons_of_length_eq_add_one length
    rw [List.cons_append,List.cons_append,chain_cons,ih (by simpa using length),chain_cons,List.cons_append]

end

/-- The last factor leads to the target. -/
theorem last_mem_chain (source target : Nat) {states : List Nat} {rs : List Regex} (length : rs.length = states.length)
    (r : Regex) : ∃ p ∈ source :: states, ⟨p,target,r⟩ ∈ chain source states target (rs ++ [r]) := by
  rcases List.eq_nil_or_concat states with rfl | ⟨states,x,rfl⟩
  · obtain rfl := List.eq_nil_of_length_eq_zero length
    exact ⟨source,List.mem_cons_self,List.mem_cons_self⟩
  · rw [List.concat_eq_append] at length ⊢
    refine ⟨x,by simp,?_⟩
    rw [chain_concat (by simpa using length)]
    exact List.mem_append_right _ List.mem_cons_self

/-- The arcs of a path stand between neighbours. -/
theorem mem_chain_series {source target n m : Nat} {rs : List Regex} {arc : Arc} (old : source < n) (old' : target < n)
    (other : source ≠ target) (member : arc ∈ chain source (Ids.series n m) target rs) :
    (arc.source = source ∨ n ≤ arc.source) ∧ (arc.target = target ∨ n ≤ arc.target) ∧ arc.source ≠ arc.target ∧
      arc.label ∈ rs := by
  induction m generalizing source n rs with
  | zero =>
    cases rs with
    | nil => cases member
    | cons r rs =>
      obtain rfl : arc = ⟨source,target,r⟩ := by simpa [chain] using member
      exact ⟨.inl rfl,.inl rfl,other,List.mem_cons_self⟩
  | succ m ih =>
    cases rs with
    | nil => simp [chain] at member
    | cons r rs =>
      rw [Ids.series_succ,chain_cons] at member
      rcases List.mem_cons.mp member with rfl | rest
      · exact ⟨.inl rfl,.inr (Nat.le_refl n),Nat.ne_of_lt old,List.mem_cons_self⟩
      · obtain ⟨first,second,straight,label⟩ := ih (by omega) (by omega) (by omega) rest
        exact ⟨.inr (by omega),by omega,straight,List.mem_cons_of_mem r label⟩

/-! ### Loops -/

/-- What the arcs of a loop lead between. -/
theorem mem_loop {level : Isolation} {isStar : Bool} {body : Regex} {arc : Arc} (old : t.source < a.counters.nextState)
    (old' : t.target < a.counters.nextState) (other : t.source ≠ t.target)
    (member : arc ∈ (loop a t level isStar body).2) :
    (arc.source = t.source ∨ a.counters.nextState ≤ arc.source ∨ arc.source = t.target ∧ level.atTarget = false) ∧
      (arc.target = t.target ∨ a.counters.nextState ≤ arc.target ∨ arc.target = t.source ∧ level.atSource = false) ∧
        arc.source ≠ arc.target ∧ (arc.label = .epsilon ∨ arc.label = body) := by
  rcases loop_cases level isStar body old old' with ⟨atSource,atTarget,same⟩ | ⟨first,last,gates,_,same⟩
  · rw [same,mem_directLoop] at member
    cases isStar with
    | true =>
      rcases member with ⟨rfl,_⟩ | rfl
      · exact ⟨.inl rfl,.inl rfl,other,.inl rfl⟩
      · exact ⟨.inr (.inr ⟨rfl,atTarget⟩),.inr (.inr ⟨rfl,atSource⟩),other.symm,.inr rfl⟩
    | false =>
      rcases member with ⟨rfl,_⟩ | rfl
      · exact ⟨.inr (.inr ⟨rfl,atTarget⟩),.inr (.inr ⟨rfl,atSource⟩),other.symm,.inl rfl⟩
      · exact ⟨.inl rfl,.inl rfl,other,.inr rfl⟩
  · have atFirst := gates.first_cases
    have atLast := gates.last_cases
    have apart := gates.apart
    rw [same,mem_isolatedLoop] at member
    rcases member with ⟨isolated,rfl⟩ | ⟨isolated,rfl⟩ | ⟨_,rfl,_⟩ | rfl | rfl
    · have new := (atFirst.resolve_right fun side => by simp [isolated] at side).2
      exact ⟨.inl rfl,.inr (.inl new),Nat.ne_of_lt (Nat.lt_of_lt_of_le old new),.inl rfl⟩
    · have new := (atLast.resolve_right fun side => by simp [isolated] at side).2
      exact ⟨.inr (.inl new),.inl rfl,(Nat.ne_of_lt (Nat.lt_of_lt_of_le old' new)).symm,.inl rfl⟩
    · exact ⟨.inl rfl,.inl rfl,other,.inl rfl⟩
    · refine ⟨.inr ?_,.inr ?_,apart.symm,.inl rfl⟩
      · exact atLast.imp And.right And.symm
      · exact atFirst.imp And.right And.symm
    · refine ⟨?_,?_,apart,.inr rfl⟩
      · rcases atFirst with ⟨_,new⟩ | ⟨_,same⟩
        · exact .inr (.inl new)
        · exact .inl same
      · rcases atLast with ⟨_,new⟩ | ⟨_,same⟩
        · exact .inr (.inl new)
        · exact .inl same

/-! ### The fragment of a label -/

theorem parts_star {r : Regex} (label : t.label = .quant .star r) :
    parts a t .optimal = (loop a t (optimalIsolation a t) true r).2 := by
  simp only [parts,expansion,label,levelFor]

theorem parts_plus {r : Regex} (label : t.label = .quant .plus r) :
    parts a t .optimal = (loop a t (optimalIsolation a t) false r).2 := by
  simp only [parts,expansion,label,levelFor]

theorem optimalIsolation_open (atSource : (optimalIsolation a t).atSource = false)
    (atTarget : (optimalIsolation a t).atTarget = false) : optimalIsolation a t = ⟨false,false⟩ :=
  congr (congrArg Isolation.mk atSource) atTarget

/-! ### One breakdown -/

/-- The automaton has become the other by breaking the transition down at the least isolation. -/
structure Breaks (a : Automaton) (t : Transition) (a' : Automaton) : Prop extends Replaces .optimal a t a' where
  straight : t.source ≠ t.target
  after : a'.Consistent

namespace Breaks

variable (breaks : Breaks a t a')
include breaks

theorem degree_eq (e : End) (p : Nat) : a'.degree e p + (if t.tip e = p then 1 else 0) =
    a.degree e p + (parts a t .optimal).countP fun arc => arc.tip e == p := by
  have counted := Rewriting.degree_eq breaks.consistent breaks.fits breaks.after.toIndexed breaks.graph e p
  refine Eq.trans ?_ counted
  congr 1
  show _ = List.countP _ [t]
  rw [List.countP_singleton]
  simp only [beq_iff_eq]

/-- New transitions lead from one state to another, on flat labels. Their ends are those of the transition or new
    states; only a loop that is open at a side turns round there. -/
theorem mem_parts {arc : Arc} (member : arc ∈ parts a t .optimal) :
    (arc.source = t.source ∨ a.counters.nextState ≤ arc.source ∨
      arc.source = t.target ∧ (optimalIsolation a t).atTarget = false ∧ t.label.iterated?.isSome = true) ∧
    (arc.target = t.target ∨ a.counters.nextState ≤ arc.target ∨
      arc.target = t.source ∧ (optimalIsolation a t).atSource = false ∧ t.label.iterated?.isSome = true) ∧
    arc.source ≠ arc.target ∧ arc.label.Flat := by
  have loops {isStar : Bool} {body : Regex} (flat : body.Flat) (iterated : t.label.iterated?.isSome = true)
      (member : arc ∈ (loop a t (optimalIsolation a t) isStar body).2) :
      (arc.source = t.source ∨ a.counters.nextState ≤ arc.source ∨
        arc.source = t.target ∧ (optimalIsolation a t).atTarget = false ∧ t.label.iterated?.isSome = true) ∧
      (arc.target = t.target ∨ a.counters.nextState ≤ arc.target ∨
        arc.target = t.source ∧ (optimalIsolation a t).atSource = false ∧ t.label.iterated?.isSome = true) ∧
      arc.source ≠ arc.target ∧ arc.label.Flat := by
    obtain ⟨first,second,apart,label⟩ := mem_loop breaks.source_old breaks.target_old breaks.straight member
    refine ⟨first.imp_right (Or.imp_right fun side => ⟨side.1,side.2,iterated⟩),
      second.imp_right (Or.imp_right fun side => ⟨side.1,side.2,iterated⟩),apart,?_⟩
    rcases label with same | same
    · rw [same]
      exact .char epsilonChar
    · rw [same]
      exact flat
  rcases breaks.label_cases with ⟨rs,label,_,flats⟩ | ⟨rs,label,_,flats⟩ | ⟨r,label,flat⟩ | ⟨r,label,flat⟩ | ⟨r,label,flat⟩
  · rw [parts_choice label] at member
    obtain ⟨r,listed,rfl⟩ := List.mem_map.mp member
    exact ⟨.inl rfl,.inl rfl,breaks.straight,flats r listed⟩
  · rw [parts_seq label] at member
    obtain ⟨first,second,apart,listed⟩ := mem_chain_series breaks.source_old breaks.target_old breaks.straight member
    exact ⟨first.imp_right .inl,second.imp_right .inl,apart,(flats _ listed).1⟩
  · rw [parts_option label] at member
    rcases List.mem_cons.mp member with rfl | passing
    · exact ⟨.inl rfl,.inl rfl,breaks.straight,flat⟩
    · obtain ⟨rfl,_⟩ := mem_unlessPresent.mp passing
      exact ⟨.inl rfl,.inl rfl,breaks.straight,.char epsilonChar⟩
  · exact loops flat (by rw [label]; rfl) (parts_star label ▸ member)
  · exact loops flat (by rw [label]; rfl) (parts_plus label ▸ member)

/-- No other states than these get transitions at an end: that of the transition, new states, and where a loop is open
    the state at the other end. -/
theorem tip_cases (e : End) {arc : Arc} (member : arc ∈ parts a t .optimal) : arc.tip e = t.tip e ∨
    a.counters.nextState ≤ arc.tip e ∨ arc.tip e = t.tip e.other ∧ (optimalIsolation a t).side e.other = false ∧
      t.label.iterated?.isSome = true := by
  obtain ⟨first,second,_⟩ := breaks.mem_parts member
  cases e with
  | source => exact first
  | target => exact second

/-- An option and a `*` can be passed by. -/
theorem hasArc_epsilon {q : Quantifier} {r : Regex} (label : t.label = .quant q r) (other : q ≠ .plus) :
    a'.graph.HasArc ⟨t.source,t.target,.epsilon⟩ := by
  refine breaks.hasArc_unlessPresent rfl fun arc member => ?_
  obtain ⟨rfl,absent⟩ := mem_unlessPresent.mp member
  cases q with
  | option =>
    rw [parts_option label]
    exact List.mem_cons_of_mem _ member
  | star =>
    rw [parts_star label]
    rcases loop_cases (optimalIsolation a t) true r breaks.source_old breaks.target_old with
      ⟨_,_,same⟩ | ⟨first,last,_,_,same⟩
    · rw [same,mem_directLoop]
      exact .inl ⟨rfl,absent⟩
    · rw [same,mem_isolatedLoop]
      exact .inr (.inr (.inl ⟨rfl,rfl,absent⟩))
  | plus => exact absurd rfl other

/-- A `*` that is open at both sides turns into these arcs. -/
theorem parts_star_open {r : Regex} (label : t.label = .quant .star r)
    (atSource : (optimalIsolation a t).atSource = false)
    (atTarget : (optimalIsolation a t).atTarget = false) :
    parts a t .optimal = [⟨t.source,t.target,.epsilon⟩,⟨t.target,t.source,r⟩] := by
  have absent : a.hasArc ⟨t.source,t.target,.epsilon⟩ = false := by
    refine Bool.not_eq_true _ |>.mp fun present => ?_
    obtain ⟨v,has,same⟩ := breaks.consistent.hasArc_iff.mp present
    have other : v ≠ t := by
      rintro rfl
      have compound := breaks.compound
      rw [same] at compound
      cases compound
    have source : v.tip .source = t.source := by rw [same]; rfl
    have side := (breaks.consistent.side_optimal (e := .source) breaks.has).mpr
      (breaks.consistent.two_le_degree has breaks.has source rfl other)
    exact absurd (side.symm.trans atSource) (by decide)
  rw [parts_star label,optimalIsolation_open atSource atTarget]
  show a.unlessPresent ⟨t.source,t.target,.epsilon⟩ ++ _ = _
  rw [Automaton.unlessPresent,absent]
  rfl

/-- The arcs of a sequence have its own end and the new states, each once, for their ends. -/
theorem countP_seq {rs : List Regex} (label : t.label = .seq rs) (e : End) (p : Nat) :
    (parts a t .optimal).countP (fun arc => arc.tip e == p) =
      (t.tip e :: Ids.series a.counters.nextState (rs.length - 1)).count p := by
  have many := breaks.two_le_of_seq label
  have length : rs.length = (Ids.series a.counters.nextState (rs.length - 1)).length + 1 := by
    rw [Ids.length_series]
    omega
  rw [parts_seq label]
  cases e with
  | source =>
    show List.countP ((· == p) ∘ Arc.source) _ = _
    rw [← List.countP_map,map_source_chain length]
    rfl
  | target =>
    show List.countP ((· == p) ∘ Arc.target) _ = _
    rw [← List.countP_map,map_target_chain length]
    exact (List.perm_append_singleton t.target _).count_eq p

/-- Some arc of the fragment has the end of the transition. -/
theorem exists_part_at (e : End) : ∃ arc ∈ parts a t .optimal, arc.tip e = t.tip e := by
  have loops {isStar : Bool} {body : Regex} (same : parts a t .optimal = (loop a t (optimalIsolation a t) isStar body).2)
      (closed : isStar = true → ¬((optimalIsolation a t).atSource = false ∧ (optimalIsolation a t).atTarget = false)) :
      ∃ arc ∈ parts a t .optimal, arc.tip e = t.tip e := by
    rw [same]
    rcases loop_cases (optimalIsolation a t) isStar body breaks.source_old breaks.target_old with
      ⟨atSource,atTarget,same⟩ | ⟨first,last,gates,_,same⟩
    · rw [same]
      cases isStar with
      | true => exact (closed rfl ⟨atSource,atTarget⟩).elim
      | false =>
        refine ⟨⟨t.source,t.target,body⟩,mem_directLoop.mpr (.inr rfl),?_⟩
        cases e <;> rfl
    · rw [same]
      cases e with
      | source =>
        rcases gates.first_cases with ⟨isolated,_⟩ | ⟨_,rfl⟩
        · exact ⟨_,mem_isolatedLoop.mpr (.inl ⟨isolated,rfl⟩),rfl⟩
        · exact ⟨_,mem_isolatedLoop.mpr (.inr (.inr (.inr (.inr rfl)))),rfl⟩
      | target =>
        rcases gates.last_cases with ⟨isolated,_⟩ | ⟨_,rfl⟩
        · exact ⟨_,mem_isolatedLoop.mpr (.inr (.inl ⟨isolated,rfl⟩)),rfl⟩
        · exact ⟨_,mem_isolatedLoop.mpr (.inr (.inr (.inr (.inr rfl)))),rfl⟩
  rcases breaks.label_cases with ⟨rs,label,some,_⟩ | ⟨rs,label,_⟩ | ⟨r,label,_⟩ | ⟨r,label,_⟩ | ⟨r,label,_⟩
  · obtain ⟨r,member⟩ := List.exists_mem_of_length_pos (show 0 < rs.length by omega)
    refine ⟨⟨t.source,t.target,r⟩,?_,by cases e <;> rfl⟩
    rw [parts_choice label]
    exact List.mem_map_of_mem member
  · have counted := breaks.countP_seq label e (t.tip e)
    rw [List.count_cons_self] at counted
    obtain ⟨arc,member,here⟩ := List.countP_pos_iff.mp (Nat.lt_of_lt_of_eq (Nat.succ_pos _) counted.symm)
    exact ⟨arc,member,eq_of_beq here⟩
  · refine ⟨⟨t.source,t.target,r⟩,?_,by cases e <;> rfl⟩
    rw [parts_option label]
    exact List.mem_cons_self
  · by_cases sides : (optimalIsolation a t).atSource = false ∧ (optimalIsolation a t).atTarget = false
    · refine ⟨⟨t.source,t.target,.epsilon⟩,?_,by cases e <;> rfl⟩
      rw [breaks.parts_star_open label sides.1 sides.2]
      exact List.mem_cons_self
    · exact loops (parts_star label) fun _ => sides
  · exact loops (parts_plus label) nofun

/-! ### Degrees afterwards -/

/-- A state keeps its transitions where it is no end of the one broken down and no loop turns round at it. -/
theorem degree_other {e : End} {p : Nat} (old : p < a.counters.nextState) (other : t.tip e ≠ p)
    (turn : t.tip e.other = p → (optimalIsolation a t).side e.other = false → t.label.iterated?.isSome = true → False) :
    a'.degree e p = a.degree e p := by
  have counted := breaks.degree_eq e p
  have none : (parts a t .optimal).countP (fun arc => arc.tip e == p) = 0 := by
    refine List.countP_eq_zero.mpr fun arc member here => ?_
    rcases breaks.tip_cases e member with same | new | ⟨same,side,iterated⟩
    · exact other (same.symm.trans (eq_of_beq here))
    · have := eq_of_beq here
      omega
    · exact turn (same.symm.trans (eq_of_beq here)) side iterated
  rw [if_neg other,none] at counted
  omega

/-- The end of the transition gets at least one in its place. -/
theorem degree_le (e : End) (p : Nat) : a.degree e p ≤ a'.degree e p := by
  have counted := breaks.degree_eq e p
  by_cases here : t.tip e = p
  · obtain ⟨arc,member,same⟩ := breaks.exists_part_at e
    have some : 0 < (parts a t .optimal).countP fun arc => arc.tip e == p :=
      List.countP_pos_iff.mpr ⟨arc,member,beq_iff_eq.mpr (same.trans here)⟩
    rw [if_pos here] at counted
    omega
  · rw [if_neg here] at counted
    omega

theorem degree_at (e : End) : a'.degree e (t.tip e) + 1 =
    a.degree e (t.tip e) + (parts a t .optimal).countP fun arc => arc.tip e == t.tip e := by
  have counted := breaks.degree_eq e (t.tip e)
  rwa [if_pos rfl] at counted

theorem degree_choice {rs : List Regex} (label : t.label = .choice rs) (e : End) :
    a'.degree e (t.tip e) + 1 = a.degree e (t.tip e) + rs.length := by
  rw [breaks.degree_at,parts_choice label,List.countP_map]
  congr 1
  refine List.countP_eq_length.mpr fun r _ => ?_
  cases e <;> exact beq_self_eq_true _

theorem degree_star_open {r : Regex} (label : t.label = .quant .star r)
    (atSource : (optimalIsolation a t).atSource = false) (atTarget : (optimalIsolation a t).atTarget = false) (e : End) :
    a'.degree e (t.tip e.other) = a.degree e (t.tip e.other) + 1 := by
  have counted := breaks.degree_eq e (t.tip e.other)
  have straight := breaks.straight
  have apart : t.tip e ≠ t.tip e.other := by
    cases e with
    | source => exact straight
    | target => exact straight.symm
  have one : (parts a t .optimal).countP (fun arc => arc.tip e == t.tip e.other) = 1 := by
    rw [breaks.parts_star_open label atSource atTarget]
    cases e with
    | source => simp [Arc.tip,End.other,straight]
    | target => simp [Arc.tip,End.other,straight.symm]
  rw [if_neg apart,one] at counted
  exact counted

/-- A sequence has one arc at either end, on its first or last factor. -/
theorem degree_seq {rs : List Regex} (label : t.label = .seq rs) (e : End) :
    a'.degree e (t.tip e) = a.degree e (t.tip e) ∧
      ∃ arc ∈ parts a t .optimal, arc.tip e = t.tip e ∧ arc.label.leaks e = t.label.leaks e := by
  have many := breaks.two_le_of_seq label
  have counted := breaks.degree_at e
  have old := breaks.tip_old breaks.has e
  rw [breaks.countP_seq label,List.count_cons_self,List.count_eq_zero_of_not_mem fun member => by
    have := (Ids.mem_series.mp member).1
    omega] at counted
  refine ⟨Nat.succ_inj.mp counted,?_⟩
  cases e with
  | source =>
    obtain ⟨r,rs,rfl⟩ := List.exists_cons_of_length_pos (show 0 < rs.length by omega)
    obtain ⟨s,states,split⟩ := List.exists_cons_of_length_pos
      (show 0 < (Ids.series a.counters.nextState ((r :: rs).length - 1)).length by rw [Ids.length_series]; omega)
    refine ⟨⟨t.source,s,r⟩,?_,rfl,?_⟩
    · rw [parts_seq label,split,chain_cons]
      exact List.mem_cons_self
    · rw [label,Regex.leaks,Regex.outerLeaks_cons]
  | target =>
    obtain ⟨rs,r,rfl⟩ := (List.eq_nil_or_concat rs).resolve_left (by rintro rfl; simp at many)
    rw [List.concat_eq_append] at label many
    have short : rs.length = (Ids.series a.counters.nextState ((rs ++ [r]).length - 1)).length := by simp
    obtain ⟨p,_,member⟩ := last_mem_chain t.source t.target short r
    refine ⟨⟨p,t.target,r⟩,?_,rfl,?_⟩
    · rw [parts_seq label]
      exact member
    · rw [label,Regex.leaks,Regex.outerLeaks_concat]

/-- A `+` that is open at a side has one arc at this end, on its body. -/
theorem degree_plus {r : Regex} (label : t.label = .quant .plus r) {e : End}
    (side : (optimalIsolation a t).side e = false) : a'.degree e (t.tip e) = a.degree e (t.tip e) ∧
      ∃ arc ∈ parts a t .optimal, arc.tip e = t.tip e ∧ arc.label = r := by
  have straight := breaks.straight
  have source_old := breaks.source_old
  have target_old := breaks.target_old
  have counted := breaks.degree_at e
  have same := parts_plus (a := a) label
  rw [same] at counted ⊢
  rcases loop_cases (optimalIsolation a t) false r breaks.source_old breaks.target_old with
    ⟨_,_,direct⟩ | ⟨first,last,gates,isolates,isolated⟩
  · rw [direct] at counted ⊢
    refine ⟨?_,⟨t.source,t.target,r⟩,mem_directLoop.mpr (.inr rfl),by cases e <;> rfl,rfl⟩
    have back : (a.unlessPresent ⟨t.target,t.source,.epsilon⟩).countP (fun arc => arc.tip e == t.tip e) = 0 := by
      refine List.countP_eq_zero.mpr fun arc member here => ?_
      obtain ⟨rfl,_⟩ := mem_unlessPresent.mp member
      have here := eq_of_beq here
      cases e with
      | source => exact straight here.symm
      | target => exact straight here
    have one : (directLoop a t false r).countP (fun arc => arc.tip e == t.tip e) = 1 := by
      show List.countP _ (a.unlessPresent ⟨t.target,t.source,.epsilon⟩ ++ [⟨t.source,t.target,r⟩]) = 1
      rw [List.countP_append,back,List.countP_singleton]
      cases e <;> simp [Arc.tip]
    omega
  · rw [isolated] at counted ⊢
    have apart := gates.apart
    cases e with
    | source =>
      have atSource : (optimalIsolation a t).atSource = false := side
      have atTarget : (optimalIsolation a t).atTarget = true := by simpa [atSource] using isolates
      obtain rfl := (gates.first_cases.resolve_left (by simp [atSource])).2
      refine ⟨?_,⟨t.source,last,r⟩,by simp [isolatedLoop],rfl,rfl⟩
      have one : (isolatedLoop a t (optimalIsolation a t) t.source last false r).countP
          (fun arc => arc.tip .source == t.source) = 1 := by
        simp [isolatedLoop,atSource,atTarget,Arc.tip,apart.symm]
      rw [show t.tip .source = t.source from rfl,one] at counted
      exact Nat.succ_inj.mp counted
    | target =>
      have atTarget : (optimalIsolation a t).atTarget = false := side
      have atSource : (optimalIsolation a t).atSource = true := by simpa [atTarget] using isolates
      obtain rfl := (gates.last_cases.resolve_left (by simp [atTarget])).2
      refine ⟨?_,⟨first,t.target,r⟩,by simp [isolatedLoop],rfl,rfl⟩
      have one : (isolatedLoop a t (optimalIsolation a t) first t.target false r).countP
          (fun arc => arc.tip .target == t.target) = 1 := by
        simp [isolatedLoop,atSource,atTarget,Arc.tip,apart]
      rw [show t.tip .target = t.target from rfl,one] at counted
      exact Nat.succ_inj.mp counted

/-- A `+` that is open at both sides leads back on `ε`. -/
theorem hasArc_back {r : Regex} (label : t.label = .quant .plus r) (atSource : (optimalIsolation a t).atSource = false)
    (atTarget : (optimalIsolation a t).atTarget = false) : a'.graph.HasArc ⟨t.target,t.source,.epsilon⟩ := by
  refine breaks.hasArc_unlessPresent rfl fun arc member => ?_
  rw [parts_plus label,optimalIsolation_open atSource atTarget]
  exact List.mem_append_left _ member

omit breaks in
/-- The loop of an iteration stands between the gates, with `ε` back, and there is nothing else but the ways past the
    gates. -/
structure Loop (a : Automaton) (t : Transition) (a' : Automaton) (body : Regex) (first last : Nat) : Prop extends
    Gates a t (optimalIsolation a t) first last where
  back : a'.graph.HasArc ⟨last,first,.epsilon⟩
  forth : a'.graph.HasArc ⟨first,last,body⟩
  enter : (optimalIsolation a t).atSource = true → a'.graph.HasArc ⟨t.source,first,.epsilon⟩
  leave : (optimalIsolation a t).atTarget = true → a'.graph.HasArc ⟨last,t.target,.epsilon⟩
  only : ∀ arc ∈ parts a t .optimal, arc = ⟨last,first,.epsilon⟩ ∨ arc = ⟨first,last,body⟩ ∨
    ((optimalIsolation a t).atSource = true ∧ arc = ⟨t.source,first,.epsilon⟩) ∨
    ((optimalIsolation a t).atTarget = true ∧ arc = ⟨last,t.target,.epsilon⟩) ∨
    (t.label = .quant .star body ∧ arc = ⟨t.source,t.target,.epsilon⟩)

private theorem loop_isolated {isStar : Bool} {body : Regex} {first last : Nat}
    (star : isStar = true → t.label = .quant .star body) (gates : Gates a t (optimalIsolation a t) first last)
    (same : parts a t .optimal = isolatedLoop a t (optimalIsolation a t) first last isStar body) :
    Loop a t a' body first last := by
  have listed (arc : Arc) (member : arc ∈ isolatedLoop a t (optimalIsolation a t) first last isStar body) :
      a'.graph.HasArc arc := breaks.exists_part (same ▸ member)
  refine ⟨gates,listed _ ?_,listed _ ?_,fun side => listed _ ?_,fun side => listed _ ?_,fun arc member => ?_⟩
  · exact mem_isolatedLoop.mpr (.inr (.inr (.inr (.inl rfl))))
  · exact mem_isolatedLoop.mpr (.inr (.inr (.inr (.inr rfl))))
  · exact mem_isolatedLoop.mpr (.inl ⟨side,rfl⟩)
  · exact mem_isolatedLoop.mpr (.inr (.inl ⟨side,rfl⟩))
  · rw [same,mem_isolatedLoop] at member
    rcases member with enter | leave | ⟨isStar,passed,_⟩ | back | forth
    · exact .inr (.inr (.inl enter))
    · exact .inr (.inr (.inr (.inl leave)))
    · exact .inr (.inr (.inr (.inr ⟨star isStar,passed⟩)))
    · exact .inl back
    · exact .inr (.inl forth)

/-- An iteration has its loop between gates, unless it is a `*` that is open at both sides. -/
theorem exists_loop {body : Regex} (iterated : t.label.iterated? = some body) :
    ((optimalIsolation a t).atSource = false ∧ (optimalIsolation a t).atTarget = false ∧ t.label = .quant .star body) ∨
      ∃ first last, Loop a t a' body first last := by
  rcases Regex.eq_of_iterated? iterated with label | label
  · rcases loop_cases (optimalIsolation a t) true body breaks.source_old breaks.target_old with
      ⟨atSource,atTarget,_⟩ | ⟨first,last,gates,_,same⟩
    · exact .inl ⟨atSource,atTarget,label⟩
    · exact .inr ⟨first,last,breaks.loop_isolated (fun _ => label) gates ((parts_star label).trans same)⟩
  · right
    rcases loop_cases (optimalIsolation a t) false body breaks.source_old breaks.target_old with
      ⟨atSource,atTarget,same⟩ | ⟨first,last,gates,_,same⟩
    · have gates : Gates a t (optimalIsolation a t) t.source t.target := by
        refine ⟨?_,?_,breaks.straight⟩
        · rw [atSource]; rfl
        · rw [atTarget]; rfl
      have same := (parts_plus label).trans same
      refine ⟨t.source,t.target,gates,breaks.hasArc_back label atSource atTarget,breaks.exists_part ?_,?_,?_,?_⟩
      · rw [same]
        exact mem_directLoop.mpr (.inr rfl)
      · exact fun side => absurd (side.symm.trans atSource) (by decide)
      · exact fun side => absurd (side.symm.trans atTarget) (by decide)
      · intro arc member
        rw [same,mem_directLoop] at member
        rcases member with ⟨back,_⟩ | forth
        · exact .inl back
        · exact .inr (.inl forth)
    · exact ⟨first,last,breaks.loop_isolated (fun impossible : false = true => nomatch impossible) gates
        ((parts_plus label).trans same)⟩

/-- Where the target side is open, an iteration turns round at the target: either back on `ε`, or back on the body
    to the source. -/
theorem turns_round {body : Regex} (iterated : t.label.iterated? = some body)
    (atTarget : (optimalIsolation a t).atTarget = false) :
    (∃ q, a'.graph.HasArc ⟨t.target,q,.epsilon⟩) ∨
      (optimalIsolation a t).atSource = false ∧ t.label = .quant .star body ∧
        ⟨t.target,t.source,body⟩ ∈ parts a t .optimal := by
  rcases breaks.exists_loop iterated with ⟨atSource,_,label⟩ | ⟨first,last,loop⟩
  · refine .inr ⟨atSource,label,?_⟩
    rw [breaks.parts_star_open label atSource atTarget]
    exact List.mem_cons_of_mem _ List.mem_cons_self
  · obtain rfl := (loop.last_cases.resolve_left (by simp [atTarget])).2
    exact .inl ⟨first,loop.back⟩

/-! ### The states of a path -/

/-- One transition enters each state on the path, and one leaves it. -/
theorem degree_path {rs : List Regex} (label : t.label = .seq rs) (e : End) {x : Nat}
    (member : x ∈ Ids.series a.counters.nextState (rs.length - 1)) : a'.degree e x = 1 := by
  have new := (Ids.mem_series.mp member).1
  have before : a.degree e x = 0 := by
    refine List.countP_eq_zero.mpr fun v listed here => ?_
    have := breaks.tip_old (breaks.consistent.mem_transitions_iff.mp listed) e
    have := eq_of_beq here
    omega
  have other : t.tip e ≠ x := by
    have := breaks.tip_old breaks.has e
    omega
  have counted := breaks.degree_eq e x
  rw [if_neg other,before,breaks.countP_seq label,List.count_cons_of_ne other,
    List.count_eq_one_of_mem (Ids.nodup_series _ _) member] at counted
  exact counted

/-- The path begins with the first factor, which leads to a new state. -/
theorem path_first {r s : Regex} {rs : List Regex} (label : t.label = .seq (r :: s :: rs)) :
    ∃ x, a.counters.nextState ≤ x ∧ ⟨t.source,x,r⟩ ∈ parts a t .optimal ∧ a'.degree .target x = 1 := by
  refine ⟨a.counters.nextState,Nat.le_refl _,?_,?_⟩
  · rw [parts_seq label]
    exact List.mem_cons_self
  · exact breaks.degree_path label .target (Ids.mem_series.mpr ⟨Nat.le_refl _,by simp⟩)

/-- The path ends with the last two factors, around a new state. -/
theorem path_last {init : List Regex} {s r : Regex} (label : t.label = .seq (init ++ [s] ++ [r])) :
    ∃ p x, a.counters.nextState ≤ x ∧ p < x ∧ ⟨p,x,s⟩ ∈ parts a t .optimal ∧ ⟨x,t.target,r⟩ ∈ parts a t .optimal ∧
      a'.degree .source x = 1 ∧ a'.degree .target x = 1 := by
  have source_old := breaks.source_old
  have shorter : (init ++ [s] ++ [r]).length - 1 = init.length + 1 := by simp
  have listed : a.counters.nextState + init.length ∈
      Ids.series a.counters.nextState ((init ++ [s] ++ [r]).length - 1) := by
    rw [shorter]
    exact Ids.mem_series.mpr ⟨Nat.le_add_right _ _,by omega⟩
  have split : parts a t .optimal = chain t.source (Ids.series a.counters.nextState init.length)
      (a.counters.nextState + init.length) (init ++ [s]) ++ [⟨a.counters.nextState + init.length,t.target,r⟩] := by
    rw [parts_seq label,shorter,Ids.series_concat,chain_concat (by simp)]
  have short : init.length = (Ids.series a.counters.nextState init.length).length := (Ids.length_series _ _).symm
  obtain ⟨p,before,member⟩ := last_mem_chain t.source (a.counters.nextState + init.length) short s
  refine ⟨p,a.counters.nextState + init.length,Nat.le_add_right _ _,?_,?_,?_,breaks.degree_path label .source listed,
    breaks.degree_path label .target listed⟩
  · rcases List.mem_cons.mp before with rfl | between
    · omega
    · have := (Ids.mem_series.mp between).2
      omega
  · rw [split]
    exact List.mem_append_left _ member
  · rw [split]
    exact List.mem_append_right _ List.mem_cons_self

end Breaks
end StepwiseAutomata.Breakdown
