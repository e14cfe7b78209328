import StepwiseAutomata.Proofs.Rewriting

namespace StepwiseAutomata.Breakdown

variable {a : Automaton} {t : Transition}

private theorem joins_chain {states : List Nat} {labels : List Regex} (arc : Arc)
    (member : arc ∈ chain t.source states t.target labels) (s : Nat) (here : s = arc.source ∨ s = arc.target) :
    s = t.source ∨ s = t.target ∨ s ∈ states := by
  obtain ⟨⟨⟨p,q⟩,r⟩,listed,rfl⟩ := List.mem_map.mp member
  obtain ⟨first,second⟩ := List.of_mem_zip (List.of_mem_zip listed).1
  rcases here with rfl | rfl
  · exact (List.mem_cons.mp first).imp_right .inr
  · rcases List.mem_append.mp second with old | last
    · exact .inr (.inr old)
    · exact .inr (.inl (List.mem_singleton.mp last))

theorem mem_unlessPresent {x arc : Arc} : x ∈ a.unlessPresent arc ↔ x = arc ∧ a.hasArc arc = false := by
  unfold Automaton.unlessPresent
  cases a.hasArc arc <;> simp

/-- The arcs of a loop between the ends. -/
theorem mem_directLoop {isStar : Bool} {body : Regex} {arc : Arc} : arc ∈ directLoop a t isStar body ↔
    if isStar then
      (arc = ⟨t.source,t.target,.epsilon⟩ ∧ a.hasArc arc = false) ∨ arc = ⟨t.target,t.source,body⟩
    else (arc = ⟨t.target,t.source,.epsilon⟩ ∧ a.hasArc arc = false) ∨ arc = ⟨t.source,t.target,body⟩ := by
  have swap (x y : Arc) : (x = y ∧ a.hasArc y = false) ↔ (x = y ∧ a.hasArc x = false) :=
    and_congr_right fun same => by rw [same]
  cases isStar
  · simp only [directLoop,List.mem_append,List.mem_singleton,mem_unlessPresent,swap]
    exact Iff.rfl
  · simp only [directLoop,List.mem_append,List.mem_singleton,mem_unlessPresent,swap]
    exact Iff.rfl

/-- The arcs of a loop that is kept apart from the ends. -/
theorem mem_isolatedLoop {level : Isolation} {first last : Nat} {isStar : Bool} {body : Regex} {arc : Arc} :
    arc ∈ isolatedLoop a t level first last isStar body ↔
      (level.atSource = true ∧ arc = ⟨t.source,first,.epsilon⟩) ∨
      (level.atTarget = true ∧ arc = ⟨last,t.target,.epsilon⟩) ∨
      (isStar = true ∧ arc = ⟨t.source,t.target,.epsilon⟩ ∧ a.hasArc ⟨t.source,t.target,.epsilon⟩ = false) ∨
      arc = ⟨last,first,.epsilon⟩ ∨ arc = ⟨first,last,body⟩ := by
  have guarded (b : Bool) (xs : List Arc) : (arc ∈ if b = true then xs else []) ↔ b = true ∧ arc ∈ xs := by
    cases b <;> simp
  simp only [isolatedLoop,List.mem_append,guarded,mem_unlessPresent,List.mem_cons,List.not_mem_nil,or_false,or_assoc]

/-- The number of new states that a loop stands between. -/
def newStates (level : Isolation) : Nat := level.atSource.toNat + level.atTarget.toNat

/-- The isolation that the policy asks for. -/
def levelFor (a : Automaton) (t : Transition) : IsolationPolicy → Isolation
  | .optimal => optimalIsolation a t
  | .full => .full

theorem label_mem_of_mem_chain {source target : Nat} {states : List Nat} {rs : List Regex} {arc : Arc}
    (member : arc ∈ chain source states target rs) : arc.label ∈ rs := by
  obtain ⟨_,listed,rfl⟩ := List.mem_map.mp member
  exact (List.of_mem_zip listed).2

private theorem covers_levelFor (policy : IsolationPolicy) :
    (levelFor a t policy).covers (optimalIsolation a t) = true := by
  cases policy with
  | optimal => simp [levelFor,Isolation.covers]
  | full => simp [levelFor,Isolation.covers,Isolation.full]

/-- A breakdown that is made is one of a present transition. -/
theorem has_of_requirePresent {rest : Except Refusal Plan} {p : Plan}
    (made : (requirePresent a t >>= fun _ => rest) = .ok p) : a.graph.Has t ∧ rest = .ok p := by
  unfold requirePresent at made
  by_cases present : a.transition? t.id = some t
  · rw [if_pos present] at made
    exact ⟨present,made⟩
  · rw [if_neg present] at made
    cases made

section
variable [Ids]

/-- New states, as many as said, and arcs in place of a transition. -/
def replacement (a : Automaton) (t : Transition) (n : Nat) (arcs : List Arc) : Rewriting where
  removed := [t]
  created := (Ids.series a.counters.nextState n).map fun s => ⟨s,false⟩
  arcs

/-- The arcs lead between the ends of the transition and the new states. -/
def Joins (a : Automaton) (t : Transition) (n : Nat) (arcs : List Arc) : Prop :=
  ∀ arc ∈ arcs, ∀ s, s = arc.source ∨ s = arc.target →
    s = t.source ∨ s = t.target ∨ s ∈ Ids.series a.counters.nextState n

theorem replacing_eq (n : Nat) (arcs : List Arc) (notes : List Note) :
    replacing a t (Ids.series a.counters.nextState n) arcs notes =
      (replacement a t n arcs).plan a s!"Break down {t.label} on {t.source} -> {t.target}" notes := by
  rw [Rewriting.plan,Rewriting.edits,Rewriting.removals,replacement,List.map_map]
  show Plan.ofEdits a _ _ notes = Plan.ofEdits a _ (_ ++ []) notes
  rw [List.append_nil]
  rfl

theorem graph_replacing (n : Nat) (arcs : List Arc) (notes : List Note) :
    (a.perform (replacing a t (Ids.series a.counters.nextState n) arcs notes)).graph =
      a.graph.editAll ((replacement a t n arcs).edits a) := by
  rw [Automaton.graph_perform,replacing_eq,Rewriting.edits_plan]

theorem map_id_created (n : Nat) (arcs : List Arc) :
    (replacement a t n arcs).created.map State.id = Ids.series a.counters.nextState n := by
  rw [replacement,List.map_map]
  exact List.map_id _

theorem replacement_fits (consistent : a.Consistent) (has : a.graph.Has t) {n : Nat} {arcs : List Arc}
    (joins : Joins a t n arcs) : (replacement a t n arcs).Fits a where
  removed_nodup := List.nodup_singleton t
  removed_has := by
    intro u member
    rw [List.mem_singleton.mp member]
    exact has
  dropped_nodup := List.nodup_nil
  dropped_flag := nofun
  dropped_other := nofun
  dropped_unused := nofun
  created_ids := by
    rw [map_id_created]
    simp [replacement]
  ends := by
    intro arc member s here
    rw [map_id_created]
    rcases joins arc member s here with rfl | rfl | new
    · exact .inr ⟨consistent.closed.source_present t has,List.not_mem_nil⟩
    · exact .inr ⟨consistent.closed.target_present t has,List.not_mem_nil⟩
    · exact .inl new
  promoted_flag := nofun

theorem loop_states (level : Isolation) (isStar : Bool) (body : Regex) :
    (loop a t level isStar body).1 = Ids.series a.counters.nextState (newStates level) := by
  obtain ⟨atSource,atTarget⟩ := level
  cases atSource <;> cases atTarget <;> rfl

theorem joins_loop (level : Isolation) (isStar : Bool) (body : Regex) :
    Joins a t (newStates level) (loop a t level isStar body).2 := by
  have direct : Joins a t 0 (directLoop a t isStar body) := by
    intro arc member s here
    rw [mem_directLoop] at member
    cases isStar with
    | false => rcases member with ⟨rfl,_⟩ | rfl <;> exact here.elim (by simp_all) (by simp_all)
    | true => rcases member with ⟨rfl,_⟩ | rfl <;> exact here.elim (by simp_all) (by simp_all)
  have isolated (level : Isolation) (n first last : Nat)
      (starts : first = t.source ∨ first ∈ Ids.series a.counters.nextState n)
      (stops : last = t.target ∨ last ∈ Ids.series a.counters.nextState n) :
      Joins a t n (isolatedLoop a t level first last isStar body) := by
    intro arc member s here
    rcases mem_isolatedLoop.mp member with ⟨_,rfl⟩ | ⟨_,rfl⟩ | ⟨_,rfl,_⟩ | rfl | rfl <;> grind
  obtain ⟨atSource,atTarget⟩ := level
  cases atSource with
  | false =>
    cases atTarget with
    | false => exact direct
    | true => exact isolated _ 1 _ _ (.inl rfl) (.inr List.mem_cons_self)
  | true =>
    cases atTarget with
    | false => exact isolated _ 1 _ _ (.inr List.mem_cons_self) (.inl rfl)
    | true => exact isolated _ 2 _ _ (.inr List.mem_cons_self) (.inr (List.mem_cons_of_mem _ List.mem_cons_self))

/-- How many states and which arcs come in place of a transition. -/
def expansion (a : Automaton) (t : Transition) (policy : IsolationPolicy) : Nat × List Arc :=
  match t.label with
  | .char _ => (0,[])
  | .choice rs => (0,rs.map fun r => ⟨t.source,t.target,r⟩)
  | .seq rs => (rs.length - 1,chain t.source (Ids.series a.counters.nextState (rs.length - 1)) t.target rs)
  | .quant .option r => (0,⟨t.source,t.target,r⟩ :: a.unlessPresent ⟨t.source,t.target,.epsilon⟩)
  | .quant .star r => (newStates (levelFor a t policy),(loop a t (levelFor a t policy) true r).2)
  | .quant .plus r => (newStates (levelFor a t policy),(loop a t (levelFor a t policy) false r).2)

theorem label_of_mem_loop {level : Isolation} {isStar : Bool} {body : Regex} {arc : Arc}
    (member : arc ∈ (loop a t level isStar body).2) : arc.label = .epsilon ∨ arc.label = body := by
  have direct (member : arc ∈ directLoop a t isStar body) : arc.label = .epsilon ∨ arc.label = body := by
    rw [mem_directLoop] at member
    cases isStar with
    | true =>
      rcases member with ⟨rfl,_⟩ | rfl
      · exact .inl rfl
      · exact .inr rfl
    | false =>
      rcases member with ⟨rfl,_⟩ | rfl
      · exact .inl rfl
      · exact .inr rfl
  have isolated {first last : Nat} (member : arc ∈ isolatedLoop a t level first last isStar body) :
      arc.label = .epsilon ∨ arc.label = body := by
    rcases mem_isolatedLoop.mp member with ⟨_,rfl⟩ | ⟨_,rfl⟩ | ⟨_,rfl,_⟩ | rfl | rfl
    · exact .inl rfl
    · exact .inl rfl
    · exact .inl rfl
    · exact .inl rfl
    · exact .inr rfl
  obtain ⟨atSource,atTarget⟩ := level
  cases atSource with
  | false => cases atTarget with
    | false => exact direct member
    | true => exact isolated member
  | true => cases atTarget with
    | false => exact isolated member
    | true => exact isolated member

/-- Every label is `ε` or comes from directly under the operator that is taken away. -/
theorem label_of_mem_expansion {policy : IsolationPolicy} {arc : Arc} (member : arc ∈ (expansion a t policy).2) :
    arc.label = .epsilon ∨ arc.label ∈ t.label.children := by
  unfold expansion at member
  cases label : t.label with
  | char c => rw [label] at member; cases member
  | choice rs =>
    rw [label] at member
    obtain ⟨r,listed,rfl⟩ := List.mem_map.mp member
    exact .inr listed
  | seq rs =>
    rw [label] at member
    exact .inr (label_mem_of_mem_chain member)
  | quant q r =>
    have body {l : Regex} (cases : l = .epsilon ∨ l = r) : l = .epsilon ∨ l ∈ (Regex.quant q r).children :=
      cases.imp_right List.mem_singleton.mpr
    rw [label] at member
    cases q with
    | star => exact body (label_of_mem_loop member)
    | plus => exact body (label_of_mem_loop member)
    | option =>
      rcases List.mem_cons.mp member with rfl | passing
      · exact body (.inr rfl)
      · rw [(mem_unlessPresent.mp passing).1]
        exact .inl rfl

/-- An iteration is broken down at every level that covers the least one. -/
theorem iteration_eq (has : a.graph.Has t) {level : Isolation} (covers : level.covers (optimalIsolation a t) = true)
    (isStar : Bool) {body : Regex} (label : t.label = .quant (if isStar then .star else .plus) body) :
    iteration a t level = .ok (replacing a t (Ids.series a.counters.nextState (newStates level))
      (loop a t level isStar body).2 [.breakingIteration t.label level]) := by
  have present : requirePresent a t = .ok () := if_pos has
  have ofLoop : ofLoop a t level isStar body = .ok (replacing a t (Ids.series a.counters.nextState (newStates level))
      (loop a t level isStar body).2 [.breakingIteration t.label level]) := by
    rw [Breakdown.ofLoop]
    simp only [covers,if_true]
    rw [← loop_states level isStar body]
  rw [iteration,present,← ofLoop,label]
  cases isStar <;> rfl

/-- A present transition with an operator in its label can always be broken down. -/
theorem ofLabel_eq (has : a.graph.Has t) (policy : IsolationPolicy) (compound : t.label.isCompound = true) :
    ∃ notes, ofLabel a t policy = .ok (some (replacing a t
      (Ids.series a.counters.nextState (expansion a t policy).1) (expansion a t policy).2 notes)) := by
  have present : requirePresent a t = .ok () := if_pos has
  unfold ofLabel expansion
  cases label : t.label with
  | char c => simp [label,Regex.isCompound] at compound
  | choice rs =>
    refine ⟨[],?_⟩
    simp only [choice,present,label]
    rfl
  | seq rs =>
    refine ⟨[],?_⟩
    simp only [sequence,present,label]
    rfl
  | quant q r =>
    cases q with
    | option =>
      refine ⟨[],?_⟩
      simp only [option,present,label]
      rfl
    | star =>
      refine ⟨[.breakingIteration t.label (levelFor a t policy)],?_⟩
      show (iteration a t (levelFor a t policy)).map some = _
      rw [iteration_eq has (covers_levelFor policy) true label]
      rfl
    | plus =>
      refine ⟨[.breakingIteration t.label (levelFor a t policy)],?_⟩
      show (iteration a t (levelFor a t policy)).map some = _
      rw [iteration_eq has (covers_levelFor policy) false label]
      rfl

theorem ofLabel_char {c : Char} (label : t.label = .char c) (policy : IsolationPolicy) :
    ofLabel a t policy = .ok none := by
  simp only [ofLabel,label]

theorem joins_expansion (policy : IsolationPolicy) :
    Joins a t (expansion a t policy).1 (expansion a t policy).2 := by
  have parallel (arcs : List Arc) (those : ∀ arc ∈ arcs, arc.source = t.source ∧ arc.target = t.target) :
      Joins a t 0 arcs := by
    intro arc member s here
    rw [(those arc member).1,(those arc member).2] at here
    exact here.imp_right .inl
  unfold expansion
  cases t.label with
  | char c => exact nofun
  | choice rs =>
    refine parallel _ fun arc member => ?_
    obtain ⟨r,_,rfl⟩ := List.mem_map.mp member
    exact ⟨rfl,rfl⟩
  | seq rs => exact fun arc member s here => joins_chain arc member s here
  | quant q r =>
    cases q with
    | option =>
      refine parallel _ fun arc member => ?_
      rcases List.mem_cons.mp member with rfl | passing
      · exact ⟨rfl,rfl⟩
      · obtain ⟨rfl,_⟩ := mem_unlessPresent.mp passing
        exact ⟨rfl,rfl⟩
    | star => exact joins_loop _ true r
    | plus => exact joins_loop _ false r

/-- An iteration that is broken down is one, and the level covers the least one. -/
theorem iteration_cases {level : Isolation} {p : Plan} (made : iteration a t level = .ok p) : a.graph.Has t ∧
    level.covers (optimalIsolation a t) = true ∧ ∃ (isStar : Bool) (body : Regex),
      t.label = .quant (if isStar then .star else .plus) body ∧
      p = replacing a t (Ids.series a.counters.nextState (newStates level)) (loop a t level isStar body).2
        [.breakingIteration t.label level] := by
  obtain ⟨has,rest⟩ := has_of_requirePresent made
  have some : ∃ (isStar : Bool) (body : Regex), t.label = .quant (if isStar then .star else .plus) body ∧
      ofLoop a t level isStar body = .ok p := by
    split at rest
    · exact ⟨true,_,‹_›,rest⟩
    · exact ⟨false,_,‹_›,rest⟩
    · cases rest
  obtain ⟨isStar,body,label,looped⟩ := some
  have covers : level.covers (optimalIsolation a t) = true := by
    by_contra short
    have refused : ofLoop a t level isStar body = .error (.insufficientIsolation level (optimalIsolation a t)) :=
      if_neg short
    cases refused.symm.trans looped
  exact ⟨has,covers,isStar,body,label,Except.ok.inj (made.symm.trans (iteration_eq has covers isStar label))⟩

/-- One of the ways to break a transition down has made the plan. -/
inductive BreaksDown (a : Automaton) (t : Transition) : Plan → Prop
  | choice {p : Plan} : choice a t = .ok p → BreaksDown a t p
  | sequence {p : Plan} : sequence a t = .ok p → BreaksDown a t p
  | option {p : Plan} : option a t = .ok p → BreaksDown a t p
  | iteration {level : Isolation} {p : Plan} : iteration a t level = .ok p → BreaksDown a t p

/-- The breakdown that fits the label is one of them. -/
theorem breaksDown_of_ofLabel {policy : IsolationPolicy} {p : Plan} (made : ofLabel a t policy = .ok (some p)) :
    BreaksDown a t p := by
  have mapped {x : Except Refusal Plan} (made : x.map some = .ok (some p)) : x = .ok p := by
    cases x with
    | error e => cases made
    | ok q => cases made; rfl
  unfold ofLabel at made
  split at made
  · cases made
  · exact .choice (mapped made)
  · exact .sequence (mapped made)
  · exact .option (mapped made)
  · exact .iteration (mapped made)

/-- The parts of a label come in place of the transition, and for an iteration a loop at some level. -/
theorem BreaksDown.cases {p : Plan} (breaks : BreaksDown a t p) : a.graph.Has t ∧
    ((t.label.isCompound = true ∧ ∃ policy notes, p = replacing a t
      (Ids.series a.counters.nextState (expansion a t policy).1) (expansion a t policy).2 notes) ∨
    ∃ level isStar body, t.label = .quant (if isStar then .star else .plus) body ∧ ∃ notes, p = replacing a t
      (Ids.series a.counters.nextState (newStates level)) (loop a t level isStar body).2 notes) := by
  have fitting {made : Except Refusal Plan} (ok : made = .ok p) (compound : t.label.isCompound = true)
      (fits : ofLabel a t .optimal = made.map some) (has : a.graph.Has t) : ∃ policy notes, p = replacing a t
        (Ids.series a.counters.nextState (expansion a t policy).1) (expansion a t policy).2 notes := by
    obtain ⟨notes,expanded⟩ := ofLabel_eq has .optimal compound
    rw [fits,ok] at expanded
    exact ⟨.optimal,notes,Option.some.inj (Except.ok.inj expanded)⟩
  cases breaks with
  | choice made =>
    obtain ⟨has,rest⟩ := has_of_requirePresent made
    split at rest
    · rename_i rs label
      have compound : t.label.isCompound = true := by rw [label]; rfl
      exact ⟨has,.inl ⟨compound,fitting made compound (by simp only [ofLabel,label]) has⟩⟩
    · cases rest
  | sequence made =>
    obtain ⟨has,rest⟩ := has_of_requirePresent made
    split at rest
    · rename_i rs label
      have compound : t.label.isCompound = true := by rw [label]; rfl
      exact ⟨has,.inl ⟨compound,fitting made compound (by simp only [ofLabel,label]) has⟩⟩
    · cases rest
  | option made =>
    obtain ⟨has,rest⟩ := has_of_requirePresent made
    split at rest
    · rename_i r label
      have compound : t.label.isCompound = true := by rw [label]; rfl
      exact ⟨has,.inl ⟨compound,fitting made compound (by simp only [ofLabel,label]) has⟩⟩
    · cases rest
  | iteration made =>
    obtain ⟨has,_,isStar,body,label,same⟩ := iteration_cases made
    exact ⟨has,.inr ⟨_,isStar,body,label,_,same⟩⟩

end

section
attribute [local instance] Ids.endless

/-- Whatever joins the ends of the transition and new states makes a sound plan. -/
theorem replacing_sound (consistent : a.Consistent) (has : a.graph.Has t) {n : Nat} {arcs : List Arc}
    (joins : Joins a t n arcs) (notes : List Note) :
    (replacing a t (Ids.series a.counters.nextState n) arcs notes).Sound a := by
  rw [replacing_eq]
  exact Rewriting.sound consistent (replacement_fits consistent has joins) _ _

/-- A breakdown makes a sound plan. -/
theorem sound (consistent : a.Consistent) (has : a.graph.Has t) (policy : IsolationPolicy) (notes : List Note) :
    (replacing a t (Ids.series a.counters.nextState (expansion a t policy).1)
      (expansion a t policy).2 notes).Sound a :=
  replacing_sound consistent has (joins_expansion policy) notes

theorem BreaksDown.sound {p : Plan} (breaks : BreaksDown a t p) (consistent : a.Consistent) : p.Sound a := by
  obtain ⟨has,⟨_,policy,notes,rfl⟩ | ⟨level,isStar,body,_,notes,rfl⟩⟩ := breaks.cases
  · exact Breakdown.sound consistent has policy notes
  · exact replacing_sound consistent has (joins_loop level isStar body) notes

end

end StepwiseAutomata.Breakdown
