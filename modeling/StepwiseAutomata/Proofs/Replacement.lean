import StepwiseAutomata.Proofs.Loops

namespace StepwiseAutomata.Breakdown
open scoped Computability

attribute [local instance] Ids.endless

variable {a a' : Automaton} {t : Transition} {policy : IsolationPolicy}

/-- The arcs that come in place of the transition. -/
def parts (a : Automaton) (t : Transition) (policy : IsolationPolicy) : List Arc := (expansion a t policy).2

theorem parts_choice {rs : List Regex} (label : t.label = .choice rs) :
    parts a t policy = rs.map fun r => ⟨t.source,t.target,r⟩ := by
  simp only [parts,expansion,label]

theorem parts_seq {rs : List Regex} (label : t.label = .seq rs) :
    parts a t policy = chain t.source (Ids.series a.counters.nextState (rs.length - 1)) t.target rs := by
  simp only [parts,expansion,label]

theorem parts_option {r : Regex} (label : t.label = .quant .option r) :
    parts a t policy = ⟨t.source,t.target,r⟩ :: a.unlessPresent ⟨t.source,t.target,.epsilon⟩ := by
  simp only [parts,expansion,label]

theorem chain_cons (source s target : Nat) (states : List Nat) (r : Regex) (rs : List Regex) :
    chain source (s :: states) target (r :: rs) = ⟨source,s,r⟩ :: chain s states target rs := rfl

/-- A path through new states reads the words of its factors one after the other. -/
theorem prod_mul_accepts_le {g : Graph} {source target : Nat} {states : List Nat} {rs : List Regex}
    (length : rs.length = states.length + 1) (arcs : ∀ arc ∈ chain source states target rs, g.HasArc arc) :
    (rs.map Regex.language).prod * g.accepts target ≤ g.accepts source := by
  induction states generalizing source rs with
  | nil =>
    obtain ⟨r,rfl⟩ := List.length_eq_one_iff.mp length
    have arc := arcs _ List.mem_cons_self
    simpa using Graph.mul_accepts_le arc
  | cons s states ih =>
    obtain ⟨r,rs,rfl⟩ := List.exists_cons_of_length_eq_add_one length
    rw [chain_cons] at arcs
    obtain ⟨first,rest⟩ := List.forall_mem_cons.mp arcs
    rw [List.map_cons,List.prod_cons,mul_assoc]
    exact (mul_le_mul' le_rfl (ih (by simpa using length) rest)).trans (Graph.mul_accepts_le first)

/-- The inequalities of a path hold when every new state is assigned the words of the factors that are left. -/
theorem mul_le_of_mem_chain {Z : Nat → Language Char} {source target n m : Nat} {rs : List Regex}
    (length : rs.length = m + 1) (first : (rs.map Regex.language).prod * Z target ≤ Z source)
    (rest : ∀ i < m, Z (n + i) = ((rs.drop (i + 1)).map Regex.language).prod * Z target) {arc : Arc}
    (member : arc ∈ chain source (Ids.series n m) target rs) : arc.label.language * Z arc.target ≤ Z arc.source := by
  induction m generalizing source n rs with
  | zero =>
    obtain ⟨r,rfl⟩ := List.length_eq_one_iff.mp length
    obtain rfl := List.mem_singleton.mp member
    simpa using first
  | succ m ih =>
    obtain ⟨r,rs,rfl⟩ := List.exists_cons_of_length_eq_add_one length
    have next : Z n = (rs.map Regex.language).prod * Z target := rest 0 (by omega)
    rw [Ids.series_succ,chain_cons] at member
    rcases List.mem_cons.mp member with rfl | later
    · rw [List.map_cons,List.prod_cons,mul_assoc,← next] at first
      exact first
    · refine ih (by simpa using length) (le_of_eq next.symm) (fun i small => ?_) later
      have here := rest (i + 1) (by omega)
      rw [show n + (i + 1) = n + 1 + i by omega] at here
      exact here

/-- The automaton has become the other by breaking the transition down. -/
structure Replaces (policy : IsolationPolicy) (a : Automaton) (t : Transition) (a' : Automaton) : Prop where
  consistent : a.Consistent
  has : a.graph.Has t
  compound : t.label.isCompound = true
  flat : t.label.Flat
  graph : a'.graph = a.graph.editAll ((replacement a t (expansion a t policy).1 (parts a t policy)).edits a)

namespace Replaces

variable (replaces : Replaces policy a t a')
include replaces

theorem swaps : Swaps a t (expansion a t policy).1 (parts a t policy) a' :=
  ⟨replaces.consistent,replaces.has,joins_expansion _,replaces.graph⟩

theorem fits : (replacement a t (expansion a t policy).1 (parts a t policy)).Fits a := replaces.swaps.fits

/-- Transitions lead between states that are there. -/
theorem tip_old {v : Transition} (has : a.graph.Has v) (e : End) : v.tip e < a.counters.nextState :=
  replaces.swaps.tip_old has e

theorem source_old : t.source < a.counters.nextState := replaces.tip_old replaces.has .source

theorem target_old : t.target < a.counters.nextState := replaces.tip_old replaces.has .target

theorem start_old : a.start < a.counters.nextState :=
  replaces.consistent.below.state _ replaces.consistent.closed.start_present

theorem final_old {q : Nat} (isFinal : a.graph.IsFinal q) : q < a.counters.nextState := replaces.swaps.final_old isFinal

theorem has_iff (v : Transition) :
    a'.graph.Has v ↔ v ∈ a.counters.number (parts a t policy) ∨ a.graph.Has v ∧ v ≠ t := replaces.swaps.has_iff v

theorem kept {v : Transition} (has : a.graph.Has v) (other : v ≠ t) : a'.graph.Has v := replaces.swaps.kept has other

theorem kept_plain {v : Transition} (has : a.graph.Has v) (plain : v.label.isCompound = false) : a'.graph.Has v := by
  refine replaces.kept has ?_
  rintro rfl
  rw [replaces.compound] at plain
  cases plain

theorem exists_part {arc : Arc} (member : arc ∈ parts a t policy) : ∃ v, a'.graph.Has v ∧ v.toArc = arc :=
  replaces.swaps.exists_part member

theorem hasArc_iff (arc : Arc) :
    a'.graph.HasArc arc ↔ arc ∈ parts a t policy ∨ ∃ v, (a.graph.Has v ∧ v ≠ t) ∧ v.toArc = arc :=
  replaces.swaps.hasArc_iff arc

theorem start_eq : a'.start = a.start := replaces.swaps.start_eq

theorem isFinal_iff (q : Nat) : a'.graph.IsFinal q ↔ a.graph.IsFinal q := replaces.swaps.isFinal_iff q

/-- What is broken down is a choice, a sequence, an option or an iteration, and flat. -/
theorem label_cases : (∃ rs, t.label = .choice rs ∧ 2 ≤ rs.length ∧ ∀ r ∈ rs, r.Flat) ∨
    (∃ rs, t.label = .seq rs ∧ 2 ≤ rs.length ∧ ∀ r ∈ rs, r.Flat ∧ r.operator ≠ .sequence) ∨
    (∃ r, t.label = .quant .option r ∧ r.Flat) ∨ (∃ r, t.label = .quant .star r ∧ r.Flat) ∨
    ∃ r, t.label = .quant .plus r ∧ r.Flat := by
  have flat := replaces.flat
  cases label : t.label with
  | char c =>
    have compound := replaces.compound
    rw [label] at compound
    cases compound
  | choice rs =>
    rw [label] at flat
    cases flat with
    | choice some each _ => exact .inl ⟨rs,rfl,some,each⟩
  | seq rs =>
    rw [label] at flat
    cases flat with
    | seq some each other => exact .inr (.inl ⟨rs,rfl,some,fun r member => ⟨each r member,other r member⟩⟩)
  | quant q r =>
    rw [label] at flat
    cases flat with
    | quant _ flat =>
      cases q with
      | option => exact .inr (.inr (.inl ⟨r,rfl,flat⟩))
      | star => exact .inr (.inr (.inr (.inl ⟨r,rfl,flat⟩)))
      | plus => exact .inr (.inr (.inr (.inr ⟨r,rfl,flat⟩)))

/-- An arc that is added unless it is present is there afterwards. -/
theorem hasArc_unlessPresent {arc : Arc} (plain : arc.label.isCompound = false)
    (sub : a.unlessPresent arc ⊆ parts a t policy) : a'.graph.HasArc arc := by
  refine replaces.swaps.hasArc_unlessPresent ?_ sub
  rintro rfl
  rw [replaces.compound] at plain
  cases plain

/-- What solves the inequalities afterwards, and that of the transition, is not less than what was accepted. -/
theorem accepts_le {Z : Nat → Language Char} (final : ∀ q, a.graph.IsFinal q → 1 ≤ Z q)
    (arcs : ∀ p q l, a'.graph.HasArc ⟨p,q,l⟩ → l.language * Z q ≤ Z p)
    (whole : t.label.language * Z t.target ≤ Z t.source) (p : Nat) : a.graph.accepts p ≤ Z p :=
  replaces.swaps.accepts_le final arcs whole p

/-- What solves the inequalities of the other transitions and of the fragment is not less than what is accepted
    afterwards. -/
theorem accepts_after_le {Z : Nat → Language Char} (final : ∀ q, a.graph.IsFinal q → 1 ≤ Z q)
    (old : ∀ v, a.graph.Has v → v ≠ t → v.label.language * Z v.target ≤ Z v.source)
    (new : ∀ arc ∈ parts a t policy, arc.label.language * Z arc.target ≤ Z arc.source) (p : Nat) :
    a'.graph.accepts p ≤ Z p := replaces.swaps.accepts_after_le final old new p

/-- Nothing is lost when the fragment can be passed on the words of the transition. -/
theorem le_accepts_after (whole : t.label.language * a'.graph.accepts t.target ≤ a'.graph.accepts t.source) (p : Nat) :
    a.graph.accepts p ≤ a'.graph.accepts p := replaces.swaps.le_accepts_after whole p

omit replaces in
/-- What was accepted from the states that were there, and something else for the new ones. -/
def extended (a : Automaton) (fresh : Nat → Language Char) (x : Nat) : Language Char :=
  if x < a.counters.nextState then a.graph.accepts x else fresh x

omit replaces in
theorem extended_old (fresh : Nat → Language Char) {x : Nat} (old : x < a.counters.nextState) :
    extended a fresh x = a.graph.accepts x := if_pos old

omit replaces in
theorem extended_new (fresh : Nat → Language Char) {x : Nat} (new : a.counters.nextState ≤ x) :
    extended a fresh x = fresh x := if_neg (Nat.not_lt_of_le new)

/-- The fragment reads what the transition read, as long as it can be passed as a whole and its inequalities are solved
    by what was accepted, once the new states are assigned something. -/
theorem accepts_eq_of (fresh : Nat → Language Char)
    (whole : t.label.language * a'.graph.accepts t.target ≤ a'.graph.accepts t.source)
    (new : ∀ arc ∈ parts a t policy, arc.label.language * extended a fresh arc.target ≤ extended a fresh arc.source)
    {p : Nat} (old : p < a.counters.nextState) : a'.graph.accepts p = a.graph.accepts p := by
  refine le_antisymm ?_ (replaces.le_accepts_after whole p)
  rw [← extended_old fresh old]
  refine replaces.accepts_after_le (fun q isFinal => ?_) (fun v has _ => ?_) new p
  · rw [extended_old _ (replaces.final_old isFinal)]
    exact Graph.one_le_accepts isFinal
  · rw [extended_old _ (show v.source < _ from replaces.tip_old has .source),
      extended_old _ (show v.target < _ from replaces.tip_old has .target)]
    exact Graph.mul_accepts_le ⟨v,has,rfl⟩

theorem accepts_choice {rs : List Regex} (label : t.label = .choice rs) {p : Nat} (old : p < a.counters.nextState) :
    a'.graph.accepts p = a.graph.accepts p := by
  refine replaces.accepts_eq_of (fun _ => 0) ?_ (fun arc member => ?_) old
  · intro w member
    obtain ⟨u,first,v,rest,rfl⟩ := Language.mem_mul.mp member
    rw [label,Regex.language_choice] at first
    obtain ⟨r,listed,first⟩ := Regex.mem_languageSum.mp first
    have arc : a'.graph.HasArc ⟨t.source,t.target,r⟩ :=
      replaces.exists_part (by rw [parts_choice label]; exact List.mem_map_of_mem listed)
    exact Graph.append_mem_accepts arc first rest
  · rw [parts_choice label] at member
    obtain ⟨r,listed,rfl⟩ := List.mem_map.mp member
    have below : r.language ≤ t.label.language := by
      intro w inside
      rw [label,Regex.language_choice]
      exact Regex.mem_languageSum.mpr ⟨r,listed,inside⟩
    rw [extended_old _ replaces.source_old,extended_old _ replaces.target_old]
    exact (mul_le_mul' below le_rfl).trans (Graph.mul_accepts_le ⟨t,replaces.has,rfl⟩)

theorem accepts_option {r : Regex} (label : t.label = .quant .option r) {p : Nat} (old : p < a.counters.nextState) :
    a'.graph.accepts p = a.graph.accepts p := by
  have language : t.label.language = 1 + r.language := by
    rw [label,Regex.language_quant]
    rfl
  have step := Graph.mul_accepts_le (g := a.graph) ⟨t,replaces.has,rfl⟩
  rw [language,add_mul,one_mul] at step
  refine replaces.accepts_eq_of (fun _ => 0) ?_ (fun arc member => ?_) old
  · rw [language,add_mul,one_mul]
    have passed : a'.graph.HasArc ⟨t.source,t.target,.epsilon⟩ := replaces.hasArc_unlessPresent rfl fun arc member => by
      rw [parts_option label]
      exact List.mem_cons_of_mem _ member
    have arc : a'.graph.HasArc ⟨t.source,t.target,r⟩ :=
      replaces.exists_part (by rw [parts_option label]; exact List.mem_cons_self)
    exact sup_le (Graph.accepts_le_of_epsilon passed) (Graph.mul_accepts_le arc)
  · rw [parts_option label] at member
    rcases List.mem_cons.mp member with rfl | passing
    · rw [extended_old _ replaces.source_old,extended_old _ replaces.target_old]
      exact le_sup_right.trans step
    · obtain ⟨rfl,_⟩ := mem_unlessPresent.mp passing
      rw [extended_old _ replaces.source_old,extended_old _ replaces.target_old,Regex.language_epsilon,one_mul]
      exact le_sup_left.trans step

theorem two_le_of_seq {rs : List Regex} (label : t.label = .seq rs) : 2 ≤ rs.length := by
  have flat := replaces.flat
  rw [label] at flat
  cases flat with
  | seq many _ _ => exact many

theorem accepts_seq {rs : List Regex} (label : t.label = .seq rs) {p : Nat} (old : p < a.counters.nextState) :
    a'.graph.accepts p = a.graph.accepts p := by
  have many := replaces.two_le_of_seq label
  have language : t.label.language = (rs.map Regex.language).prod := by rw [label,Regex.language_seq]
  -- at a new state the factors after it are left
  let fresh (x : Nat) : Language Char :=
    ((rs.drop (x - a.counters.nextState + 1)).map Regex.language).prod * a.graph.accepts t.target
  refine replaces.accepts_eq_of fresh ?_ (fun arc member => ?_) old
  · have length : rs.length = (Ids.series a.counters.nextState (rs.length - 1)).length + 1 := by
      rw [Ids.length_series]
      omega
    rw [language]
    refine prod_mul_accepts_le length fun arc member => replaces.exists_part ?_
    rw [parts_seq label]
    exact member
  · rw [parts_seq label] at member
    refine mul_le_of_mem_chain (by omega) ?_ (fun i small => ?_) member
    · rw [extended_old _ replaces.source_old,extended_old _ replaces.target_old,← language]
      exact Graph.mul_accepts_le ⟨t,replaces.has,rfl⟩
    · rw [extended_new _ (Nat.le_add_right _ _),extended_old _ replaces.target_old]
      show ((rs.drop (_ - _ + 1)).map Regex.language).prod * _ = _
      rw [Nat.add_sub_cancel_left]

end Replaces

namespace Replaces

/-- Whatever leads to its source and on from its target, an iteration apart from both ends reads the same. -/
theorem accepts_isolated (replaces : Replaces .full a t a') {body : Regex} (iterated : t.label.iterated? = some body)
    {p : Nat} (old : p < a.counters.nextState) : a'.graph.accepts p = a.graph.accepts p := by
  have apart : Apart a t .full := ⟨nofun,nofun,nofun⟩
  have swaps := replaces.swaps
  rcases Regex.eq_of_iterated? iterated with label | label
  · have same : parts a t .full = (loop a t .full true body).2 := by simp only [parts,expansion,label,levelFor]
    rw [same] at swaps
    exact swaps.accepts_loop label apart old (.inl rfl)
  · have same : parts a t .full = (loop a t .full false body).2 := by simp only [parts,expansion,label,levelFor]
    rw [same] at swaps
    exact swaps.accepts_loop label apart old (.inl rfl)

/-- A breakdown with full isolation keeps the language. -/
theorem language_full (replaces : Replaces .full a t a') : a'.language = a.language := by
  have old := replaces.start_old
  show a'.graph.accepts a'.start = a.graph.accepts a.start
  rw [replaces.start_eq]
  rcases replaces.label_cases with ⟨rs,label,_⟩ | ⟨rs,label,_⟩ | ⟨r,label,_⟩ | ⟨r,label,_⟩ | ⟨r,label,_⟩
  · exact replaces.accepts_choice label old
  · exact replaces.accepts_seq label old
  · exact replaces.accepts_option label old
  · exact replaces.accepts_isolated (by rw [label]; rfl) old
  · exact replaces.accepts_isolated (by rw [label]; rfl) old

end Replaces
end StepwiseAutomata.Breakdown
