import StepwiseAutomata.Proofs.Printing

/-!
What simplification comes to: the language is the same, and no rule applies anywhere in what is left. In a sequence the
first pass leaves a factor that can still be merged only in front of one that swallows it, and the second pass drops
those factors, so that nothing is left to be merged.
-/
namespace StepwiseAutomata.Regex

/-- A rule of simplification applies at the root of the tree. -/
def Redex : Regex → Prop
  | .char _ => False
  | .quant .option r => r.nullable = true ∨ r.operator = .plus
  | .quant _ r => r.operator.isUnary = true
  | .seq rs => (∃ r ∈ rs, r.isEpsilon = true) ∨ ¬rs.IsChain fun left right => mergePair? left right = none
  | .choice rs => ¬rs.Nodup

mutual
/-- The tree itself and all trees in it. -/
def nodes : Regex → List Regex
  | .char c => [.char c]
  | .quant q r => .quant q r :: nodes r
  | .seq rs => .seq rs :: nodesAll rs
  | .choice rs => .choice rs :: nodesAll rs
def nodesAll : List Regex → List Regex
  | [] => []
  | r :: rs => nodes r ++ nodesAll rs
end

/-- No rule applies anywhere in the tree. -/
def Normal (r : Regex) : Prop := ∀ n ∈ r.nodes, ¬n.Redex

instance : DecidablePred Redex
  | .char _ => inferInstanceAs (Decidable False)
  | .quant .star r => inferInstanceAs (Decidable (r.operator.isUnary = true))
  | .quant .plus r => inferInstanceAs (Decidable (r.operator.isUnary = true))
  | .quant .option r => inferInstanceAs (Decidable (r.nullable = true ∨ r.operator = .plus))
  | .seq rs => inferInstanceAs (Decidable ((∃ r ∈ rs, r.isEpsilon = true) ∨ ¬rs.IsChain _))
  | .choice rs => inferInstanceAs (Decidable ¬rs.Nodup)

instance (r : Regex) : Decidable r.Normal := inferInstanceAs (Decidable (∀ n ∈ r.nodes, ¬n.Redex))

theorem mem_nodesAll {n : Regex} {rs : List Regex} : n ∈ nodesAll rs ↔ ∃ r ∈ rs, n ∈ r.nodes := by
  induction rs with
  | nil => simp [nodesAll]
  | cons r rs ih => simp [nodesAll,ih]

theorem normal_char (c : Char) : (char c).Normal := by simp [Normal,nodes,Redex]

theorem normal_quant {q : Quantifier} {r : Regex} : (quant q r).Normal ↔ ¬(quant q r).Redex ∧ r.Normal := by
  simp [Normal,nodes]

theorem normal_seq {rs : List Regex} : (seq rs).Normal ↔ ¬(seq rs).Redex ∧ ∀ r ∈ rs, r.Normal := by
  simp only [Normal,nodes,List.forall_mem_cons,mem_nodesAll]
  exact and_congr_right fun _ => ⟨fun all r listed n member => all n ⟨r,listed,member⟩,
    fun all n ⟨r,listed,member⟩ => all r listed n member⟩

theorem normal_choice {rs : List Regex} : (choice rs).Normal ↔ ¬(choice rs).Redex ∧ ∀ r ∈ rs, r.Normal := by
  simp only [Normal,nodes,List.forall_mem_cons,mem_nodesAll]
  exact and_congr_right fun _ => ⟨fun all r listed n member => all n ⟨r,listed,member⟩,
    fun all n ⟨r,listed,member⟩ => all r listed n member⟩

theorem not_redex_quant {q : Quantifier} {r : Regex} :
    ¬(quant q r).Redex ↔ r.operator.isUnary = false ∧ (q = .option → r.nullable = false) := by
  cases q with
  | star => simp [Redex]
  | plus => simp [Redex]
  | option =>
    cases r with
    | quant p s => cases p <;> simp [Redex,nullable,operator,Operator.isUnary,Operator.quantifier?,Quantifier.operator]
    | _ => simp [Redex,operator,Operator.isUnary,Operator.quantifier?]

theorem rewriteQuant_eq {q : Quantifier} {r : Regex} (settled : ¬(quant q r).Redex) : rewriteQuant q r = quant q r := by
  obtain ⟨bare,needed⟩ := not_redex_quant.mp settled
  unfold rewriteQuant
  rw [if_neg]
  · cases r with
    | quant p s => simp [operator,Operator.isUnary] at bare
    | _ => rfl
  · rw [Bool.and_eq_true,decide_eq_true_eq]
    rintro ⟨option,nullable⟩
    rw [needed option] at nullable
    cases nullable

theorem normal_rewriteQuant (q : Quantifier) {r : Regex} (normal : r.Normal) : (rewriteQuant q r).Normal := by
  unfold rewriteQuant
  split
  · exact normal
  · rename_i needed
    rw [Bool.and_eq_true,decide_eq_true_eq,not_and] at needed
    split
    · rename_i p s
      obtain ⟨settled,normal⟩ := normal_quant.mp normal
      refine normal_quant.mpr ⟨not_redex_quant.mpr ⟨(not_redex_quant.mp settled).1,fun option => ?_⟩,normal⟩
      -- Only `?` over `?` would stay `?`, and there the operand accepts the empty word.
      cases q <;> cases p <;> cases option
      exact absurd (by simp [nullable]) (needed rfl)
    · rename_i other
      refine normal_quant.mpr ⟨not_redex_quant.mpr ⟨?_,fun option => Bool.not_eq_true _ |>.mp (needed option)⟩,normal⟩
      cases r with
      | quant p s => exact absurd rfl (other p s)
      | _ => rfl

/-- The pair cannot be merged, or the right one swallows the left one. -/
def Settles (left right : Regex) : Prop := mergePair? left right = none ∨ mergePair? left right = some right

theorem mergePair?_eq_some {left right merged : Regex} (pair : mergePair? left right = some merged) :
    ∃ p q m r, left = quant p r ∧ right = quant q r ∧ merged = quant m r ∧ absorb? p q = some m := by
  unfold mergePair? at pair
  split at pair
  · split at pair
    · rename_i p r q s same
      obtain ⟨m,absorbed,rfl⟩ := Option.map_eq_some_iff.mp pair
      exact ⟨p,q,m,r,rfl,by rw [same],rfl,absorbed⟩
    · cases pair
  · cases pair

theorem mergePair?_quant (p q : Quantifier) (r : Regex) :
    mergePair? (quant p r) (quant q r) = (absorb? p q).map (quant · r) := by
  simp [mergePair?]

/-- A factor that settles with another one settles with whatever that is merged into. -/
theorem Settles.merged {first left right merged : Regex} (settles : Settles first left)
    (pair : mergePair? left right = some merged) : Settles first merged := by
  obtain ⟨p,q,m,r,rfl,rfl,rfl,absorbed⟩ := mergePair?_eq_some pair
  cases first with
  | quant k s =>
    by_cases same : s = r
    · subst same
      unfold Settles at settles ⊢
      rw [mergePair?_quant] at settles ⊢
      cases k <;> cases p <;> cases q <;> cases absorbed <;> simp_all [absorb?]
    · left
      simp [mergePair?,same]
  | _ => exact .inl (by simp [mergePair?])

/-- The first pass leaves a chain in which neighbours settle. -/
theorem isChain_mergeForward {kept rs : List Regex} (chain : kept.IsChain fun right left => Settles left right) :
    (mergeForward kept rs).IsChain Settles := by
  induction rs generalizing kept with
  | nil => rwa [mergeForward,List.isChain_reverse]
  | cons r rs ih =>
    unfold mergeForward
    split
    · exact ih (List.isChain_singleton r)
    · rename_i last rest
      split
      · rename_i merged pair
        refine ih (List.isChain_cons.mpr ⟨fun first member => ?_,chain.tail⟩)
        exact ((List.isChain_cons.mp chain).1 first member).merged pair
      · rename_i apart
        exact ih (chain.cons_cons (.inl apart))

/-- The second pass drops what is swallowed, and then no neighbours can be merged. -/
theorem isChain_mergeBackward {rs : List Regex} (chain : rs.IsChain Settles) :
    ((mergeBackward rs).IsChain fun left right => mergePair? left right = none) ∧
      ∀ r ∈ rs.head?, ∀ next ∈ (mergeBackward rs).head?, next = r ∨ mergePair? r next = some next := by
  induction rs with
  | nil => exact ⟨.nil,nofun⟩
  | cons r rs ih =>
    obtain ⟨first,chain⟩ := List.isChain_cons.mp chain
    obtain ⟨apart,swallows⟩ := ih chain
    unfold mergeBackward
    split
    · exact ⟨List.isChain_singleton r,by simp⟩
    · rename_i next rest kept
      rw [kept] at apart swallows
      have settles : Settles r next := by
        cases rs with
        | nil => simp [mergeBackward] at kept
        | cons s rs =>
          have settles := first s rfl
          rcases swallows s rfl next rfl with rfl | pair
          · exact settles
          · exact settles.merged pair
      rcases settles with none | pair
      · rw [none]
        exact ⟨apart.cons_cons none,by simp⟩
      · rw [pair]
        exact ⟨apart,by simp [pair]⟩

theorem mergeForward_eq (kept : List Regex) {rs : List Regex}
    (chain : (kept.reverse ++ rs).IsChain fun left right => mergePair? left right = none) :
    mergeForward kept rs = kept.reverse ++ rs := by
  induction rs generalizing kept with
  | nil => rw [mergeForward,List.append_nil]
  | cons r rs ih =>
    have shifted : kept.reverse ++ r :: rs = (r :: kept).reverse ++ rs := by simp
    rw [shifted] at chain ⊢
    unfold mergeForward
    split
    · exact ih _ chain
    · rename_i last rest
      have apart : mergePair? last r = none := by
        rw [List.reverse_cons,List.reverse_cons,List.append_assoc,List.append_assoc] at chain
        exact (List.isChain_append.mp chain).2.1.rel
      rw [apart]
      exact ih _ chain

theorem mergeBackward_eq {rs : List Regex} (chain : rs.IsChain fun left right => mergePair? left right = none) :
    mergeBackward rs = rs := by
  induction rs with
  | nil => rfl
  | cons r rs ih =>
    obtain ⟨first,chain⟩ := List.isChain_cons.mp chain
    rw [mergeBackward,ih chain]
    cases rs with
    | nil => rfl
    | cons s rs => simp only [first s rfl]

/-- What stands in a simplified sequence. -/
structure Factor (r : Regex) : Prop where
  normal : r.Normal
  other : r.operator ≠ .sequence
  solid : r.isEpsilon = false

theorem Factor.merged {left right merged : Regex} (pair : mergePair? left right = some merged) (factor : left.Factor) :
    merged.Factor := by
  obtain ⟨p,q,m,r,rfl,rfl,rfl,absorbed⟩ := mergePair?_eq_some pair
  obtain ⟨settled,normal⟩ := normal_quant.mp factor.normal
  refine ⟨normal_quant.mpr ⟨not_redex_quant.mpr ⟨(not_redex_quant.mp settled).1,?_⟩,normal⟩,?_,rfl⟩
  · rintro rfl
    cases p <;> cases q <;> cases absorbed
  · cases m <;> simp [operator,Quantifier.operator]

/-- The sequence of factors of which no neighbours can be merged. -/
theorem normal_sequenceOf {rs : List Regex} (factors : ∀ r ∈ rs, r.Factor)
    (chain : rs.IsChain fun left right => mergePair? left right = none) : (sequenceOf rs).Normal := by
  have alone : ∀ r ∈ rs, r.factors = [r] := fun r member => factors_of_operator_ne (factors r member).other
  rw [sequenceOf,List.flatMap_congr alone,List.flatMap_singleton']
  rcases rs with _ | ⟨r,_ | ⟨s,rs⟩⟩
  · exact normal_char _
  · exact (factors r (List.mem_singleton_self r)).normal
  · refine normal_seq.mpr ⟨not_or.mpr ⟨?_,not_not.mpr chain⟩,fun r member => (factors r member).normal⟩
    rintro ⟨t,member,isEpsilon⟩
    rw [(factors t member).solid] at isEpsilon
    cases isEpsilon

theorem normal_rewriteSequence {rs : List Regex} (normal : ∀ r ∈ rs, r.Normal) (flat : ∀ r ∈ rs, r.Flat) :
    (rewriteSequence rs).Normal := by
  have each : ∀ f ∈ (rs.flatMap factors).filter fun r => !r.isEpsilon, f.Factor := by
    intro f member
    obtain ⟨listed,solid⟩ := List.mem_filter.mp member
    obtain ⟨r,there,factor⟩ := List.mem_flatMap.mp listed
    refine ⟨?_,((flat r there).of_mem_factors factor).2,by simpa using solid⟩
    have normal := normal r there
    cases r with
    | seq rs => exact (normal_seq.mp normal).2 f factor
    | _ => exact List.mem_singleton.mp factor ▸ normal
  refine normal_sequenceOf (forall_mergeBackward Factor.merged (forall_mergeForward Factor.merged (by simp) each)) ?_
  exact (isChain_mergeBackward (isChain_mergeForward .nil)).1

theorem rewriteSequence_eq {rs : List Regex} (flat : (seq rs).Flat) (settled : ¬(seq rs).Redex) :
    rewriteSequence rs = seq rs := by
  cases flat with
  | seq many _ other =>
    obtain ⟨solid,chain⟩ := not_or.mp settled
    have alone : ∀ r ∈ rs, r.factors = [r] := fun r member => factors_of_operator_ne (other r member)
    have kept : (rs.flatMap factors).filter (fun r => !r.isEpsilon) = rs := by
      rw [List.flatMap_congr alone,List.flatMap_singleton',List.filter_eq_self]
      exact fun r member => by simpa using fun isEpsilon => solid ⟨r,member,isEpsilon⟩
    have first : mergeForward [] rs = rs := mergeForward_eq [] (not_not.mp chain)
    rw [rewriteSequence,kept,first,mergeBackward_eq (not_not.mp chain)]
    exact collapse_flatMap many alone

/-- Of equal members the first stays. -/
theorem eraseDups_concat {α : Type} [DecidableEq α] (xs : List α) (x : α) :
    (xs ++ [x]).eraseDups = if x ∈ xs then xs.eraseDups else xs.eraseDups ++ [x] := by
  rw [List.eraseDups_append]
  by_cases member : x ∈ xs <;> simp [List.removeAll,member,List.eraseDups_cons]

theorem nodup_eraseDups {α : Type} [DecidableEq α] (xs : List α) : xs.eraseDups.Nodup := by
  induction xs using List.reverseRecOn with
  | nil => simp
  | append_singleton xs x ih =>
    rw [eraseDups_concat]
    split
    · exact ih
    · rename_i new
      refine List.nodup_append.mpr ⟨ih,List.nodup_singleton x,fun y member z single => ?_⟩
      rintro rfl
      exact new (List.mem_singleton.mp single ▸ List.mem_eraseDups.mp member)

theorem eraseDups_eq_self {α : Type} [DecidableEq α] {xs : List α} (nodup : xs.Nodup) : xs.eraseDups = xs := by
  induction xs using List.reverseRecOn with
  | nil => rfl
  | append_singleton xs x ih =>
    obtain ⟨first,_,apart⟩ := List.nodup_append.mp nodup
    rw [eraseDups_concat,if_neg (fun member => apart x member x (List.mem_singleton_self x) rfl),ih first]

theorem normal_rewriteChoice {rs : List Regex} (normal : ∀ r ∈ rs, r.Normal) (flat : ∀ r ∈ rs, r.Flat) :
    (rewriteChoice rs).Normal := by
  have each : ∀ f ∈ (rs.flatMap alternatives).eraseDups, f.Normal ∧ f.alternatives = [f] := by
    intro f member
    obtain ⟨r,there,alternative⟩ := List.mem_flatMap.mp (List.mem_eraseDups.mp member)
    refine ⟨?_,alternatives_of_operator_ne ((flat r there).of_mem_alternatives alternative).2⟩
    have normal := normal r there
    cases r with
    | choice rs => exact (normal_choice.mp normal).2 f alternative
    | _ => exact List.mem_singleton.mp alternative ▸ normal
  have nodup := nodup_eraseDups (rs.flatMap alternatives)
  rw [rewriteChoice,choiceOf]
  generalize (rs.flatMap alternatives).eraseDups = fs at each nodup
  rw [List.flatMap_congr fun f member => (each f member).2,List.flatMap_singleton']
  rcases fs with _ | ⟨f,_ | ⟨g,fs⟩⟩
  · exact normal_char _
  · exact (each f (List.mem_singleton_self f)).1
  · exact normal_choice.mpr ⟨not_not.mpr nodup,fun f member => (each f member).1⟩

theorem rewriteChoice_eq {rs : List Regex} (flat : (choice rs).Flat) (settled : ¬(choice rs).Redex) :
    rewriteChoice rs = choice rs := by
  cases flat with
  | choice many _ other =>
    have alone : ∀ r ∈ rs, r.alternatives = [r] := fun r member => alternatives_of_operator_ne (other r member)
    rw [rewriteChoice,List.flatMap_congr alone,List.flatMap_singleton',eraseDups_eq_self (not_not.mp settled)]
    exact collapse_flatMap many alone

/-- One pass from the leaves up leaves nothing to which a rule applies. -/
theorem Flat.normal_optimise {r : Regex} (flat : r.Flat) : r.optimise.Normal := by
  induction flat with
  | char c =>
    rw [optimise]
    exact normal_char c
  | quant q _ ih =>
    rw [optimise]
    exact normal_rewriteQuant q ih
  | seq _ flats _ ih =>
    rw [optimise,optimiseEach_eq_map]
    exact normal_rewriteSequence (List.forall_mem_map.mpr ih)
      (List.forall_mem_map.mpr fun r member => (optimise_sound (flats r member)).1)
  | choice _ flats _ ih =>
    rw [optimise,optimiseEach_eq_map]
    exact normal_rewriteChoice (List.forall_mem_map.mpr ih)
      (List.forall_mem_map.mpr fun r member => (optimise_sound (flats r member)).1)

/-- Where no rule applies nothing is changed. -/
theorem Flat.optimise_eq {r : Regex} (flat : r.Flat) (normal : r.Normal) : r.optimise = r := by
  induction flat with
  | char c => rw [optimise]
  | quant q _ ih =>
    obtain ⟨settled,normal⟩ := normal_quant.mp normal
    rw [optimise,ih normal,rewriteQuant_eq settled]
  | seq many flats other ih =>
    obtain ⟨settled,normal⟩ := normal_seq.mp normal
    rw [optimise,optimiseEach_eq_map,List.map_congr_left fun r member => ih r member (normal r member),List.map_id',
      rewriteSequence_eq (.seq many flats other) settled]
  | choice many flats other ih =>
    obtain ⟨settled,normal⟩ := normal_choice.mp normal
    rw [optimise,optimiseEach_eq_map,List.map_congr_left fun r member => ih r member (normal r member),List.map_id',
      rewriteChoice_eq (.choice many flats other) settled]

/-- To whatever depth an expression is simplified, it denotes the same words; from its height on that is the
    simplification of the whole. -/
theorem language_simplified {r : Regex} (built : Built r) :
    (∀ depth, (r.optimiseToDepth depth).language = r.language) ∧ r.optimise.language = r.language ∧
      ∀ depth, r.height ≤ depth → r.optimiseToDepth depth = r.optimise :=
  ⟨fun depth => (optimiseToDepth_sound depth built.flat).2,(optimise_sound built.flat).2,
    fun _ => optimiseToDepth_eq_optimise⟩

/-- Only the root is simplified, with an operand that could be simplified itself, and then all of it. -/
theorem language_simplified_nested : ∃ r, Built r ∧ parse "(a*)*b*b*|ε|ε" = .ok (some r) ∧ r.height = 4 ∧
    toString (r.optimiseToDepth 1) = "a**b*b*|ε" ∧ (r.optimiseToDepth 1).language = r.language ∧
    toString r.optimise = "a*b*|ε" ∧ r.optimise.language = r.language ∧ r.optimiseToDepth 4 = r.optimise := by
  obtain ⟨r,parsed,height,shallow,whole⟩ : ∃ r, parse "(a*)*b*b*|ε|ε" = .ok (some r) ∧ r.height = 4 ∧
      toString (r.optimiseToDepth 1) = "a**b*b*|ε" ∧ toString r.optimise = "a*b*|ε" :=
    ⟨_,rfl,by decide,by decide,by decide⟩
  obtain ⟨depths,all,limit⟩ := language_simplified (.parse parsed)
  exact ⟨r,.parse parsed,parsed,height,shallow,depths 1,whole,all,limit 4 (Nat.le_of_eq height)⟩

/-- One simplification leaves nothing to which a rule applies, and where no rule applies nothing is changed, so that a
    second one does nothing. -/
theorem simplified_normal {r : Regex} (built : Built r) :
    r.optimise.Normal ∧ (r.Normal → r.optimise = r) ∧ r.optimise.optimise = r.optimise := by
  have normal := built.flat.normal_optimise
  exact ⟨normal,built.flat.optimise_eq,(optimise_sound built.flat).1.optimise_eq normal⟩

/-- Factors become neighbours when a choice gives way to its only operand, a sequence, and when `ε` is dropped; of the
    three then the last swallows the two before it, which would not have been merged themselves. -/
theorem simplified_normal_spliced : ∃ r, Built r ∧ parse "(ba?|ba?)εa?(a*)+" = .ok (some r) ∧ ¬r.Normal ∧
    toString r.optimise = "ba*" ∧ r.optimise.Normal ∧ r.optimise.optimise = r.optimise := by
  obtain ⟨r,parsed,redex,simplified⟩ : ∃ r, parse "(ba?|ba?)εa?(a*)+" = .ok (some r) ∧ ¬r.Normal ∧
      toString r.optimise = "ba*" := ⟨_,rfl,by decide,by decide⟩
  obtain ⟨normal,_,again⟩ := simplified_normal (.parse parsed)
  exact ⟨r,.parse parsed,parsed,redex,simplified,normal,again⟩

end StepwiseAutomata.Regex
