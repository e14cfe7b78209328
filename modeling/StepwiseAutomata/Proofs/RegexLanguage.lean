import StepwiseAutomata.Regex.Optimiser
import Mathlib

namespace StepwiseAutomata
open scoped Computability

/-- What a quantifier makes of the language of its operand. -/
def Quantifier.on : Quantifier → Language Char → Language Char
  | star,l => l∗
  | plus,l => l * l∗
  | option,l => 1 + l

namespace Regex

mutual
/-- The words that an expression denotes. -/
def language : Regex → Language Char
  | .char c => if c = epsilonChar then 1 else {[c]}
  | .quant q r => q.on (language r)
  | .seq rs => languageProduct rs
  | .choice rs => languageSum rs
def languageProduct : List Regex → Language Char
  | [] => 1
  | r :: rs => language r * languageProduct rs
def languageSum : List Regex → Language Char
  | [] => 0
  | r :: rs => language r + languageSum rs
end

/-- The trees that the constructors build: a list of operands has at least two, and none of them has the
    operator of the list. -/
inductive Flat : Regex → Prop
  | char (c : Char) : Flat (.char c)
  | quant (q : Quantifier) {r : Regex} : Flat r → Flat (.quant q r)
  | seq {rs : List Regex} : 2 ≤ rs.length → (∀ r ∈ rs, Flat r) → (∀ r ∈ rs, r.operator ≠ .sequence) → Flat (.seq rs)
  | choice {rs : List Regex} : 2 ≤ rs.length → (∀ r ∈ rs, Flat r) → (∀ r ∈ rs, r.operator ≠ .choice) →
      Flat (.choice rs)

/-- The expressions directly under the operator. -/
def children : Regex → List Regex
  | .char _ => []
  | .quant _ r => [r]
  | .seq rs => rs
  | .choice rs => rs

theorem Flat.of_mem_children {r s : Regex} (flat : r.Flat) (member : s ∈ r.children) : s.Flat := by
  cases flat with
  | char c => cases member
  | quant q flat =>
    rw [List.mem_singleton.mp member]
    exact flat
  | seq _ flats _ => exact flats s member
  | choice _ flats _ => exact flats s member

theorem languageProduct_eq (rs : List Regex) : languageProduct rs = (rs.map language).prod := by
  induction rs with
  | nil => simp [languageProduct]
  | cons r rs ih => simp [languageProduct,ih]

theorem languageSum_eq (rs : List Regex) : languageSum rs = (rs.map language).sum := by
  induction rs with
  | nil => simp [languageSum]
  | cons r rs ih => simp [languageSum,ih]

@[simp] theorem language_char (c : Char) : (char c).language = if c = epsilonChar then 1 else {[c]} := by
  simp [language]
@[simp] theorem language_epsilon : epsilon.language = 1 := by simp [epsilon]
@[simp] theorem language_quant (q : Quantifier) (r : Regex) : (quant q r).language = q.on r.language := by
  simp [language]
@[simp] theorem language_seq (rs : List Regex) : (seq rs).language = (rs.map language).prod := by
  simp [language,languageProduct_eq]
@[simp] theorem language_choice (rs : List Regex) : (choice rs).language = (rs.map language).sum := by
  simp [language,languageSum_eq]

theorem language_of_isEpsilon {r : Regex} (isEpsilon : r.isEpsilon = true) : r.language = 1 := by
  cases r with
  | char c =>
    have same : c = epsilonChar := by simpa [Regex.isEpsilon] using isEpsilon
    rw [same]
    exact language_epsilon
  | _ => simp [Regex.isEpsilon] at isEpsilon

theorem mem_languageSum {w : List Char} {rs : List Regex} :
    w ∈ (rs.map language).sum ↔ ∃ r ∈ rs, w ∈ r.language := by
  induction rs with
  | nil => simp
  | cons r rs ih => rw [List.map_cons,List.sum_cons,Language.mem_add,ih,List.exists_mem_cons_iff]

theorem one_le_iff {l : Language Char} : 1 ≤ l ↔ [] ∈ l := by
  constructor
  · intro below; exact below rfl
  · rintro member w rfl; exact member

/-- The empty word is denoted exactly by the expressions that are called nullable. -/
theorem nullable_iff (r : Regex) : r.nullable = true ↔ [] ∈ r.language := by
  have mul (l m : Language Char) : [] ∈ l * m ↔ [] ∈ l ∧ [] ∈ m := by simp [Language.mem_mul]
  induction r with
  | char c =>
    by_cases same : c = epsilonChar
    · simp [nullable,same]
    · simp only [nullable,same,language_char,if_false,beq_iff_eq,false_iff]
      intro impossible
      cases Set.mem_singleton_iff.mp impossible
  | quant q r ih =>
    cases q with
    | star => simpa [nullable,Quantifier.on] using Language.nil_mem_kstar _
    | plus => simp [nullable,Quantifier.on,mul,ih,Language.nil_mem_kstar]
    | option =>
      rw [language_quant]
      exact ⟨fun _ => .inl rfl,fun _ => by simp [nullable]⟩
  | seq rs ih =>
    rw [nullable,allNullable_eq_all,language_seq]
    induction rs with
    | nil => simp
    | cons r rs tail =>
      have here : r.nullable = true ↔ [] ∈ r.language := ih r (by simp)
      have there : rs.all nullable = true ↔ [] ∈ (rs.map language).prod :=
        tail fun s member => ih s (by simp [member])
      rw [List.all_cons,Bool.and_eq_true,List.map_cons,List.prod_cons,mul,here,there]
  | choice rs ih =>
    rw [nullable,anyNullable_eq_any,language_choice,mem_languageSum,List.any_eq_true]
    exact exists_congr fun r => and_congr_right fun member => ih r member

theorem Flat.of_mem_factors {r f : Regex} (flat : r.Flat) (member : f ∈ r.factors) :
    f.Flat ∧ f.operator ≠ .sequence := by
  cases flat with
  | char c => cases List.mem_singleton.mp member; exact ⟨.char c,by simp [operator]⟩
  | quant q flat =>
    cases List.mem_singleton.mp member
    exact ⟨.quant q flat,by cases q <;> simp [operator,Quantifier.operator]⟩
  | seq _ each other => exact ⟨each f member,other f member⟩
  | choice many each other =>
    cases List.mem_singleton.mp member
    exact ⟨.choice many each other,by simp [operator]⟩

theorem Flat.of_mem_alternatives {r f : Regex} (flat : r.Flat) (member : f ∈ r.alternatives) :
    f.Flat ∧ f.operator ≠ .choice := by
  cases flat with
  | char c => cases List.mem_singleton.mp member; exact ⟨.char c,by simp [operator]⟩
  | quant q flat =>
    cases List.mem_singleton.mp member
    exact ⟨.quant q flat,by cases q <;> simp [operator,Quantifier.operator]⟩
  | seq many each other =>
    cases List.mem_singleton.mp member
    exact ⟨.seq many each other,by simp [operator]⟩
  | choice _ each other => exact ⟨each f member,other f member⟩

theorem Flat.alternatives_ne_nil {r : Regex} (flat : r.Flat) : r.alternatives ≠ [] := by
  cases flat with
  | choice many =>
    rintro rfl
    simp at many
  | _ => simp [alternatives]

theorem flat_sequenceOf {rs : List Regex} (flat : ∀ r ∈ rs, r.Flat) : (sequenceOf rs).Flat := by
  have each : ∀ f ∈ rs.flatMap factors, f.Flat ∧ f.operator ≠ .sequence := by
    intro f member
    obtain ⟨r,listed,factor⟩ := List.mem_flatMap.mp member
    exact (flat r listed).of_mem_factors factor
  unfold sequenceOf
  generalize rs.flatMap factors = fs at each
  match fs with
  | [] => exact .char _
  | [f] => exact (each f (by simp)).1
  | f :: f' :: fs => exact .seq (by simp) (fun r member => (each r member).1) fun r member => (each r member).2

theorem flat_choiceOf {rs : List Regex} (flat : ∀ r ∈ rs, r.Flat) : (choiceOf rs).Flat := by
  have each : ∀ f ∈ rs.flatMap alternatives, f.Flat ∧ f.operator ≠ .choice := by
    intro f member
    obtain ⟨r,listed,alternative⟩ := List.mem_flatMap.mp member
    exact (flat r listed).of_mem_alternatives alternative
  unfold choiceOf
  generalize rs.flatMap alternatives = fs at each
  match fs with
  | [] => exact .char _
  | [f] => exact (each f (by simp)).1
  | f :: f' :: fs => exact .choice (by simp) (fun r member => (each r member).1) fun r member => (each r member).2

private theorem product_factors (r : Regex) : (r.factors.map language).prod = r.language := by
  cases r <;> simp [factors]

private theorem product_flatMap_factors (rs : List Regex) :
    ((rs.flatMap factors).map language).prod = (rs.map language).prod := by
  induction rs with
  | nil => rfl
  | cons r rs ih => simp [product_factors,ih]

theorem language_sequenceOf (rs : List Regex) : (sequenceOf rs).language = (rs.map language).prod := by
  rw [← product_flatMap_factors,sequenceOf]
  generalize rs.flatMap factors = fs
  match fs with
  | [] => simp [collapse]
  | [f] => simp [collapse]
  | f :: f' :: fs => simp [collapse]

private theorem sum_alternatives (r : Regex) : (r.alternatives.map language).sum = r.language := by
  cases r <;> simp [alternatives]

private theorem sum_flatMap_alternatives (rs : List Regex) :
    ((rs.flatMap alternatives).map language).sum = (rs.map language).sum := by
  induction rs with
  | nil => rfl
  | cons r rs ih => simp [sum_alternatives,ih]

/-- A choice needs something to choose from; the choice of nothing would be `ε`. -/
theorem language_choiceOf {rs : List Regex} (flat : ∀ r ∈ rs, r.Flat) (some : rs ≠ []) :
    (choiceOf rs).language = (rs.map language).sum := by
  have content : rs.flatMap alternatives ≠ [] := by
    obtain ⟨r,member⟩ := List.exists_mem_of_ne_nil rs some
    intro none
    exact (flat r member).alternatives_ne_nil (List.flatMap_eq_nil_iff.mp none r member)
  rw [← sum_flatMap_alternatives,choiceOf]
  generalize rs.flatMap alternatives = fs at content
  match fs,content with
  | [f],_ => simp [collapse]
  | f :: f' :: fs,_ => simp [collapse]

private theorem kstar_one_add (l : Language Char) : (1 + l)∗ = l∗ := by
  apply le_antisymm
  · exact kstar_le_of_mul_le_left one_le_kstar (by
      rw [mul_add,mul_one]
      exact add_le le_rfl kstar_mul_le_kstar)
  · exact kstar_mono le_add_self

private theorem kstar_plus (l : Language Char) : (l * l∗)∗ = l∗ := by
  apply le_antisymm
  · calc (l * l∗)∗ ≤ l∗∗ := kstar_mono mul_kstar_le_kstar
      _ = l∗ := kstar_idem l
  · refine kstar_mono ?_
    calc l = l * 1 := (mul_one l).symm
      _ ≤ l * l∗ := mul_le_mul_right one_le_kstar l

private theorem one_add_plus (l : Language Char) : 1 + l * l∗ = l∗ := one_add_mul_kstar

private theorem one_add_kstar (l : Language Char) : 1 + l∗ = l∗ :=
  add_eq_right_iff_le.mpr one_le_kstar

private theorem plus_comm (l : Language Char) : l∗ * l = l * l∗ := Language.mul_self_kstar_comm l

private theorem one_add_mul_kstar_self (l : Language Char) : (1 + l) * l∗ = l∗ := by
  rw [add_mul,one_mul]
  exact add_eq_left_iff_le.mpr mul_kstar_le_kstar

/-- Two nested quantifiers mean what the one in their place means. -/
theorem on_nest (outer inner : Quantifier) (l : Language Char) :
    (nest outer inner).on l = outer.on (inner.on l) := by
  cases outer <;> cases inner <;> simp only [nest,Quantifier.on]
  · exact (kstar_idem l).symm
  · exact (kstar_plus l).symm
  · exact (kstar_one_add l).symm
  · rw [kstar_idem,kstar_mul_kstar]
  · rw [kstar_plus,mul_assoc,kstar_mul_kstar]
  · rw [kstar_one_add,one_add_mul_kstar_self]
  · exact (one_add_kstar l).symm
  · exact (one_add_plus l).symm
  · rw [← add_assoc,add_idem]

/-- Two neighbouring iterations of one operand mean what the one in their place means. -/
theorem on_absorb? {left right q : Quantifier} (absorbed : absorb? left right = some q) (l : Language Char) :
    q.on l = left.on l * right.on l := by
  have plus_left : (1 + l) * (l * l∗) = l * l∗ := by
    rw [← mul_assoc,show (1 + l) * l = l * (1 + l) by rw [add_mul,mul_add,one_mul,mul_one],mul_assoc,
      one_add_mul_kstar_self]
  have star_right : l∗ * (1 + l) = l∗ := by
    rw [mul_add,mul_one]
    exact add_eq_left_iff_le.mpr kstar_mul_le_kstar
  cases left <;> cases right <;> simp only [absorb?] at absorbed <;> cases absorbed <;> simp only [Quantifier.on]
  · exact (kstar_mul_kstar l).symm
  · rw [← mul_assoc,plus_comm,mul_assoc,kstar_mul_kstar]
  · exact star_right.symm
  · rw [mul_assoc,kstar_mul_kstar]
  · rw [mul_assoc,star_right]
  · exact (one_add_mul_kstar_self l).symm
  · exact plus_left.symm

theorem language_rewriteQuant (q : Quantifier) (r : Regex) :
    (rewriteQuant q r).language = q.on r.language := by
  unfold rewriteQuant
  split
  · rename_i cond
    rw [Bool.and_eq_true,decide_eq_true_eq] at cond
    obtain ⟨rfl,nullable⟩ := cond
    exact (add_eq_right_iff_le.mpr (one_le_iff.mpr ((nullable_iff r).mp nullable))).symm
  · split
    · rename_i p s
      rw [language_quant,language_quant,on_nest]
    · rw [language_quant]

private theorem language_mergePair? {left right merged : Regex} (pair : mergePair? left right = some merged) :
    merged.language = left.language * right.language := by
  unfold mergePair? at pair
  split at pair
  · split at pair
    · rename_i p r q s same
      obtain ⟨m,absorbed,rfl⟩ := Option.map_eq_some_iff.mp pair
      subst same
      simp only [language_quant]
      exact on_absorb? absorbed _
    · cases pair
  · cases pair

private theorem product_mergeForward (kept rs : List Regex) :
    ((mergeForward kept rs).map language).prod = ((kept.reverse ++ rs).map language).prod := by
  induction rs generalizing kept with
  | nil => simp [mergeForward]
  | cons r rs ih =>
    unfold mergeForward
    split
    · rw [ih]; simp
    · rename_i last rest
      split
      · rename_i merged pair
        rw [ih]
        simp [language_mergePair? pair,mul_assoc]
      · rw [ih]; simp

private theorem product_mergeBackward (rs : List Regex) :
    ((mergeBackward rs).map language).prod = (rs.map language).prod := by
  induction rs with
  | nil => simp [mergeBackward]
  | cons r rs ih =>
    rw [List.map_cons,List.prod_cons,← ih,mergeBackward]
    split
    · rename_i none; simp [none]
    · rename_i next rest kept
      rw [kept]
      split
      · rename_i merged pair
        simp [language_mergePair? pair,mul_assoc]
      · simp

private theorem product_filter_epsilon (rs : List Regex) :
    ((rs.filter fun r => !r.isEpsilon).map language).prod = (rs.map language).prod := by
  induction rs with
  | nil => rfl
  | cons r rs ih =>
    rw [List.filter_cons]
    split
    · simp [ih]
    · rename_i isEpsilon
      rw [ih,List.map_cons,List.prod_cons,language_of_isEpsilon (by simpa using isEpsilon),one_mul]

theorem language_rewriteSequence (rs : List Regex) :
    (rewriteSequence rs).language = (rs.map language).prod := by
  rw [rewriteSequence,language_sequenceOf,product_mergeBackward,product_mergeForward]
  simp only [List.reverse_nil,List.nil_append]
  rw [product_filter_epsilon,product_flatMap_factors]

theorem language_rewriteChoice {rs : List Regex} (flat : ∀ r ∈ rs, r.Flat) (some : rs ≠ []) :
    (rewriteChoice rs).language = (rs.map language).sum := by
  have each : ∀ r ∈ (rs.flatMap alternatives).eraseDups, r.Flat := by
    intro r member
    obtain ⟨s,listed,alternative⟩ := List.mem_flatMap.mp (List.mem_eraseDups.mp member)
    exact ((flat s listed).of_mem_alternatives alternative).1
  have content : (rs.flatMap alternatives).eraseDups ≠ [] := by
    obtain ⟨r,member⟩ := List.exists_mem_of_ne_nil rs some
    obtain ⟨s,alternative⟩ := List.exists_mem_of_ne_nil _ (flat r member).alternatives_ne_nil
    exact List.ne_nil_of_mem (List.mem_eraseDups.mpr (List.mem_flatMap.mpr ⟨r,member,alternative⟩))
  rw [rewriteChoice,language_choiceOf each content,← sum_flatMap_alternatives rs]
  apply Language.ext
  intro w
  simp only [mem_languageSum,List.mem_eraseDups]

private theorem flat_mergePair? {left right merged : Regex} (pair : mergePair? left right = some merged)
    (flat : left.Flat) : merged.Flat := by
  unfold mergePair? at pair
  split at pair
  · split at pair
    · obtain ⟨m,_,rfl⟩ := Option.map_eq_some_iff.mp pair
      cases flat with
      | quant _ flat => exact .quant m flat
    · cases pair
  · cases pair

/-- What a merged pair takes over from its left factor, the first pass keeps. -/
theorem forall_mergeForward {P : Regex → Prop}
    (merges : ∀ {left right merged}, mergePair? left right = some merged → P left → P merged)
    {kept rs : List Regex} (before : ∀ r ∈ kept, P r) (rest : ∀ r ∈ rs, P r) : ∀ r ∈ mergeForward kept rs, P r := by
  induction rs generalizing kept with
  | nil => simpa [mergeForward] using before
  | cons r rs ih =>
    obtain ⟨head,tail⟩ := List.forall_mem_cons.mp rest
    unfold mergeForward
    split
    · exact ih (by simpa using head) tail
    · rename_i last older
      split
      · rename_i merged pair
        obtain ⟨keptLast,keptOlder⟩ := List.forall_mem_cons.mp before
        exact ih (List.forall_mem_cons.mpr ⟨merges pair keptLast,keptOlder⟩) tail
      · exact ih (List.forall_mem_cons.mpr ⟨head,before⟩) tail

/-- What a merged pair takes over from its left factor, the second pass keeps. -/
theorem forall_mergeBackward {P : Regex → Prop}
    (merges : ∀ {left right merged}, mergePair? left right = some merged → P left → P merged)
    {rs : List Regex} (all : ∀ r ∈ rs, P r) : ∀ r ∈ mergeBackward rs, P r := by
  induction rs with
  | nil => simp [mergeBackward]
  | cons r rs ih =>
    obtain ⟨head,tail⟩ := List.forall_mem_cons.mp all
    have tail := ih tail
    unfold mergeBackward
    split
    · simpa using head
    · rename_i next rest kept
      rw [kept] at tail
      split
      · rename_i merged pair
        exact List.forall_mem_cons.mpr ⟨merges pair head,(List.forall_mem_cons.mp tail).2⟩
      · exact List.forall_mem_cons.mpr ⟨head,tail⟩

theorem flat_rewriteQuant (q : Quantifier) {r : Regex} (flat : r.Flat) : (rewriteQuant q r).Flat := by
  unfold rewriteQuant
  split
  · exact flat
  · split
    · cases flat with
      | quant _ flat => exact .quant _ flat
    · exact .quant q flat

theorem flat_rewriteSequence {rs : List Regex} (flat : ∀ r ∈ rs, r.Flat) : (rewriteSequence rs).Flat := by
  refine flat_sequenceOf (forall_mergeBackward flat_mergePair?
    (forall_mergeForward flat_mergePair? (by simp) fun r member => ?_))
  obtain ⟨s,listed,factor⟩ := List.mem_flatMap.mp (List.mem_filter.mp member).1
  exact ((flat s listed).of_mem_factors factor).1

theorem flat_rewriteChoice {rs : List Regex} (flat : ∀ r ∈ rs, r.Flat) : (rewriteChoice rs).Flat := by
  refine flat_choiceOf fun r member => ?_
  obtain ⟨s,listed,alternative⟩ := List.mem_flatMap.mp (List.mem_eraseDups.mp member)
  exact ((flat s listed).of_mem_alternatives alternative).1

/-- Simplifying the uppermost levels of a flat tree keeps it flat and keeps its language. -/
theorem optimiseToDepth_sound (depth : Nat) {r : Regex} (flat : r.Flat) :
    (r.optimiseToDepth depth).Flat ∧ (r.optimiseToDepth depth).language = r.language := by
  induction depth generalizing r with
  | zero => exact ⟨flat,rfl⟩
  | succ depth ih =>
    have each {rs : List Regex} (flats : ∀ r ∈ rs, r.Flat) :
        (∀ r ∈ rs.map (optimiseToDepth depth), r.Flat) ∧
          (rs.map (optimiseToDepth depth)).map language = rs.map language := by
      constructor
      · intro s member
        obtain ⟨r,listed,rfl⟩ := List.mem_map.mp member
        exact (ih (flats r listed)).1
      · rw [List.map_map]
        exact List.map_congr_left fun r listed => (ih (flats r listed)).2
    cases flat with
    | char c => exact ⟨.char c,rfl⟩
    | quant q flat =>
      rw [optimiseToDepth,language_rewriteQuant,language_quant,(ih flat).2]
      exact ⟨flat_rewriteQuant q (ih flat).1,rfl⟩
    | seq _ flats =>
      rw [optimiseToDepth,language_rewriteSequence,language_seq,(each flats).2]
      exact ⟨flat_rewriteSequence (each flats).1,rfl⟩
    | @choice rs many flats _ =>
      have some : rs.map (optimiseToDepth depth) ≠ [] := by
        intro none
        rw [List.map_eq_nil_iff] at none
        simp [none] at many
      rw [optimiseToDepth,language_rewriteChoice (each flats).1 some,language_choice,(each flats).2]
      exact ⟨flat_rewriteChoice (each flats).1,rfl⟩

mutual
/-- The number of operators on the longest way down the tree. -/
def height : Regex → Nat
  | .char _ => 0
  | .quant _ r => height r + 1
  | .seq rs => heightAll rs + 1
  | .choice rs => heightAll rs + 1
def heightAll : List Regex → Nat
  | [] => 0
  | r :: rs => Nat.max (height r) (heightAll rs)
end

theorem height_le_heightAll {r : Regex} {rs : List Regex} (member : r ∈ rs) : r.height ≤ heightAll rs := by
  induction rs with
  | nil => cases member
  | cons s rs ih =>
    rw [heightAll]
    rcases List.mem_cons.mp member with rfl | member
    · exact Nat.le_max_left _ _
    · exact Nat.le_trans (ih member) (Nat.le_max_right _ _)

/-- No tree is simplified any further than down to its leaves. -/
theorem optimiseToDepth_eq_optimise {r : Regex} {depth : Nat} (enough : r.height ≤ depth) :
    r.optimiseToDepth depth = r.optimise := by
  induction r generalizing depth with
  | char c => cases depth <;> rfl
  | quant q r ih =>
    rw [height] at enough
    obtain ⟨depth,rfl⟩ := Nat.exists_eq_add_of_le' (Nat.le_trans (Nat.le_add_left 1 _) enough)
    rw [optimiseToDepth,optimise,ih (by omega)]
  | seq rs ih =>
    rw [height] at enough
    obtain ⟨depth,rfl⟩ := Nat.exists_eq_add_of_le' (Nat.le_trans (Nat.le_add_left 1 _) enough)
    have each (r : Regex) (member : r ∈ rs) : r.optimiseToDepth depth = r.optimise :=
      ih r member (Nat.le_trans (height_le_heightAll member) (by omega))
    rw [optimiseToDepth,optimise,optimiseEach_eq_map,List.map_congr_left each]
  | choice rs ih =>
    rw [height] at enough
    obtain ⟨depth,rfl⟩ := Nat.exists_eq_add_of_le' (Nat.le_trans (Nat.le_add_left 1 _) enough)
    have each (r : Regex) (member : r ∈ rs) : r.optimiseToDepth depth = r.optimise :=
      ih r member (Nat.le_trans (height_le_heightAll member) (by omega))
    rw [optimiseToDepth,optimise,optimiseEach_eq_map,List.map_congr_left each]

/-- Simplifying a whole flat tree keeps it flat and keeps its language. -/
theorem optimise_sound {r : Regex} (flat : r.Flat) : r.optimise.Flat ∧ r.optimise.language = r.language := by
  rw [← optimiseToDepth_eq_optimise (Nat.le_refl r.height)]
  exact optimiseToDepth_sound r.height flat

end Regex
end StepwiseAutomata
