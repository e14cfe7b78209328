import StepwiseAutomata.Proofs.Simplification

namespace StepwiseAutomata.Regex

/-- The number of operators and characters in the tree. -/
def size (r : Regex) : Nat := r.nodes.length

/-- The nodes of all the trees in a list. -/
def total (rs : List Regex) : Nat := (rs.map size).sum

@[simp] theorem total_nil : total [] = 0 := rfl
@[simp] theorem total_cons (r : Regex) (rs : List Regex) : total (r :: rs) = r.size + total rs := rfl
@[simp] theorem total_append (rs ss : List Regex) : total (rs ++ ss) = total rs + total ss := by
  rw [total,total,total,List.map_append,List.sum_append]

theorem length_nodesAll (rs : List Regex) : (nodesAll rs).length = total rs := by
  induction rs with
  | nil => rfl
  | cons r rs ih => rw [nodesAll,List.length_append,ih,total_cons,size]

@[simp] theorem size_char (c : Char) : (char c).size = 1 := rfl
@[simp] theorem size_quant (q : Quantifier) (r : Regex) : (quant q r).size = r.size + 1 := by simp [size,nodes]
@[simp] theorem size_seq (rs : List Regex) : (seq rs).size = total rs + 1 := by simp [size,nodes,length_nodesAll]
@[simp] theorem size_choice (rs : List Regex) : (choice rs).size = total rs + 1 := by simp [size,nodes,length_nodesAll]

theorem size_pos (r : Regex) : 0 < r.size := by cases r <;> simp

/-- Two factors that are merged were larger together. -/
theorem size_mergePair? {left right merged : Regex} (pair : mergePair? left right = some merged) :
    merged.size < left.size + right.size := by
  obtain ⟨p,q,m,r,rfl,rfl,rfl,_⟩ := mergePair?_eq_some pair
  simp only [size_quant]
  omega

/-- What the operands `rs` have become: they are the same, or smaller together. -/
def Lessened (rs ss : List Regex) : Prop := ss = rs ∨ total ss < total rs

namespace Lessened

variable {rs ss ts : List Regex}

theorem refl (rs : List Regex) : Lessened rs rs := .inl rfl

theorem le (lessened : Lessened rs ss) : total ss ≤ total rs := by
  rcases lessened with rfl | less
  · exact Nat.le_refl _
  · exact Nat.le_of_lt less

theorem trans (first : Lessened rs ss) (second : Lessened ss ts) : Lessened rs ts := by
  rcases second with rfl | less
  · exact first
  · exact .inr (Nat.lt_of_lt_of_le less first.le)

theorem append {rs' ss' : List Regex} (front : Lessened rs ss) (back : Lessened rs' ss') :
    Lessened (rs ++ rs') (ss ++ ss') := by
  have := front.le
  have := back.le
  rcases front with rfl | less
  · rcases back with rfl | less
    · exact refl _
    · right; simp; omega
  · right; simp; omega

/-- Each operand gives way to the same or to smaller ones. -/
theorem flatMap {f : Regex → List Regex} (each : ∀ r ∈ rs, Lessened [r] (f r)) : Lessened rs (rs.flatMap f) := by
  induction rs with
  | nil => exact refl []
  | cons r rs ih =>
    obtain ⟨head,tail⟩ := List.forall_mem_cons.mp each
    exact head.append (ih tail)

theorem map {f : Regex → Regex} (each : ∀ r ∈ rs, f r = r ∨ (f r).size < r.size) : Lessened rs (rs.map f) := by
  rw [← List.flatMap_pure_eq_map]
  refine flatMap fun r member => ?_
  rcases each r member with same | less
  · exact .inl (congrArg (fun s => [s]) same)
  · exact .inr (by simpa using less)

theorem of_sublist (sublist : ss.Sublist rs) : Lessened rs ss := by
  induction sublist with
  | slnil => exact refl []
  | cons r _ ih =>
    have := ih.le
    have := r.size_pos
    right; simp; omega
  | cons_cons r _ ih => exact (refl [r]).append ih

theorem mergeForward (kept : List Regex) : Lessened (kept.reverse ++ rs) (mergeForward kept rs) := by
  induction rs generalizing kept with
  | nil =>
    rw [Regex.mergeForward,List.append_nil]
    exact refl _
  | cons r rs ih =>
    unfold Regex.mergeForward
    split
    · exact ih [r]
    · rename_i last rest
      split
      · rename_i merged pair
        -- The factors that are kept stand the last first, so the pair is where the two lists meet.
        have lessened : Lessened ([last] ++ [r]) [merged] := .inr (by simpa using size_mergePair? pair)
        refine trans ?_ (ih (merged :: rest))
        simpa using ((refl rest.reverse).append lessened).append (refl rs)
      · simpa using ih (r :: last :: rest)

theorem mergeBackward (rs : List Regex) : Lessened rs (mergeBackward rs) := by
  induction rs with
  | nil => exact refl []
  | cons r rs ih =>
    refine trans ((refl [r]).append ih) ?_
    rw [Regex.mergeBackward]
    split
    · rename_i none
      rw [none]
      exact refl _
    · rename_i next rest kept
      rw [kept]
      split
      · rename_i merged pair
        have lessened : Lessened ([r] ++ [next]) [merged] := .inr (by simpa using size_mergePair? pair)
        exact lessened.append (refl rest)
      · exact refl _

end Lessened

theorem rewriteQuant_eq_or_size_lt (q : Quantifier) (r : Regex) :
    rewriteQuant q r = quant q r ∨ (rewriteQuant q r).size < (quant q r).size := by
  unfold rewriteQuant
  split
  · exact .inr (by simp)
  · split
    · exact .inr (by simp)
    · exact .inl rfl

/-- Operands that were several and have lessened make the same tree or a smaller one. -/
theorem collapse_eq_or_size_lt {build : List Regex → Regex} (size_build : ∀ rs, (build rs).size = total rs + 1)
    {rs ss : List Regex} (several : 2 ≤ rs.length) (lessened : Lessened rs ss) :
    collapse build ss = build rs ∨ (collapse build ss).size < (build rs).size := by
  have bounded : (collapse build ss).size ≤ total ss + 1 := by
    rcases ss with _ | ⟨r,_ | ⟨s,ss⟩⟩
    · exact Nat.le_refl _
    · simp [collapse]
    · exact (size_build _).le
  -- Fewer than two operands build no node, which only happens to a list that has lessened.
  rcases lessened with rfl | less
  · rcases ss with _ | ⟨r,_ | ⟨s,ss⟩⟩
    · cases several
    · simp at several
    · exact .inl rfl
  · rw [size_build]
    exact .inr (by omega)

theorem lessened_factors (rs : List Regex) : Lessened rs (rs.flatMap factors) := by
  refine .flatMap fun r _ => ?_
  cases r with
  | seq rs => exact .inr (by simp [factors])
  | _ => exact .refl _

theorem lessened_alternatives (rs : List Regex) : Lessened rs (rs.flatMap alternatives) := by
  refine .flatMap fun r _ => ?_
  cases r with
  | choice rs => exact .inr (by simp [alternatives])
  | _ => exact .refl _

theorem eraseDups_sublist (rs : List Regex) : rs.eraseDups.Sublist rs := by
  induction rs using List.reverseRecOn with
  | nil => exact .slnil
  | append_singleton rs r ih =>
    rw [eraseDups_concat]
    split
    · exact ih.trans (List.sublist_append_left rs [r])
    · exact ih.append (List.Sublist.refl [r])

theorem rewriteSequence_eq_or_size_lt {rs ss : List Regex} (several : 2 ≤ rs.length) (lessened : Lessened rs ss) :
    rewriteSequence ss = seq rs ∨ (rewriteSequence ss).size < (seq rs).size := by
  have kept : Lessened ss ((ss.flatMap factors).filter fun r => !r.isEpsilon) :=
    (lessened_factors ss).trans (.of_sublist List.filter_sublist)
  have merged : Lessened ss (mergeBackward (mergeForward [] ((ss.flatMap factors).filter fun r => !r.isEpsilon))) :=
    (kept.trans (.mergeForward [])).trans (.mergeBackward _)
  exact collapse_eq_or_size_lt size_seq several ((lessened.trans merged).trans (lessened_factors _))

theorem rewriteChoice_eq_or_size_lt {rs ss : List Regex} (several : 2 ≤ rs.length) (lessened : Lessened rs ss) :
    rewriteChoice ss = choice rs ∨ (rewriteChoice ss).size < (choice rs).size := by
  have unique : Lessened ss (ss.flatMap alternatives).eraseDups :=
    (lessened_alternatives ss).trans (.of_sublist (eraseDups_sublist _))
  exact collapse_eq_or_size_lt size_choice several ((lessened.trans unique).trans (lessened_alternatives _))

/-- To whatever depth a flat tree is simplified, it stays the same or has fewer nodes. -/
theorem Flat.optimiseToDepth_eq_or_size_lt {r : Regex} (flat : r.Flat) (depth : Nat) :
    r.optimiseToDepth depth = r ∨ (r.optimiseToDepth depth).size < r.size := by
  induction depth generalizing r with
  | zero => exact .inl rfl
  | succ depth ih =>
    cases flat with
    | char c => exact .inl rfl
    | @quant q r flat =>
      rw [optimiseToDepth]
      rcases ih flat with same | less
      · rw [same]
        exact rewriteQuant_eq_or_size_lt q r
      · have bounded : (rewriteQuant q (r.optimiseToDepth depth)).size ≤ (r.optimiseToDepth depth).size + 1 := by
          rcases rewriteQuant_eq_or_size_lt q (r.optimiseToDepth depth) with same | less
          · simp [same]
          · simpa using less.le
        right
        rw [size_quant]
        omega
    | seq several flats =>
      rw [optimiseToDepth]
      exact rewriteSequence_eq_or_size_lt several (.map fun r member => ih (flats r member))
    | choice several flats =>
      rw [optimiseToDepth]
      exact rewriteChoice_eq_or_size_lt several (.map fun r member => ih (flats r member))

/-- What never grows and only stays the same at a fixed point comes to one, at the latest when its size is used up. -/
theorem exists_fixed {α : Type} {P : α → Prop} {f : α → α} {μ : α → Nat} (keeps : ∀ x, P x → P (f x))
    (shrinks : ∀ x, P x → f x = x ∨ μ (f x) < μ x) {x : α} (start : P x) :
    ∃ n ≤ μ x, Function.IsFixedPt f (f^[n] x) := by
  induction size : μ x using Nat.strong_induction_on generalizing x with
  | _ n ih =>
    subst size
    rcases shrinks x start with same | less
    · exact ⟨0,Nat.zero_le _,same⟩
    · obtain ⟨n,bound,fixed⟩ := ih (μ (f x)) less (keeps x start) rfl
      exact ⟨n + 1,by omega,by rwa [Function.iterate_succ_apply]⟩

/-- A simplification to any depth leaves a flat tree as it is or takes nodes away; from the height of the tree on it is
    the simplification of the whole. To repeat it leads to a fixed point in no more turns than the tree has nodes. -/
theorem simplification_ends {r : Regex} (flat : r.Flat) :
    (∀ depth, r.optimiseToDepth depth = r ∨ (r.optimiseToDepth depth).size < r.size) ∧
    (∀ depth, r.height ≤ depth → r.optimiseToDepth depth = r.optimise) ∧
    ∀ depth, ∃ n ≤ r.size, Function.IsFixedPt (optimiseToDepth depth) ((optimiseToDepth depth)^[n] r) := by
  refine ⟨flat.optimiseToDepth_eq_or_size_lt,fun _ => optimiseToDepth_eq_optimise,fun depth => ?_⟩
  exact exists_fixed (P := Flat) (fun r flat => (optimiseToDepth_sound depth flat).1)
    (fun r flat => flat.optimiseToDepth_eq_or_size_lt depth) flat

/-- Where only the root is simplified, it takes a second turn to get at the quantifier under the first. -/
theorem simplification_ends_nested : ∃ r, parse "(((ab)?)+)*" = .ok (some r) ∧ r.Flat ∧ r.size = 6 ∧ r.height = 4 ∧
    toString (r.optimiseToDepth 1) = "(ab)?*" ∧ toString ((r.optimiseToDepth 1).optimiseToDepth 1) = "(ab)*" ∧
    (r.optimiseToDepth 1 = r ∨ (r.optimiseToDepth 1).size < r.size) ∧ r.optimiseToDepth 4 = r.optimise ∧
    ∃ n ≤ 6, Function.IsFixedPt (optimiseToDepth 1) ((optimiseToDepth 1)^[n] r) := by
  obtain ⟨r,parsed,size,height,once,twice⟩ : ∃ r, parse "(((ab)?)+)*" = .ok (some r) ∧ r.size = 6 ∧ r.height = 4 ∧
      toString (r.optimiseToDepth 1) = "(ab)?*" ∧ toString ((r.optimiseToDepth 1).optimiseToDepth 1) = "(ab)*" :=
    ⟨_,rfl,by decide,by decide,by decide,by decide⟩
  obtain ⟨less,whole,fixed⟩ := simplification_ends (parse_flat parsed)
  exact ⟨r,parsed,parse_flat parsed,size,height,once,twice,less 1,whole 4 (Nat.le_of_eq height),size ▸ fixed 1⟩

end StepwiseAutomata.Regex
