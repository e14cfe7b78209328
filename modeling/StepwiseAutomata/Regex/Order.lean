import StepwiseAutomata.Regex.Basic

namespace StepwiseAutomata.Regex

mutual
/-- Compares the operators, then the characters or the operands; a proper beginning comes first. -/
def cmp : Regex → Regex → Ordering
  | .char c,.char d => compare c.toNat d.toNat
  | .quant p r,.quant q s => (compare p.operator.rank q.operator.rank).then (cmp r s)
  | .seq rs,.seq ss => cmpList rs ss
  | .choice rs,.choice ss => cmpList rs ss
  | r,s => compare r.operator.rank s.operator.rank
def cmpList : List Regex → List Regex → Ordering
  | [],[] => .eq
  | [],_ :: _ => .lt
  | _ :: _,[] => .gt
  | r :: rs,s :: ss => (cmp r s).then (cmpList rs ss)
end

private theorem compare_nat_eq {m n : Nat} : compare m n = .eq ↔ m = n := by
  simp

private theorem operator_injective {p q : Quantifier} (h : p.operator = q.operator) : p = q := by
  simpa using congrArg Operator.quantifier? h

private theorem cmpList_eq_iff {rs : List Regex} (h : ∀ r ∈ rs, ∀ s, cmp r s = .eq ↔ r = s) :
    ∀ ss, cmpList rs ss = .eq ↔ rs = ss := by
  induction rs with
  | nil => intro ss; cases ss <;> simp [cmpList]
  | cons r rs ih =>
    intro ss
    cases ss with
    | nil => simp [cmpList]
    | cons s ss =>
      have head := h r (by simp) s
      have tail := ih (fun r hr => h r (by simp [hr])) ss
      simp [cmpList,Ordering.then_eq_eq,head,tail]

theorem cmp_eq_iff (r s : Regex) : cmp r s = .eq ↔ r = s := by
  induction r generalizing s with
  | char c => cases s with
    | char d => simp [cmp,Char.toNat_inj]
    | quant q _ => cases q <;> simp [cmp,operator,Operator.rank,Quantifier.operator]
    | _ => simp [cmp,operator,Operator.rank]
  | quant p r ih => cases s with
    | quant q s =>
      simp only [cmp,Ordering.then_eq_eq,compare_nat_eq,ih,quant.injEq]
      exact and_congr_left fun _ => ⟨fun h => operator_injective (Operator.rank_injective h),fun h => h ▸ rfl⟩
    | _ => cases p <;> simp [cmp,operator,Operator.rank,Quantifier.operator]
  | seq rs ih => cases s with
    | seq ss => simp [cmp,cmpList_eq_iff ih ss]
    | quant q _ => cases q <;> simp [cmp,operator,Operator.rank,Quantifier.operator]
    | _ => simp [cmp,operator,Operator.rank]
  | choice rs ih => cases s with
    | choice ss => simp [cmp,cmpList_eq_iff ih ss]
    | quant q _ => cases q <;> simp [cmp,operator,Operator.rank,Quantifier.operator]
    | _ => simp [cmp,operator,Operator.rank]

instance : DecidableEq Regex := fun r s => decidable_of_iff (cmp r s = .eq) (cmp_eq_iff r s)

instance : Ord Regex := ⟨cmp⟩

instance : LT Regex := ltOfOrd

instance : LE Regex := leOfOrd

mutual
/-- A word of numbers that spells the tree: operator rank, then `0` and the character or `1`, the number of
    operands and the operands. -/
def spelling : Regex → List Nat
  | .char c => [0,0,c.toNat]
  | .quant q (.char c) => [q.operator.rank,0,c.toNat]
  | .quant q r => q.operator.rank :: 1 :: 1 :: spelling r
  | .seq rs => Operator.sequence.rank :: 1 :: rs.length :: spellings rs
  | .choice rs => Operator.choice.rank :: 1 :: rs.length :: spellings rs
def spellings : List Regex → List Nat
  | [] => []
  | r :: rs => spelling r ++ spellings rs
end

instance : Hashable Regex := ⟨fun r => hash r.spelling⟩

/-- Sorted by the order of expressions; equal expressions stay in place. -/
def sort (rs : List Regex) : List Regex := rs.mergeSort fun r s => (cmp r s).isLE

end StepwiseAutomata.Regex
