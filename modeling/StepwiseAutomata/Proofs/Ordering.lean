import Mathlib
import StepwiseAutomata.Epsilon

namespace StepwiseAutomata

namespace Regex

mutual
/-- The rank of the operator, then the character or the operands. In a list each operand is announced, and so is the
    end, which comes first in the order. -/
def word : Regex → List Nat
  | .char c => [Operator.leaf.rank,c.toNat]
  | .quant q r => q.operator.rank :: word r
  | .seq rs => Operator.sequence.rank :: words rs
  | .choice rs => Operator.choice.rank :: words rs
def words : List Regex → List Nat
  | [] => [0]
  | r :: rs => 1 :: (word r ++ words rs)
end

/-- Where words of equal trees go on differently, the rest decides. -/
private theorem compare_words {rs : List Regex} (each : ∀ r ∈ rs, ∀ s xs ys,
    compare (r.word ++ xs) (s.word ++ ys) = (cmp r s).then (compare xs ys)) (ss : List Regex) (xs ys : List Nat) :
    compare (words rs ++ xs) (words ss ++ ys) = (cmpList rs ss).then (compare xs ys) := by
  induction rs generalizing ss with
  | nil => cases ss with
    | nil => simp [words,cmpList]
    | cons s ss => simp [words,cmpList,show compare 0 1 = Ordering.lt from rfl]
  | cons r rs ih => cases ss with
    | nil => simp [words,cmpList,show compare 1 0 = Ordering.gt from rfl]
    | cons s ss =>
      have rest := ih (fun q member => each q (List.mem_cons_of_mem r member)) ss
      simp [words,cmpList,each r List.mem_cons_self,rest,Ordering.then_assoc]

theorem compare_word_append (r s : Regex) (xs ys : List Nat) :
    compare (r.word ++ xs) (s.word ++ ys) = (cmp r s).then (compare xs ys) := by
  induction r generalizing s xs ys with
  | char c => cases s with
    | char d => simp [word,cmp]
    | quant q s => cases q <;> rfl
    | _ => rfl
  | quant p r ih => cases s with
    | quant q s => simp [word,cmp,ih,Ordering.then_assoc]
    | _ => cases p <;> rfl
  | seq rs ih => cases s with
    | seq ss => simp [word,cmp,compare_words ih]
    | quant q s => cases q <;> rfl
    | _ => rfl
  | choice rs ih => cases s with
    | choice ss => simp [word,cmp,compare_words ih]
    | quant q s => cases q <;> rfl
    | _ => rfl

/-- Expressions compare like their words. -/
theorem cmp_eq_compare_word (r s : Regex) : cmp r s = compare r.word s.word := by
  have whole := compare_word_append r s [] []
  simpa using whole.symm

instance : Std.TransOrd Regex := by
  have same : (compare : Regex → Regex → Ordering) = compareOn word := by
    funext r s
    exact cmp_eq_compare_word r s
  show Std.TransCmp compare
  rw [same]
  infer_instance

instance : Std.LawfulEqOrd Regex where
  compare_self {r} := (cmp_eq_iff r r).mpr rfl
  eq_of_compare {r s} same := (cmp_eq_iff r s).mp same

instance : Std.TransCmp cmp := inferInstanceAs (Std.TransOrd Regex)

theorem cmp_swap (r s : Regex) : cmp s r = (cmp r s).swap := Std.OrientedCmp.eq_swap

theorem cmp_trans {r s t : Regex} (first : (cmp r s).isLE = true) (second : (cmp s t).isLE = true) :
    (cmp r t).isLE = true := Std.TransCmp.isLE_trans first second

theorem cmp_total (r s : Regex) : ((cmp r s).isLE || (cmp s r).isLE) = true := by
  rw [cmp_swap r s]
  cases cmp r s <;> rfl

theorem cmp_antisymm {r s : Regex} (first : (cmp r s).isLE = true) (second : (cmp s r).isLE = true) : r = s :=
  (cmp_eq_iff r s).mp (Std.OrientedCmp.isLE_antisymm first second)

/-- A tree is its operator together with its character or its operands. -/
theorem eq_iff_views (r s : Regex) :
    r = s ↔ r.operator = s.operator ∧ r.charValue = s.charValue ∧ r.operands = s.operands := by
  have quantifier (p q : Quantifier) : p.operator = q.operator ↔ p = q := by
    cases p <;> cases q <;> decide
  cases r with
  | char c => cases s with
    | char d => simp [operator,charValue,operands]
    | quant q s => cases q <;> simp [operator,Quantifier.operator]
    | _ => simp [operator]
  | quant p r => cases s with
    | quant q s => cases r <;> cases s <;> simp [operator,charValue,operands,quantifier]
    | _ => cases p <;> simp [operator,Quantifier.operator]
  | seq rs => cases s with
    | seq ss => simp [operator,charValue,operands]
    | quant q s => cases q <;> simp [operator,Quantifier.operator]
    | _ => simp [operator]
  | choice rs => cases s with
    | choice ss => simp [operator,charValue,operands]
    | quant q s => cases q <;> simp [operator,Quantifier.operator]
    | _ => simp [operator]

theorem operands_of_charValue {r : Regex} {c : Char} (shown : r.charValue = some c) : r.operands = [] := by
  cases r with
  | quant q r => cases r <;> first | rfl | cases shown
  | char d => rfl
  | _ => cases shown

/-- The operator is spelled first, then the character or the operands. -/
theorem spelling_eq (r : Regex) : r.spelling = r.operator.rank :: match r.charValue with
    | some c => [0,c.toNat]
    | none => 1 :: r.operands.length :: spellings r.operands := by
  cases r with
  | quant q r => cases r <;> simp [spelling,spellings,operator,charValue,operands]
  | _ => simp [spelling,operator,charValue,operands,Operator.rank]

private theorem spellings_append_inj {rs ss : List Regex} {xs ys : List Nat} (each : ∀ r ∈ rs, ∀ s xs ys,
    r.spelling ++ xs = s.spelling ++ ys → r = s ∧ xs = ys) (many : rs.length = ss.length)
    (equal : spellings rs ++ xs = spellings ss ++ ys) : rs = ss ∧ xs = ys := by
  induction rs generalizing ss with
  | nil =>
    cases List.length_eq_zero_iff.mp many.symm
    exact ⟨rfl,equal⟩
  | cons r rs ih =>
    cases ss with
    | nil => cases many
    | cons s ss =>
      rw [spellings,spellings,List.append_assoc,List.append_assoc] at equal
      obtain ⟨first,equal⟩ := each r List.mem_cons_self s _ _ equal
      obtain ⟨rest,after⟩ := ih (fun q member => each q (List.mem_cons_of_mem r member)) (Nat.succ.inj many) equal
      exact ⟨congrArg₂ List.cons first rest,after⟩

/-- No tree is spelled like the beginning of another one: where the spelling ends can be told from what it says. -/
theorem spelling_append_inj {r s : Regex} {xs ys : List Nat} (equal : r.spelling ++ xs = s.spelling ++ ys) :
    r = s ∧ xs = ys := by
  -- A quantifier on a character is spelled like a leaf, so the cases are those of what a tree shows.
  have step {r s : Regex} {xs ys : List Nat} (each : ∀ o ∈ r.operands, ∀ s xs ys,
      o.spelling ++ xs = s.spelling ++ ys → o = s ∧ xs = ys) (equal : r.spelling ++ xs = s.spelling ++ ys) :
      r = s ∧ xs = ys := by
    rw [spelling_eq,spelling_eq,List.cons_append,List.cons_append,List.cons.injEq] at equal
    obtain ⟨rank,equal⟩ := equal
    have operator := Operator.rank_injective rank
    rw [eq_iff_views]
    cases first : r.charValue with
    | some c => cases second : s.charValue with
      | some d =>
        simp only [first,second,List.cons_append,List.nil_append,List.cons.injEq,true_and,Char.toNat_inj] at equal
        obtain ⟨rfl,after⟩ := equal
        exact ⟨⟨operator,rfl,(operands_of_charValue first).trans (operands_of_charValue second).symm⟩,after⟩
      | none => simp [first,second] at equal
    | none => cases second : s.charValue with
      | some d => simp [first,second] at equal
      | none =>
        simp only [first,second,List.cons_append,List.cons.injEq,true_and] at equal
        obtain ⟨operands,after⟩ := spellings_append_inj each equal.1 equal.2
        exact ⟨⟨operator,rfl,operands⟩,after⟩
  induction r generalizing s xs ys with
  | char c => exact step nofun equal
  | quant q r ih =>
    refine step (fun o member s xs ys => ?_) equal
    cases r with
    | char c => cases member
    | _ => exact List.mem_singleton.mp member ▸ ih
  | seq rs ih => exact step (fun o member s xs ys => ih o member) equal
  | choice rs ih => exact step (fun o member s xs ys => ih o member) equal

theorem spelling_inj {r s : Regex} : r.spelling = s.spelling ↔ r = s :=
  ⟨fun equal => (spelling_append_inj (congrArg (· ++ []) equal)).1,congrArg spelling⟩

end Regex

namespace Arc

/-- By source, then label, then target, each by its own order. -/
def order : Arc → Arc → Ordering :=
  compareLex (compareOn Arc.source) (compareLex (compareOn Arc.label) (compareOn Arc.target))

instance : Std.TransCmp order :=
  inferInstanceAs (Std.TransCmp
    (compareLex (compareOn Arc.source) (compareLex (compareOn Arc.label) (compareOn Arc.target))))

theorem le_eq (x y : Arc) : le x y = (order x y).isLE := rfl

theorem order_swap (x y : Arc) : order y x = (order x y).swap := Std.OrientedCmp.eq_swap

theorem le_trans (x y z : Arc) (first : le x y = true) (second : le y z = true) : le x z = true := by
  rw [le_eq] at first second ⊢
  exact Std.TransCmp.isLE_trans first second

theorem le_total (x y : Arc) : (le x y || le y x) = true := by
  rw [le_eq,le_eq,order_swap x y]
  cases order x y <;> rfl

theorem le_antisymm {x y : Arc} (first : le x y = true) (second : le y x = true) : x = y := by
  rw [le_eq] at first second
  have equal := Std.OrientedCmp.isLE_antisymm first second
  simp only [order,compareLex,compareOn,Ordering.then_eq_eq,Std.LawfulEqOrd.compare_eq_iff_eq] at equal
  obtain ⟨source,label,target⟩ := equal
  cases x
  cases y
  cases source
  cases label
  cases target
  rfl

end Arc

theorem mem_eraseReps {α : Type} [BEq α] [LawfulBEq α] {xs : List α} {x : α} : x ∈ xs.eraseReps ↔ x ∈ xs := by
  have loop (a : α) (xs acc : List α) : x ∈ List.eraseRepsBy.loop (· == ·) a xs acc ↔ x = a ∨ x ∈ xs ∨ x ∈ acc := by
    induction xs generalizing a acc with
    | nil => simp [List.eraseRepsBy.loop,or_comm]
    | cons y ys ih =>
      rw [List.eraseRepsBy.loop]
      split
      · rename_i same
        rw [ih,List.mem_cons,eq_of_beq same]
        grind
      · rw [ih,List.mem_cons,List.mem_cons]
        grind
  cases xs with
  | nil => rfl
  | cons y ys =>
    show x ∈ List.eraseRepsBy.loop (· == ·) y ys [] ↔ _
    rw [loop,List.mem_cons]
    simp

/-- What has been seen of a sorted list lies strictly before what is to come, so that nothing comes twice. -/
private theorem nodup_eraseReps_loop {α : Type} [BEq α] [LawfulBEq α] {le : α → α → Prop}
    (antisymm : ∀ {x y}, le x y → le y x → x = y) (a : α) (xs acc : List α) (sorted : (a :: xs).Pairwise le)
    (nodup : acc.Nodup) (before : ∀ x ∈ acc, ∀ y ∈ a :: xs, le x y ∧ x ≠ y) :
    (List.eraseRepsBy.loop (· == ·) a xs acc).Nodup := by
  induction xs generalizing a acc with
  | nil =>
    rw [List.eraseRepsBy.loop,List.nodup_reverse,List.nodup_cons]
    exact ⟨fun member => (before a member a List.mem_cons_self).2 rfl,nodup⟩
  | cons y ys ih =>
    obtain ⟨first,rest⟩ := List.pairwise_cons.mp sorted
    rw [List.eraseRepsBy.loop]
    split
    · rename_i same
      obtain rfl := eq_of_beq same
      exact ih a acc rest nodup fun x member z listed => before x member z (List.mem_cons_of_mem a listed)
    · rename_i other
      refine ih y (a :: acc) rest (List.nodup_cons.mpr ⟨?_,nodup⟩) (List.forall_mem_cons.mpr ⟨?_,?_⟩)
      · exact fun member => (before a member a List.mem_cons_self).2 rfl
      · intro z listed
        refine ⟨first z listed,?_⟩
        rintro rfl
        rcases List.mem_cons.mp listed with same | later
        · exact (beq_eq_false_iff_ne.mp other) same
        · have back := (List.pairwise_cons.mp rest).1 a later
          exact (beq_eq_false_iff_ne.mp other) (antisymm (first y List.mem_cons_self) back)
      · exact fun x member z listed => before x member z (List.mem_cons_of_mem a listed)

/-- A sorted list has equal elements side by side. -/
theorem nodup_eraseReps {α : Type} [BEq α] [LawfulBEq α] {le : α → α → Prop}
    (antisymm : ∀ {x y}, le x y → le y x → x = y) {xs : List α} (sorted : xs.Pairwise le) : xs.eraseReps.Nodup := by
  cases xs with
  | nil => exact List.nodup_nil
  | cons x xs => exact nodup_eraseReps_loop antisymm x xs [] sorted List.nodup_nil nofun

/-- Sorting arcs and dropping repetitions leaves each arc once. -/
theorem nodup_eraseReps_mergeSort (arcs : List Arc) : (arcs.mergeSort Arc.le).eraseReps.Nodup :=
  nodup_eraseReps Arc.le_antisymm (List.pairwise_mergeSort Arc.le_trans Arc.le_total arcs)

namespace Regex

/-- Sorting expressions and dropping repetitions leaves each expression once. -/
theorem nodup_eraseReps_sort (rs : List Regex) : (sort rs).eraseReps.Nodup := by
  have sorted : (sort rs).Pairwise fun r s => (cmp r s).isLE = true :=
    List.pairwise_mergeSort (fun r s t => cmp_trans (r := r) (s := s) (t := t)) cmp_total rs
  exact nodup_eraseReps cmp_antisymm sorted

/-- The order of expressions is total, and equality, the order relation and the spelling that is hashed agree with it:
    what compares equal shows the same operator, the same character and the same operands. Whatever is sorted by it
    loses all its duplicates, and nothing else, with its repetitions. -/
theorem order_exact :
    (∀ r s : Regex, (cmp r s = .eq ↔ r.operator = s.operator ∧ r.charValue = s.charValue ∧ r.operands = s.operands) ∧
      cmp s r = (cmp r s).swap ∧ ((r == s) = true ↔ cmp r s = .eq) ∧ (r < s ↔ cmp r s = .lt) ∧
      (r ≤ s ↔ (cmp r s).isLE) ∧ (r.spelling = s.spelling ↔ cmp r s = .eq)) ∧
    (∀ r s t : Regex, (cmp r s).isLE → (cmp s t).isLE → (cmp r t).isLE) ∧
    (∀ rs : List Regex, (sort rs).eraseReps.Nodup ∧ ∀ r, r ∈ (sort rs).eraseReps ↔ r ∈ rs) ∧
    ∀ arcs : List Arc, (arcs.mergeSort Arc.le).eraseReps.Nodup ∧
      ∀ arc, arc ∈ (arcs.mergeSort Arc.le).eraseReps ↔ arc ∈ arcs := by
  refine ⟨fun r s => ⟨?_,cmp_swap r s,?_,Iff.rfl,Iff.rfl,?_⟩,fun r s t => cmp_trans,
    fun rs => ⟨nodup_eraseReps_sort rs,?_⟩,fun arcs => ⟨nodup_eraseReps_mergeSort arcs,?_⟩⟩
  · rw [cmp_eq_iff,eq_iff_views]
  · rw [beq_iff_eq,cmp_eq_iff]
  · rw [spelling_inj,cmp_eq_iff]
  · intro r
    rw [mem_eraseReps,sort,List.mem_mergeSort]
  · intro arc
    rw [mem_eraseReps,List.mem_mergeSort]

/-- Of two sequences the first operand that differs decides, and only then the length. -/
theorem order_exact_lengths :
    cmp (.seq [.char 'a',.char 'b']) (.seq [.char 'a',.char 'b',.char 'c']) = .lt ∧
      cmp (.seq [.char 'a',.char 'b',.char 'c']) (.seq [.char 'b',.char 'a']) = .lt ∧
      (cmp (.seq [.char 'a',.char 'b']) (.seq [.char 'b',.char 'a'])).isLE :=
  ⟨by decide,by decide,order_exact.2.1 _ (.seq [.char 'a',.char 'b',.char 'c']) _ (by decide) (by decide)⟩

end Regex
end StepwiseAutomata
