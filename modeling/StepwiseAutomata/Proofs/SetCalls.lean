import Mathlib.Data.Finset.Card
import StepwiseAutomata.StateSet.Calls

namespace StepwiseAutomata

namespace SetCall

/-- The answer to a call, and the sets after it. -/
def ask (sets : List (Finset UInt32)) : SetCall → Option Bool × List (Finset UInt32)
  | withCapacity _ => (none,sets ++ [∅])
  | singleton x _ => (none,sets ++ [{x}])
  | ofList xs => (none,sets ++ [xs.toFinset])
  | copy i => (none,sets ++ sets[i]?.toList)
  | add i x => (sets[i]?.map fun r => decide (x ∉ r),sets.modify i (insert x))
  | erase i x => (none,sets.modify i (·.erase x))
  | union i j => (none,sets.modify i (· ∪ sets[j]?.getD ∅))

def askFrom (sets : List (Finset UInt32)) : List SetCall → List (Option Bool) × List (Finset UInt32)
  | [] => ([],sets)
  | call :: calls =>
    let (answer,sets) := call.ask sets
    let (answers,sets) := askFrom sets calls
    (answer :: answers,sets)

def askAll (calls : List SetCall) : List (Option Bool) × List (Finset UInt32) := askFrom [] calls

end SetCall

/-- The number is that of a member. -/
def HasId (r : Finset UInt32) (n : Nat) : Prop := ∃ x ∈ r, x.toNat = n

section
variable {r q : Finset UInt32} {n : Nat}

@[simp] theorem hasId_toNat {x : UInt32} : HasId r x.toNat ↔ x ∈ r :=
  ⟨fun ⟨_,member,same⟩ => UInt32.toNat_inj.mp same ▸ member,fun member => ⟨x,member,rfl⟩⟩

@[simp] theorem not_hasId_empty : ¬HasId ∅ n := fun ⟨_,member,_⟩ => Finset.notMem_empty _ member

@[simp] theorem hasId_insert {x : UInt32} : HasId (insert x r) n ↔ n = x.toNat ∨ HasId r n := by
  simp [HasId,eq_comm]

@[simp] theorem hasId_union : HasId (r ∪ q) n ↔ HasId r n ∨ HasId q n := by
  simp only [HasId,Finset.mem_union,or_and_right,exists_or]

@[simp] theorem hasId_erase {x : UInt32} : HasId (r.erase x) n ↔ n ≠ x.toNat ∧ HasId r n := by
  constructor
  · rintro ⟨y,member,rfl⟩
    obtain ⟨other,member⟩ := Finset.mem_erase.mp member
    exact ⟨fun same => other (UInt32.toNat_inj.mp same),hasId_toNat.mpr member⟩
  · rintro ⟨other,y,member,rfl⟩
    exact hasId_toNat.mpr (Finset.mem_erase.mpr ⟨fun same => other (congrArg _ same),member⟩)

theorem HasId.lt_size (has : HasId r n) : n < UInt32.size := by
  obtain ⟨x,-,rfl⟩ := has
  exact x.toNat_lt_size

theorem forall_not_hasId : (∀ n, ¬HasId r n) ↔ r = ∅ := by
  constructor
  · exact fun none => Finset.eq_empty_of_forall_notMem fun x member => none x.toNat (hasId_toNat.mpr member)
  · rintro rfl n
    exact not_hasId_empty

theorem exists_hasId_both : (∃ n, HasId r n ∧ HasId q n) ↔ (r ∩ q).Nonempty := by
  constructor
  · rintro ⟨_,⟨x,member,rfl⟩,other⟩
    exact ⟨x,Finset.mem_inter.mpr ⟨member,hasId_toNat.mp other⟩⟩
  · rintro ⟨x,member⟩
    obtain ⟨first,second⟩ := Finset.mem_inter.mp member
    exact ⟨x.toNat,hasId_toNat.mpr first,hasId_toNat.mpr second⟩

end

/-- The members are listed in ascending order, each of them once. -/
structure Lists (xs : List Nat) (r : Finset UInt32) : Prop where
  ascending : xs.Pairwise (· < ·)
  mem_iff (n : Nat) : n ∈ xs ↔ HasId r n

namespace Lists

variable {xs ys : List Nat} {r q : Finset UInt32}

theorem eq_iff (first : Lists xs r) (second : Lists ys q) : xs = ys ↔ r = q := by
  constructor
  · rintro rfl
    ext x
    rw [← hasId_toNat,← first.mem_iff,second.mem_iff,hasId_toNat]
  · rintro rfl
    have same : (⟨xs,first.ascending⟩ : StateSet) = ⟨ys,second.ascending⟩ :=
      StateSet.ext fun n => (first.mem_iff n).trans (second.mem_iff n).symm
    exact congrArg StateSet.members same

theorem length_eq (lists : Lists xs r) : xs.length = r.card := by
  have numbers : r.image UInt32.toNat = xs.toFinset := by
    ext n
    rw [Finset.mem_image,List.mem_toFinset,lists.mem_iff,HasId]
  calc xs.length = xs.toFinset.card :=
        (List.toFinset_card_of_nodup (lists.ascending.imp fun lt => lt.ne)).symm
    _ = (r.image UInt32.toNat).card := by rw [numbers]
    _ = r.card := Finset.card_image_of_injective r fun _ _ => UInt32.toNat_inj.mp

theorem eq_nil_iff (lists : Lists xs r) : xs = [] ↔ r = ∅ := by
  rw [← List.length_eq_zero_iff,lists.length_eq,Finset.card_eq_zero]

/-- A hasher that records what it is fed with tells any two lists apart. -/
theorem feed_iff (first : Lists xs r) (second : Lists ys q) :
    (∀ (η : Type) (write : η → Nat → η) (hasher : η), xs.foldl write hasher = ys.foldl write hasher) ↔ r = q := by
  rw [← first.eq_iff second]
  constructor
  · intro same
    have record := same (List Nat) (fun seen n => n :: seen) []
    rw [List.foldl_flip_cons_eq_append,List.foldl_flip_cons_eq_append] at record
    simpa using record
  · rintro rfl _ _ _
    rfl

end Lists

namespace SetOps

variable {σ : Type} {ops : SetOps σ}

/-- The set is seen to have the members `r`. -/
structure Shows (ops : SetOps σ) (s : σ) (r : Finset UInt32) : Prop where
  contains (x : UInt32) : ops.contains s x = true ↔ x ∈ r
  isEmpty : ops.isEmpty s = true ↔ r = ∅
  size : ops.size s = r.card
  ids : Lists (ops.ids s) r

/-- The sets are seen to have the members `r` and `q` when they are compared. -/
structure Compares (ops : SetOps σ) (s t : σ) (r q : Finset UInt32) : Prop where
  intersects : ops.intersects s t = true ↔ (r ∩ q).Nonempty
  equal : ops.equal s t = true ↔ r = q
  feed : (∀ (η : Type) (write : η → Nat → η) (hasher : η), ops.feed write s hasher = ops.feed write t hasher) ↔ r = q

/-- No call fails, every answer is the one asked for, and in the end each set and each two sets show the members that
    they should have. -/
def Exact (ops : SetOps σ) (calls : List SetCall) : Prop :=
  ∃ sets, ops.run calls = some ((SetCall.askAll calls).1,sets) ∧
    List.Forall₂ ops.Shows sets (SetCall.askAll calls).2 ∧
    ∀ p ∈ sets.zip (SetCall.askAll calls).2, ∀ p' ∈ sets.zip (SetCall.askAll calls).2,
      ops.Compares p.1 p'.1 p.2 p'.2

/-- Sets stand for finite sets in a manner that every operation keeps and that decides what they show. -/
structure Faithful (ops : SetOps σ) (Stands : σ → Finset UInt32 → Prop) : Prop where
  withCapacity (n : Nat) : Stands (ops.withCapacity n) ∅
  singleton (x : UInt32) (n : Nat) : ∃ s, ops.singleton? x n = some s ∧ Stands s {x}
  ofList (xs : List UInt32) : ∃ s, ops.ofList? xs = some s ∧ Stands s xs.toFinset
  add {s : σ} {r : Finset UInt32} (x : UInt32) : Stands s r →
    ∃ t, ops.add? s x = some (decide (x ∉ r),t) ∧ Stands t (insert x r)
  erase {s : σ} {r : Finset UInt32} (x : UInt32) : Stands s r → ∃ t, ops.erase? s x = some t ∧ Stands t (r.erase x)
  union {s t : σ} {r q : Finset UInt32} : Stands s r → Stands t q → Stands (ops.union s t) (r ∪ q)
  shows {s : σ} {r : Finset UInt32} : Stands s r → ops.Shows s r
  compares {s t : σ} {r q : Finset UInt32} : Stands s r → Stands t q → ops.Compares s t r q

section
variable {R : σ → Finset UInt32 → Prop} {sets : List σ} {wanted : List (Finset UInt32)}

theorem related_getElem? (related : List.Forall₂ R sets wanted) (i : Nat) :
    (sets[i]? = none ∧ wanted[i]? = none) ∨ ∃ s r, sets[i]? = some s ∧ wanted[i]? = some r ∧ R s r := by
  induction related generalizing i with
  | nil => exact .inl ⟨rfl,rfl⟩
  | cons first _ ih => cases i with
    | zero => exact .inr ⟨_,_,rfl,rfl,first⟩
    | succ i => exact ih i

theorem related_set (related : List.Forall₂ R sets wanted) {s : σ} {r : Finset UInt32} (new : R s r) (i : Nat) :
    List.Forall₂ R (sets.set i s) (wanted.set i r) := by
  induction related generalizing i with
  | nil => exact .nil
  | cons first rest ih => cases i with
    | zero => exact .cons new rest
    | succ i => exact .cons first (ih i)

theorem related_concat (related : List.Forall₂ R sets wanted) {s : σ} {r : Finset UInt32} (new : R s r) :
    List.Forall₂ R (sets ++ [s]) (wanted ++ [r]) := List.rel_append related (.cons new .nil)

theorem related_of_mem_zip (related : List.Forall₂ R sets wanted) {p : σ × Finset UInt32}
    (member : p ∈ sets.zip wanted) : R p.1 p.2 := (List.forall₂_iff_zip.mp related).2 member

/-- One set is changed, the others stay. -/
theorem related_change (related : List.Forall₂ R sets wanted) (i : Nat) (f : σ → Option (Option Bool × σ))
    (answer : Finset UInt32 → Option Bool) (g : Finset UInt32 → Finset UInt32)
    (keeps : ∀ s r, sets[i]? = some s → wanted[i]? = some r → R s r → ∃ t, f s = some (answer r,t) ∧ R t (g r)) :
    ∃ after, change sets i f = some (wanted[i]?.bind answer,after) ∧ List.Forall₂ R after (wanted.modify i g) := by
  rcases related_getElem? related i with ⟨absent,unwanted⟩ | ⟨s,r,here,there,stands⟩
  · refine ⟨sets,by rw [change,absent,unwanted]; rfl,?_⟩
    rwa [List.modify_eq_set_getElem?,unwanted]
  · obtain ⟨t,changed,new⟩ := keeps s r here there stands
    refine ⟨sets.set i t,by rw [change,here,there]; simp [changed],?_⟩
    rw [List.modify_eq_set_getElem?,there]
    exact related_set related new i

theorem Faithful.step (faithful : ops.Faithful R) (related : List.Forall₂ R sets wanted) (call : SetCall) :
    ∃ after, ops.step sets call = some ((call.ask wanted).1,after) ∧ List.Forall₂ R after (call.ask wanted).2 := by
  cases call with
  | withCapacity n => exact ⟨_,rfl,related_concat related (faithful.withCapacity n)⟩
  | singleton x n =>
    obtain ⟨s,made,stands⟩ := faithful.singleton x n
    exact ⟨sets ++ [s],by rw [SetOps.step,made]; rfl,related_concat related stands⟩
  | ofList xs =>
    obtain ⟨s,made,stands⟩ := faithful.ofList xs
    exact ⟨sets ++ [s],by rw [SetOps.step,made]; rfl,related_concat related stands⟩
  | copy i =>
    refine ⟨_,rfl,?_⟩
    rcases related_getElem? related i with ⟨absent,unwanted⟩ | ⟨s,r,here,there,stands⟩
    · simpa [SetCall.ask,absent,unwanted] using related
    · simpa [SetCall.ask,here,there] using related_concat related stands
  | add i x =>
    rw [SetCall.ask,Option.map_eq_bind]
    refine related_change related i _ _ (insert x) fun s r _ _ stands => ?_
    obtain ⟨t,added,new⟩ := faithful.add x stands
    exact ⟨t,by rw [added]; rfl,new⟩
  | erase i x =>
    rw [SetCall.ask,← Option.bind_fun_none wanted[i]?]
    refine related_change related i _ _ (·.erase x) fun s r _ _ stands => ?_
    obtain ⟨t,erased,new⟩ := faithful.erase x stands
    exact ⟨t,by rw [erased]; rfl,new⟩
  | union i j =>
    rw [SetCall.ask,← Option.bind_fun_none wanted[i]?]
    refine related_change related i _ _ (· ∪ wanted[j]?.getD ∅) fun s r _ _ stands => ⟨_,rfl,?_⟩
    rcases related_getElem? related j with ⟨absent,unwanted⟩ | ⟨t,q,here,there,other⟩
    · simpa [absent,unwanted] using stands
    · simpa [here,there] using faithful.union stands other

theorem Faithful.runFrom (faithful : ops.Faithful R) (related : List.Forall₂ R sets wanted) (calls : List SetCall) :
    ∃ after, ops.runFrom sets calls = some ((SetCall.askFrom wanted calls).1,after) ∧
      List.Forall₂ R after (SetCall.askFrom wanted calls).2 := by
  induction calls generalizing sets wanted with
  | nil => exact ⟨sets,rfl,related⟩
  | cons call calls ih =>
    obtain ⟨next,stepped,related⟩ := faithful.step related call
    obtain ⟨after,ran,related⟩ := ih related
    exact ⟨after,by rw [SetOps.runFrom,stepped]; simp [ran,SetCall.askFrom],related⟩

theorem Faithful.exact (faithful : ops.Faithful R) (calls : List SetCall) : ops.Exact calls := by
  obtain ⟨sets,ran,related⟩ := faithful.runFrom .nil calls
  exact ⟨sets,ran,related.imp fun _ _ => faithful.shows,fun _ first _ second =>
    faithful.compares (related_of_mem_zip related first) (related_of_mem_zip related second)⟩

end

end SetOps

namespace StateSet

/-- The members are the numbers of those of the finite set. -/
def Stands (s : StateSet) (r : Finset UInt32) : Prop := ∀ n, n ∈ s ↔ HasId r n

variable {s t : StateSet} {r q : Finset UInt32}

theorem Stands.lists (stands : s.Stands r) : Lists s.members r := ⟨s.ascending,stands⟩

theorem Stands.eq_iff (first : s.Stands r) (second : t.Stands q) : s = t ↔ r = q := by
  rw [← first.lists.eq_iff second.lists]
  exact ⟨congrArg members,fun same => ext fun n => by rw [← mem_members,same,mem_members]⟩

theorem stands_ofList (xs : List UInt32) : (ofList (xs.map UInt32.toNat)).Stands xs.toFinset := fun n => by
  simp [HasId]

theorem Stands.shows (stands : s.Stands r) : ops.Shows s r where
  contains x := contains_iff.trans ((stands x.toNat).trans hasId_toNat)
  isEmpty := List.isEmpty_iff.trans stands.lists.eq_nil_iff
  size := stands.lists.length_eq
  ids := stands.lists

theorem Stands.compares (first : s.Stands r) (second : t.Stands q) : ops.Compares s t r q where
  intersects := by
    have shared : s.intersects t = true ↔ ∃ n, n ∈ s ∧ n ∈ t := by simp [intersects,mem_members]
    simp only [ops,shared,first _,second _,exists_hasId_both]
  equal := decide_eq_true_iff.trans (first.eq_iff second)
  feed := first.lists.feed_iff second.lists

theorem faithful : ops.Faithful Stands where
  withCapacity _ _ := iff_of_false mem_empty not_hasId_empty
  singleton x _ := ⟨_,rfl,fun n => by simp [HasId,eq_comm]⟩
  ofList xs := ⟨_,rfl,stands_ofList xs⟩
  add {s r} x stands := by
    refine ⟨s.insert x.toNat,?_,fun n => by rw [mem_insert,hasId_insert,stands n]⟩
    have same : s.contains x.toNat = decide (x ∈ r) := by
      rw [Bool.eq_iff_iff,contains_iff,decide_eq_true_iff,stands,hasId_toNat]
    simp [ops,StateSet.add,same]
  erase x stands := ⟨_,rfl,fun n => by rw [mem_erase,hasId_erase,stands n,and_comm]⟩
  union first second n := by rw [hasId_union,← first n,← second n]; exact mem_union
  shows := Stands.shows
  compares := Stands.compares

end StateSet
end StepwiseAutomata
