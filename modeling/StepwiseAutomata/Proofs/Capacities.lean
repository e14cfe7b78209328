import StepwiseAutomata.Proofs.SetCalls

namespace StepwiseAutomata

namespace BitSet

open BitBlock

variable {β : Type} [BitBlock β] {s t : BitSet β} {r q : Finset UInt32}

/-- The bits that are on are those of the members. -/
def Stands (s : BitSet β) (r : Finset UInt32) : Prop := ∀ i, get s.bits i = true ↔ HasId r i

theorem Stands.get_eq_false_iff (stands : s.Stands r) (i : Nat) : get s.bits i = false ↔ ¬HasId r i := by
  rw [← stands i,Bool.not_eq_true]

section
variable (lawful : Lawful β)
include lawful

theorem stands_withCapacity (n : Nat) : (withCapacity n : BitSet β).Stands ∅ := fun i => by
  simp [withCapacity,lawful.get_blank]

/-- A longer block holds the same members. -/
theorem Stands.grow (stands : s.Stands r) {n : Nat} (longer : length s.bits ≤ n) :
    (⟨BitBlock.grow s.bits n⟩ : BitSet β).Stands r := fun i => by rw [lawful.get_grow i longer,stands i]

/-- A bit that is to be switched on comes to lie before the end. -/
theorem Stands.room (stands : s.Stands r) (i : Nat) :
    let bits := if length s.bits ≤ i then BitBlock.grow s.bits (i + 1) else s.bits
    i < length bits ∧ (⟨bits⟩ : BitSet β).Stands r := by
  intro bits
  by_cases past : length s.bits ≤ i
  · have longer : length s.bits ≤ i + 1 := past.trans (Nat.le_succ i)
    have grown : bits = BitBlock.grow s.bits (i + 1) := if_pos past
    rw [grown,lawful.length_grow longer]
    exact ⟨Nat.lt_succ_self i,stands.grow lawful longer⟩
  · have same : bits = s.bits := if_neg past
    rw [same]
    exact ⟨Nat.lt_of_not_le past,stands⟩

theorem Stands.add (stands : s.Stands r) (x : UInt32) :
    ∃ t, s.add? x = some (decide (x ∉ r),t) ∧ t.Stands (insert x r) := by
  obtain ⟨inside,same⟩ := stands.room lawful x.toNat
  obtain ⟨after,put,on⟩ := lawful.put inside
  refine ⟨⟨after⟩,?_,fun i => ?_⟩
  · have was := (same x.toNat).trans (hasId_toNat.trans (decide_eq_true_iff (p := x ∈ r)).symm)
    rw [add?,put,Option.map_some,Bool.eq_iff_iff.mpr was,decide_not]
  · rw [on i,hasId_insert,← same i]
    split <;> simp_all

theorem Stands.insert (stands : s.Stands r) (x : UInt32) : ∃ t, s.insert? x = some t ∧ t.Stands (Insert.insert x r) := by
  obtain ⟨t,added,stands⟩ := stands.add lawful x
  exact ⟨t,by rw [insert?,added]; rfl,stands⟩

theorem Stands.insertAll (stands : s.Stands r) (xs : List UInt32) :
    ∃ t, xs.foldlM insert? s = some t ∧ t.Stands (r ∪ xs.toFinset) := by
  induction xs generalizing s r with
  | nil => exact ⟨s,rfl,by simpa using stands⟩
  | cons x xs ih =>
    obtain ⟨next,inserted,stands⟩ := stands.insert lawful x
    obtain ⟨t,all,stands⟩ := ih stands
    refine ⟨t,by rw [List.foldlM_cons,inserted]; exact all,?_⟩
    rwa [List.toFinset_cons,Finset.union_insert,← Finset.insert_union]

theorem Stands.erase (stands : s.Stands r) (x : UInt32) : ∃ t, s.erase? x = some t ∧ t.Stands (r.erase x) := by
  by_cases inside : x.toNat < length s.bits
  · obtain ⟨after,set,on⟩ := lawful.set false inside
    refine ⟨⟨after⟩,by simp [erase?,inside,set],fun i => ?_⟩
    rw [on i,hasId_erase,← stands i]
    split <;> simp_all
  · -- the bit of `x` is past the end and so `x` is no member
    have absent : x ∉ r := by
      rw [← hasId_toNat,← stands.get_eq_false_iff]
      exact lawful.get_past (Nat.le_of_not_lt inside)
    exact ⟨s,if_neg inside,by rwa [Finset.erase_eq_of_notMem absent]⟩

theorem Stands.union (first : s.Stands r) (second : t.Stands q) : (s.union t).Stands (r ∪ q) := by
  have united {bits : β} (longer : length t.bits ≤ length bits) (same : (⟨bits⟩ : BitSet β).Stands r) :
      (⟨unionWith bits t.bits⟩ : BitSet β).Stands (r ∪ q) := fun i => by
    rw [lawful.get_unionWith i longer,Bool.or_eq_true,same i,second i,hasId_union]
  rw [BitSet.union]
  split
  case isTrue shorter => exact united (lawful.length_grow shorter.le).ge (first.grow lawful shorter.le)
  case isFalse longer => exact united (Nat.le_of_not_lt longer) first

theorem Stands.lists_ones (stands : s.Stands r) : Lists (ones s.bits) r where
  ascending := by
    rw [lawful.ones]
    exact List.pairwise_lt_range.filter _
  mem_iff i := by
    rw [lawful.ones,List.mem_filter,List.mem_range,← stands i]
    refine and_iff_right_of_imp fun on => Nat.lt_of_not_le fun past => ?_
    rw [lawful.get_past past] at on
    exact Bool.false_ne_true on

/-- No position is lost or taken for another one when it is cut down to a word. -/
theorem Stands.map_toNat_ids (stands : s.Stands r) : s.ids.map UInt32.toNat = ones s.bits := by
  have kept : ∀ i ∈ ones s.bits, (UInt32.ofNat i).toNat = i := fun i on =>
    UInt32.toNat_ofNat_of_lt' (((stands.lists_ones lawful).mem_iff i).mp on).lt_size
  rw [ids,List.map_map]
  exact (List.map_congr_left kept).trans (List.map_id _)

theorem Stands.lists (stands : s.Stands r) : Lists (s.ids.map UInt32.toNat) r := by
  rw [stands.map_toNat_ids lawful]
  exact stands.lists_ones lawful

theorem Stands.ids_eq_iff (first : s.Stands r) (second : t.Stands q) : s.ids = t.ids ↔ r = q := by
  rw [← (first.lists lawful).eq_iff (second.lists lawful)]
  exact ((List.map_injective_iff.mpr fun _ _ => UInt32.toNat_inj.mp).eq_iff).symm

theorem Stands.shows (stands : s.Stands r) : (ops β).Shows s r where
  contains x := (stands x.toNat).trans hasId_toNat
  isEmpty := by
    refine (lawful.isClear s.bits).trans (Iff.trans ?_ forall_not_hasId)
    exact forall_congr' stands.get_eq_false_iff
  size := by
    rw [← (stands.lists_ones lawful).length_eq,lawful.ones,← List.countP_eq_length_filter]
    exact lawful.countOnes s.bits
  ids := stands.lists lawful

theorem Stands.compares (first : s.Stands r) (second : t.Stands q) : (ops β).Compares s t r q where
  intersects := by
    have shared : s.intersects t = true ↔ ∃ i, i ∈ common s.bits t.bits := by
      rw [intersects,List.isSome_head?,← List.isEmpty_eq_false_iff,List.isEmpty_eq_false_iff_exists_mem]
    refine shared.trans (Iff.trans (exists_congr fun i => ?_) exists_hasId_both)
    rw [lawful.mem_common,first i,second i]
  equal := by
    show (s.ids == t.ids) = true ↔ r = q
    rw [beq_iff_eq,first.ids_eq_iff lawful second]
  feed := by
    rw [← (first.lists lawful).feed_iff (second.lists lawful)]
    simp only [ops,feed,List.foldl_map]

theorem faithful : (ops β).Faithful Stands where
  withCapacity := stands_withCapacity lawful
  singleton x n := by
    obtain ⟨s,inserted,stands⟩ := (stands_withCapacity lawful n).insert lawful x
    exact ⟨s,inserted,by rwa [insert_empty_eq] at stands⟩
  ofList xs := by
    obtain ⟨s,all,stands⟩ := (stands_withCapacity lawful 0).insertAll lawful xs
    exact ⟨s,all,by rwa [Finset.empty_union] at stands⟩
  add x stands := stands.add lawful x
  erase x stands := stands.erase lawful x
  union first second := first.union lawful second
  shows stands := stands.shows lawful
  compares first second := first.compares lawful second

end

end BitSet

namespace Bits

open BitBlock

theorem get_eq (b : Bits) (i : Nat) : BitBlock.get b i = b.cells[i]?.getD false := Array.getD_eq_getD_getElem?

theorem lt_of_get {b : Bits} {i : Nat} (on : BitBlock.get b i = true) : i < b.cells.size := by
  by_contra past
  rw [get_eq,Array.getElem?_eq_none (Nat.le_of_not_lt past)] at on
  exact Bool.false_ne_true on

theorem switch {b : Bits} {i : Nat} (on : Bool) (inside : i < b.cells.size) :
    ∃ c, b.set? i on = some c ∧ ∀ j, BitBlock.get c j = if j = i then on else BitBlock.get b j := by
  refine ⟨_,if_pos inside,fun j => ?_⟩
  rw [get_eq,get_eq,Array.getElem?_setIfInBounds]
  by_cases here : i = j
  · subst here
    simp [inside]
  · simp [here,Ne.symm here]

theorem toList_cells (b : Bits) : b.cells.toList = (List.range b.cells.size).map (BitBlock.get b) := by
  refine List.ext_getElem (by simp) fun i inside _ => ?_
  simp [get_eq,Array.getElem?_eq_getElem (by simpa using inside)]

/-- Blocks with a cell for each bit are as they should be. -/
theorem lawful : Lawful Bits where
  get_blank n i := by
    rw [get_eq]
    simp only [blank,Array.getElem?_replicate]
    split <;> rfl
  get_past past := by rw [get_eq,Array.getElem?_eq_none past]; rfl
  length_grow {b n} longer := by
    show (b.cells ++ Array.replicate (n - b.cells.size) false).size = n
    rw [Array.size_append,Array.size_replicate]
    exact Nat.add_sub_of_le longer
  get_grow {b n} i _ := by
    rw [get_eq,get_eq]
    simp only [grow,Array.getElem?_append,Array.getElem?_replicate]
    split
    case isTrue => rfl
    case isFalse past =>
      rw [Array.getElem?_eq_none (Nat.le_of_not_lt past)]
      split <;> rfl
  put {b i} inside := by
    obtain ⟨c,set,on⟩ := switch true inside
    exact ⟨c,by simp only [put?,set]; rfl,on⟩
  set on inside := switch on inside
  get_unionWith {b c} i _ := by
    rw [get_eq]
    simp only [unionWith,Array.getElem?_ofFn]
    split
    · rfl
    · rw [get_eq,get_eq,Array.getElem?_eq_none (by omega),Array.getElem?_eq_none (by omega)]
      rfl
  ones _ := rfl
  countOnes b := by
    show b.cells.count true = _
    rw [← Array.count_toList,toList_cells,List.count,List.countP_map]
    exact List.countP_congr fun i _ => by simp
  isClear b := by
    show b.cells.all (! ·) = true ↔ _
    rw [Array.all_eq_true]
    constructor
    · intro off i
      rw [get_eq]
      rcases Nat.lt_or_ge i b.cells.size with inside | past
      · simpa [inside] using off i inside
      · rw [Array.getElem?_eq_none past]; rfl
    · intro off i inside
      have clear := off i
      rw [get_eq] at clear
      simpa [inside] using clear
  mem_common {b c i} := by
    show i ∈ (List.range (min b.cells.size c.cells.size)).filter (fun i => b.get i && c.get i) ↔ _
    rw [List.mem_filter,List.mem_range,Bool.and_eq_true]
    exact and_iff_right_of_imp fun on => Nat.lt_min.mpr ⟨lt_of_get on.1,lt_of_get on.2⟩

end Bits

/-- Sets in blocks of bits are finite sets, whatever room they are created with, and so are ascending lists. This is said
    of the end of every list of calls, and so of every moment of a longer one. -/
theorem sets_exact {β : Type} [BitBlock β] (lawful : BitBlock.Lawful β) (calls : List SetCall) :
    (BitSet.ops β).Exact calls ∧ StateSet.ops.Exact calls :=
  ⟨(BitSet.faithful lawful).exact calls,StateSet.faithful.exact calls⟩

/-- The first set has room for three ids and takes over an id that is past its end. -/
theorem sets_exact_past_end :
    BitBlock.Lawful Bits ∧ ∃ s t u,
      (BitSet.ops Bits).run [.singleton 2 3,.singleton 40 64,.union 0 1,.add 0 40,.ofList [40,2]] =
          some ([none,none,none,some false,none],[s,t,u]) ∧
        (BitSet.ops Bits).intersects s t = true ∧ (BitSet.ops Bits).equal s u = true := by
  have asked : SetCall.askAll [.singleton 2 3,.singleton 40 64,.union 0 1,.add 0 40,.ofList [40,2]] =
      ([none,none,none,some false,none],[{2,40},{40},{40,2}]) := by decide
  obtain ⟨sets,ran,shown,compared⟩ := (sets_exact Bits.lawful
    [.singleton 2 3,.singleton 40 64,.union 0 1,.add 0 40,.ofList [40,2]]).1
  rw [asked] at ran shown compared
  have meet : ({2,40} ∩ {40} : Finset UInt32).Nonempty := ⟨40,by decide⟩
  have same : ({2,40} : Finset UInt32) = {40,2} := by decide
  match sets,ran,shown,compared with
  | [s,t,u],ran,.cons _ (.cons _ (.cons _ .nil)),compared =>
    exact ⟨Bits.lawful,s,t,u,ran,(compared (s,{2,40}) (by simp) (t,{40}) (by simp)).intersects.mpr meet,
      (compared (s,{2,40}) (by simp) (u,{40,2}) (by simp)).equal.mpr same⟩

end StepwiseAutomata
