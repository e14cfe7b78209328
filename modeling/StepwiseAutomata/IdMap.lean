namespace StepwiseAutomata

structure IdMap (α : Type) where
  entries : List (Nat × α)
  ascending : entries.Pairwise fun x y => x.1 < y.1

namespace IdMap

variable {α : Type}

def lookup (k : Nat) : List (Nat × α) → Option α
  | [] => none
  | (i,v) :: rest => if i = k then some v else lookup k rest

/-- Binds `k` to `v`, in place of what it was bound to. -/
def insertSorted (k : Nat) (v : α) : List (Nat × α) → List (Nat × α)
  | [] => [(k,v)]
  | (i,w) :: rest =>
    if k < i then (k,v) :: (i,w) :: rest
    else if k = i then (k,v) :: rest
    else (i,w) :: insertSorted k v rest

private theorem key_insertSorted {k : Nat} {v : α} {xs : List (Nat × α)} {y : Nat × α}
    (h : y ∈ insertSorted k v xs) : y.1 = k ∨ y ∈ xs := by
  induction xs with
  | nil => simp_all [insertSorted]
  | cons x xs ih => grind [insertSorted]

theorem pairwise_insertSorted {k : Nat} {v : α} {xs : List (Nat × α)}
    (h : xs.Pairwise fun x y => x.1 < y.1) : (insertSorted k v xs).Pairwise fun x y => x.1 < y.1 := by
  induction xs with
  | nil => simp [insertSorted]
  | cons x xs ih =>
    obtain ⟨i,w⟩ := x
    rw [List.pairwise_cons] at h
    have tail := ih h.2
    unfold insertSorted
    split
    · rw [List.pairwise_cons,List.pairwise_cons]
      refine ⟨fun y hy => ?_,h⟩
      rcases List.mem_cons.1 hy with rfl | hy
      · assumption
      · have := h.1 y hy
        omega
    · split
      · subst k
        exact List.pairwise_cons.2 h
      · rw [List.pairwise_cons]
        refine ⟨fun y hy => ?_,tail⟩
        rcases key_insertSorted hy with hy | hy
        · simp only [hy]; omega
        · exact h.1 y hy

def empty : IdMap α := ⟨[],.nil⟩

instance : EmptyCollection (IdMap α) := ⟨empty⟩

def get? (m : IdMap α) (k : Nat) : Option α := lookup k m.entries

def contains (m : IdMap α) (k : Nat) : Bool := (m.get? k).isSome

def size (m : IdMap α) : Nat := m.entries.length

/-- The ids, ascending. -/
def keys (m : IdMap α) : List Nat := m.entries.map Prod.fst

/-- The values, in the order of their ids. -/
def values (m : IdMap α) : List α := m.entries.map Prod.snd

def insert (m : IdMap α) (k : Nat) (v : α) : IdMap α :=
  ⟨insertSorted k v m.entries,pairwise_insertSorted m.ascending⟩

def erase (m : IdMap α) (k : Nat) : IdMap α :=
  ⟨m.entries.filter fun x => x.1 != k,m.ascending.filter _⟩

def singleton (k : Nat) (v : α) : IdMap α := (∅ : IdMap α).insert k v

/-- Applies `f` to the value of `k`, if there is one. -/
def modify (m : IdMap α) (k : Nat) (f : α → α) : IdMap α :=
  match m.get? k with
  | some v => m.insert k (f v)
  | none => m

/-- Replaces each value by one made from the id and the value. -/
def map {β : Type} (f : Nat → α → β) (m : IdMap α) : IdMap β :=
  ⟨m.entries.map fun (k,v) => (k,f k v),m.ascending.map _ fun _ _ h => h⟩

def ofList (xs : List (Nat × α)) : IdMap α := xs.foldl (fun m x => m.insert x.1 x.2) ∅

private theorem lookup_eq_none {k : Nat} {xs : List (Nat × α)} (h : ∀ x ∈ xs, k < x.1) :
    lookup k xs = none := by
  induction xs with
  | nil => rfl
  | cons x xs ih => grind [lookup]

@[simp] theorem get?_empty (k : Nat) : (∅ : IdMap α).get? k = none := rfl

theorem get?_insert (m : IdMap α) (k i : Nat) (v : α) :
    (m.insert k v).get? i = if i = k then some v else m.get? i := by
  obtain ⟨xs,h⟩ := m
  simp only [get?,insert]
  induction xs with
  | nil => simp [insertSorted,lookup,eq_comm]
  | cons x xs ih =>
    obtain ⟨j,w⟩ := x
    rw [List.pairwise_cons] at h
    have tail := ih h.2
    unfold insertSorted
    split
    · grind [lookup]
    · split
      · grind [lookup]
      · simp only [lookup]
        grind

theorem get?_erase (m : IdMap α) (k i : Nat) :
    (m.erase k).get? i = if i = k then none else m.get? i := by
  obtain ⟨xs,h⟩ := m
  simp only [get?,erase]
  induction xs with
  | nil => simp [lookup]
  | cons x xs ih =>
    obtain ⟨j,w⟩ := x
    rw [List.pairwise_cons] at h
    have tail := ih h.2
    rw [List.filter_cons]
    split <;> simp only [lookup] <;> grind

theorem get?_modify (m : IdMap α) (k i : Nat) (f : α → α) :
    (m.modify k f).get? i = if i = k then (m.get? k).map f else m.get? i := by
  unfold modify
  split <;> rename_i h
  · simp [get?_insert,h]
  · split <;> simp_all

theorem get?_map {β : Type} (f : Nat → α → β) (m : IdMap α) (k : Nat) :
    (m.map f).get? k = (m.get? k).map (f k) := by
  obtain ⟨xs,h⟩ := m
  simp only [get?,map]
  clear h
  induction xs with
  | nil => rfl
  | cons x xs ih => grind [lookup]

theorem mem_entries_iff (m : IdMap α) (k : Nat) (v : α) : (k,v) ∈ m.entries ↔ m.get? k = some v := by
  obtain ⟨xs,h⟩ := m
  simp only [get?]
  induction xs with
  | nil => simp [lookup]
  | cons x xs ih =>
    obtain ⟨j,w⟩ := x
    rw [List.pairwise_cons] at h
    have tail := ih h.2
    have bound : ∀ v, (k,v) ∈ xs → j < k := fun v hv => h.1 (k,v) hv
    simp only [lookup,List.mem_cons,Prod.mk.injEq]
    split
    · rename_i e
      subst e
      exact ⟨fun hv => hv.elim (fun hv => by rw [hv.2]) fun hv => absurd (bound v hv) (by omega),
        fun hv => .inl ⟨rfl,by simpa using hv.symm⟩⟩
    · rename_i e
      rw [← tail]
      exact ⟨fun hv => hv.elim (fun hv => absurd hv.1.symm e) id,.inr⟩

theorem mem_keys_iff (m : IdMap α) (k : Nat) : k ∈ m.keys ↔ m.contains k = true := by
  simp only [keys,contains,List.mem_map,Option.isSome_iff_exists,← mem_entries_iff]
  exact ⟨fun ⟨x,hx,e⟩ => ⟨x.2,e ▸ hx⟩,fun ⟨v,hv⟩ => ⟨(k,v),hv,rfl⟩⟩

/-- Maps with the same bindings are equal. -/
theorem ext {m n : IdMap α} (h : ∀ k, m.get? k = n.get? k) : m = n := by
  obtain ⟨xs,hx⟩ := m
  obtain ⟨ys,hy⟩ := n
  have same : ∀ k, lookup k xs = lookup k ys := h
  simp only [mk.injEq]
  clear h
  induction xs generalizing ys with
  | nil => cases ys with
    | nil => rfl
    | cons y ys => exact absurd (same y.1) (by simp [lookup])
  | cons x xs ih => cases ys with
    | nil => exact absurd (same x.1) (by simp [lookup])
    | cons y ys =>
      obtain ⟨i,v⟩ := x
      obtain ⟨j,w⟩ := y
      rw [List.pairwise_cons] at hx hy
      have below : ∀ {k l : Nat} {zs : List (Nat × α)}, k ≤ l → (∀ z ∈ zs, l < z.1) → lookup k zs = none :=
        fun le hz => lookup_eq_none fun z mem => Nat.lt_of_le_of_lt le (hz z mem)
      have first : i = j := by
        rcases Nat.lt_trichotomy i j with lt | eq | lt
        · have := same i
          rw [lookup,if_pos rfl,lookup,if_neg (by omega),below (Nat.le_of_lt lt) hy.1] at this
          cases this
        · exact eq
        · have := same j
          rw [lookup,if_neg (by omega),below (Nat.le_of_lt lt) hx.1,lookup,if_pos rfl] at this
          cases this
      subst first
      have value : v = w := by simpa [lookup] using same i
      subst value
      refine congrArg ((i,v) :: ·) (ih hx.2 ys hy.2 fun k => ?_)
      by_cases e : i = k
      · subst e
        rw [below (Nat.le_refl i) hx.1,below (Nat.le_refl i) hy.1]
      · simpa [lookup,e] using same k

end IdMap
end StepwiseAutomata
