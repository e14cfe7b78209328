import StepwiseAutomata.Text

namespace StepwiseAutomata

structure StateSet where
  members : List Nat
  ascending : members.Pairwise (· < ·)
  deriving DecidableEq

namespace StateSet

instance : Membership Nat StateSet := ⟨fun s x => x ∈ s.members⟩

instance (x : Nat) (s : StateSet) : Decidable (x ∈ s) := inferInstanceAs (Decidable (x ∈ s.members))

theorem mem_members {x : Nat} {s : StateSet} : x ∈ s.members ↔ x ∈ s := Iff.rfl

def insertSorted (x : Nat) : List Nat → List Nat
  | [] => [x]
  | y :: ys => if x < y then x :: y :: ys else if x = y then y :: ys else y :: insertSorted x ys

@[simp] theorem mem_insertSorted {x z : Nat} {ys : List Nat} :
    z ∈ insertSorted x ys ↔ z = x ∨ z ∈ ys := by
  induction ys with
  | nil => simp [insertSorted]
  | cons y ys ih => grind [insertSorted]

theorem pairwise_insertSorted {x : Nat} {ys : List Nat} (h : ys.Pairwise (· < ·)) :
    (insertSorted x ys).Pairwise (· < ·) := by
  induction ys with
  | nil => simp [insertSorted]
  | cons y ys ih =>
    rw [List.pairwise_cons] at h
    have tail := ih h.2
    have head : ∀ z ∈ insertSorted x ys, z = x ∨ y < z := fun z hz =>
      (mem_insertSorted.1 hz).imp_right (h.1 z)
    unfold insertSorted
    split
    · rw [List.pairwise_cons,List.pairwise_cons]
      refine ⟨fun z hz => ?_,h⟩
      rcases List.mem_cons.1 hz with rfl | hz
      · assumption
      · have := h.1 z hz
        omega
    · split
      · exact List.pairwise_cons.2 h
      · rw [List.pairwise_cons]
        refine ⟨fun z hz => ?_,tail⟩
        rcases head z hz with rfl | h <;> omega

def empty : StateSet := ⟨[],.nil⟩

instance : EmptyCollection StateSet := ⟨empty⟩

def contains (s : StateSet) (x : Nat) : Bool := x ∈ s

def isEmpty (s : StateSet) : Bool := s.members.isEmpty

def size (s : StateSet) : Nat := s.members.length

def insert (s : StateSet) (x : Nat) : StateSet :=
  ⟨insertSorted x s.members,pairwise_insertSorted s.ascending⟩

/-- Inserts `x` and tells whether it was new. -/
def add (s : StateSet) (x : Nat) : Bool × StateSet := (!s.contains x,s.insert x)

def filter (s : StateSet) (p : Nat → Bool) : StateSet :=
  ⟨s.members.filter p,s.ascending.filter p⟩

def erase (s : StateSet) (x : Nat) : StateSet := s.filter (· != x)

def singleton (x : Nat) : StateSet := (∅ : StateSet).insert x

def ofList (xs : List Nat) : StateSet := xs.foldl insert ∅

def union (s t : StateSet) : StateSet := t.members.foldl insert s

def intersects (s t : StateSet) : Bool := s.members.any t.contains

/-- The members between braces, in ascending order. -/
def text (s : StateSet) : String := Text.braced (s.members.map toString)

/-- Equal sets, and only those, show the same members to the hash. -/
instance : Hashable StateSet := ⟨fun s => hash s.members⟩

@[simp] theorem mem_empty {x : Nat} : ¬x ∈ (∅ : StateSet) := List.not_mem_nil

@[simp] theorem mem_insert {s : StateSet} {x z : Nat} : z ∈ s.insert x ↔ z = x ∨ z ∈ s :=
  mem_insertSorted

@[simp] theorem contains_iff {s : StateSet} {x : Nat} : s.contains x = true ↔ x ∈ s := by
  simp [contains]

@[simp] theorem mem_filter {s : StateSet} {p : Nat → Bool} {z : Nat} :
    z ∈ s.filter p ↔ z ∈ s ∧ p z = true :=
  List.mem_filter

@[simp] theorem mem_erase {s : StateSet} {x z : Nat} : z ∈ s.erase x ↔ z ∈ s ∧ z ≠ x := by
  simp [erase]

private theorem mem_foldl_insert {xs : List Nat} {s : StateSet} {z : Nat} :
    z ∈ xs.foldl insert s ↔ z ∈ s ∨ z ∈ xs := by
  induction xs generalizing s with
  | nil => simp
  | cons x xs ih => simp only [List.foldl_cons,ih,mem_insert,List.mem_cons,or_assoc,or_left_comm]

@[simp] theorem mem_singleton {x z : Nat} : z ∈ singleton x ↔ z = x := by
  simp [singleton]

@[simp] theorem mem_ofList {xs : List Nat} {z : Nat} : z ∈ ofList xs ↔ z ∈ xs := by
  simp [ofList,mem_foldl_insert]

@[simp] theorem mem_union {s t : StateSet} {z : Nat} : z ∈ s.union t ↔ z ∈ s ∨ z ∈ t := by
  simp [union,mem_foldl_insert,mem_members]

/-- Sets with the same members are equal. -/
theorem ext {s t : StateSet} (h : ∀ x, x ∈ s ↔ x ∈ t) : s = t := by
  obtain ⟨xs,hx⟩ := s
  obtain ⟨ys,hy⟩ := t
  have same : ∀ x, x ∈ xs ↔ x ∈ ys := h
  simp only [mk.injEq]
  clear h
  induction xs generalizing ys with
  | nil => cases ys with
    | nil => rfl
    | cons y ys => exact absurd ((same y).2 (by simp)) (by simp)
  | cons x xs ih => cases ys with
    | nil => exact absurd ((same x).1 (by simp)) (by simp)
    | cons y ys =>
      rw [List.pairwise_cons] at hx hy
      have first : x = y := by
        have hxy := (same x).1 (by simp)
        have hyx := (same y).2 (by simp)
        rcases List.mem_cons.1 hxy with rfl | hxy
        · rfl
        rcases List.mem_cons.1 hyx with rfl | hyx
        · rfl
        have := hx.1 y hyx
        have := hy.1 x hxy
        omega
      subst first
      refine congrArg (x :: ·) (ih hx.2 ys hy.2 fun z => ⟨fun hz => ?_,fun hz => ?_⟩)
      · rcases List.mem_cons.1 ((same z).1 (by simp [hz])) with rfl | h
        · exact absurd (hx.1 z hz) (by omega)
        · exact h
      · rcases List.mem_cons.1 ((same z).2 (by simp [hz])) with rfl | h
        · exact absurd (hy.1 z hz) (by omega)
        · exact h

end StateSet
end StepwiseAutomata
