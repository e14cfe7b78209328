import StepwiseAutomata.Automaton.Basic
import Mathlib.Data.List.Nodup
import Mathlib.Logic.Function.Iterate

namespace StepwiseAutomata

namespace Ids

/-- Ids that never come to an end, so that none is given out twice. -/
abbrev endless : Ids where
  after id := id + 1
  after_le _ := Nat.le_refl _
  after_of_le_one _ := rfl

section
variable [Ids]

/-- So many ids, from the first on. -/
def series (first : Nat) : Nat → List Nat
  | 0 => []
  | n + 1 => first :: series (after first) n

@[simp] theorem length_series (first n : Nat) : (series first n).length = n := by
  induction n generalizing first with
  | zero => rfl
  | succ n ih => rw [series,List.length_cons,ih]

theorem series_add (first m n : Nat) :
    series first (m + n) = series first m ++ series (Nat.iterate after m first) n := by
  induction m generalizing first with
  | zero => rw [Nat.zero_add]; rfl
  | succ m ih =>
    rw [Nat.succ_add,series,series,ih]
    rfl

end

section
attribute [local instance] endless

@[simp] theorem iterate_endless (first n : Nat) : Nat.iterate after n first = first + n := by
  induction n generalizing first with
  | zero => rfl
  | succ n ih =>
    rw [Function.iterate_succ_apply,ih]
    exact Nat.add_right_comm first 1 n

@[simp] theorem series_endless (first n : Nat) : series first n = List.range' first n := by
  induction n generalizing first with
  | zero => rfl
  | succ n ih =>
    rw [series,ih]
    rfl

theorem mem_series {first n id : Nat} : id ∈ series first n ↔ first ≤ id ∧ id < first + n := by
  rw [series_endless,List.mem_range'_1]

theorem series_succ (first n : Nat) : series first (n + 1) = first :: series (first + 1) n := rfl

theorem series_concat (first n : Nat) : series first (n + 1) = series first n ++ [first + n] := by
  rw [series_add,iterate_endless]
  rfl

theorem pairwise_series (first n : Nat) : (series first n).Pairwise (· < ·) := by
  rw [series_endless]
  exact List.pairwise_lt_range' 1

theorem nodup_series (first n : Nat) : (series first n).Nodup := by
  rw [series_endless]
  exact List.nodup_range'

end

end Ids

namespace Counters

instance : LE Counters := ⟨fun c d => c.nextState ≤ d.nextState ∧ c.nextTransition ≤ d.nextTransition⟩

theorem le_refl (c : Counters) : c ≤ c := ⟨Nat.le_refl _,Nat.le_refl _⟩

theorem le_trans {c d e : Counters} (first : c ≤ d) (second : d ≤ e) : c ≤ e :=
  ⟨Nat.le_trans first.1 second.1,Nat.le_trans first.2 second.2⟩

section
variable [Ids]

/-- The counters once so many ids have been given out. -/
def advance (c : Counters) (states transitions : Nat) : Counters :=
  ⟨Nat.iterate Ids.after states c.nextState,Nat.iterate Ids.after transitions c.nextTransition⟩

/-- Gives the arcs the next ids. -/
def number (c : Counters) (arcs : List Arc) : List Transition :=
  (arcs.zip (Ids.series c.nextTransition arcs.length)).map fun (arc,id) => { arc with id }

/-- Up to the counters, every id is followed by a greater one. -/
def Fits (c : Counters) : Prop :=
  (∀ id < c.nextState, Ids.after id = id + 1) ∧ ∀ id < c.nextTransition, Ids.after id = id + 1

theorem Fits.mono {c d : Counters} (fits : d.Fits) (le : c ≤ d) : c.Fits :=
  ⟨fun id below => fits.1 id (Nat.lt_of_lt_of_le below le.1),
    fun id below => fits.2 id (Nat.lt_of_lt_of_le below le.2)⟩

theorem advance_advance (c : Counters) (m n states transitions : Nat) :
    (c.advance m n).advance states transitions = c.advance (m + states) (n + transitions) := by
  rw [advance,advance,advance,← Function.iterate_add_apply,← Function.iterate_add_apply,Nat.add_comm m,
    Nat.add_comm n]

theorem number_append (c : Counters) (arcs more : List Arc) :
    c.number (arcs ++ more) = c.number arcs ++ (c.advance 0 arcs.length).number more := by
  rw [number,List.length_append,Ids.series_add,List.zip_append (Ids.length_series _ _).symm,List.map_append]
  rfl

theorem map_toArc_number (c : Counters) (arcs : List Arc) : (c.number arcs).map Transition.toArc = arcs := by
  rw [number,List.map_map]
  exact List.map_fst_zip (Nat.le_of_eq (Ids.length_series _ _).symm)

theorem map_id_number (c : Counters) (arcs : List Arc) :
    (c.number arcs).map Transition.id = Ids.series c.nextTransition arcs.length := by
  rw [number,List.map_map]
  exact List.map_snd_zip (Nat.le_of_eq (Ids.length_series _ _))

@[simp] theorem length_number (c : Counters) (arcs : List Arc) : (c.number arcs).length = arcs.length := by
  rw [← List.length_map (f := Transition.toArc),map_toArc_number]

theorem map_label_number (c : Counters) (arcs : List Arc) :
    (c.number arcs).map (fun t : Transition => t.label) = arcs.map Arc.label :=
  (List.map_map (f := Transition.toArc) (g := Arc.label)).symm.trans (congrArg _ (map_toArc_number c arcs))

theorem toArc_mem_of_mem_number {c : Counters} {arcs : List Arc} {t : Transition} (member : t ∈ c.number arcs) :
    t.toArc ∈ arcs := by
  rw [← map_toArc_number c arcs]
  exact List.mem_map_of_mem member

theorem exists_mem_number {c : Counters} {arcs : List Arc} {arc : Arc} :
    (∃ t ∈ c.number arcs, t.toArc = arc) ↔ arc ∈ arcs := by
  rw [← List.mem_map,map_toArc_number]

end

section
attribute [local instance] Ids.endless

@[simp] theorem advance_endless (c : Counters) (states transitions : Nat) :
    c.advance states transitions = ⟨c.nextState + states,c.nextTransition + transitions⟩ := by
  rw [advance,Ids.iterate_endless,Ids.iterate_endless]

theorem le_advance (c : Counters) (states transitions : Nat) : c ≤ c.advance states transitions := by
  rw [advance_endless]
  exact ⟨Nat.le_add_right _ _,Nat.le_add_right _ _⟩

theorem id_of_mem_number {c : Counters} {arcs : List Arc} {t : Transition} (member : t ∈ c.number arcs) :
    c.nextTransition ≤ t.id ∧ t.id < c.nextTransition + arcs.length := by
  have listed : t.id ∈ (c.number arcs).map Transition.id := List.mem_map_of_mem member
  rwa [map_id_number,Ids.mem_series] at listed

end

end Counters

/-- Even if ids never came to an end, the counters would not go past the end of these. -/
def Ids.Suffice [Ids] (counters : [Ids] → Counters) : Prop := (@counters Ids.endless).Fits

/-- Both counters are words. -/
def Counters.Words (c : Counters) : Prop := c.nextState < UInt32.size ∧ c.nextTransition < UInt32.size
  deriving Decidable

/-- Counters fit words when neither has to go past the greatest of them. -/
theorem Counters.fits_words {c : Counters} : @Fits Ids.words c ↔ c.Words := by
  have bound (n : Nat) : (∀ id < n, (id + 1) % UInt32.size = id + 1) ↔ n < UInt32.size := by
    constructor
    · intro fits
      by_contra past
      have below : UInt32.size - 1 < n := Nat.lt_of_lt_of_le (by decide) (Nat.le_of_not_lt past)
      exact absurd (fits _ below) (by decide)
    · intro small id below
      exact Nat.mod_eq_of_lt (Nat.lt_of_le_of_lt below small)
  exact and_congr (bound c.nextState) (bound c.nextTransition)

/-- Words suffice up to the greatest of them. -/
theorem Ids.suffice_words {counters : [Ids] → Counters} (words : (@counters Ids.endless).Words) :
    @Ids.Suffice Ids.words counters := Counters.fits_words.mpr words

end StepwiseAutomata
