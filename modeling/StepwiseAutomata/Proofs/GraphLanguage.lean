import StepwiseAutomata.Proofs.Graph
import StepwiseAutomata.Proofs.RegexLanguage

namespace StepwiseAutomata
open scoped Computability

namespace Graph

/-- A word is read on the way from one state to another when it splits along a path into words of the labels. -/
inductive Reads (g : Graph) : Nat → List Char → Nat → Prop
  | nil (p : Nat) : Reads g p [] p
  | cons {p r q : Nat} {l : Regex} {u w : List Char} :
      g.HasArc ⟨p,r,l⟩ → u ∈ l.language → Reads g r w q → Reads g p (u ++ w) q

/-- The words that are read on the way from a state to some final state. -/
def accepts (g : Graph) (p : Nat) : Language Char := {w | ∃ q, g.IsFinal q ∧ g.Reads p w q}

def language (g : Graph) : Language Char := g.accepts g.start

/-- Every label is a tree that the constructors build. -/
def Flat (g : Graph) : Prop := ∀ arc, g.HasArc arc → arc.label.Flat

variable {g : Graph}

theorem one_le_accepts {q : Nat} (final : g.IsFinal q) : 1 ≤ g.accepts q := by
  rintro w rfl
  exact ⟨q,final,.nil q⟩

theorem mul_accepts_le {p q : Nat} {l : Regex} (arc : g.HasArc ⟨p,q,l⟩) :
    l.language * g.accepts q ≤ g.accepts p := by
  intro w member
  obtain ⟨u,first,v,⟨f,final,reads⟩,rfl⟩ := Language.mem_mul.mp member
  exact ⟨f,final,.cons arc first reads⟩

/-- No solution of the inequalities of a graph is smaller than what the graph accepts. -/
theorem accepts_le {Z : Nat → Language Char} (final : ∀ q, g.IsFinal q → 1 ≤ Z q)
    (arc : ∀ p q l, g.HasArc ⟨p,q,l⟩ → l.language * Z q ≤ Z p) (p : Nat) : g.accepts p ≤ Z p := by
  rintro w ⟨f,isFinal,reads⟩
  induction reads with
  | nil q => exact final q isFinal rfl
  | cons first member _ ih => exact arc _ _ _ first (Language.append_mem_mul member (ih isFinal))

/-- Labels that are symbols read one character at a time, so nothing greater than what the graph accepts is
    accounted for by its arcs and final states. -/
theorem le_accepts {Z : Nat → Language Char} (symbols : ∀ p q l, g.HasArc ⟨p,q,l⟩ → l.isSymbol = true)
    (bounded : ∀ p, ∀ w ∈ Z p, w = [] ∧ g.IsFinal p ∨
      ∃ q l, g.HasArc ⟨p,q,l⟩ ∧ w ∈ l.language * Z q) (p : Nat) : Z p ≤ g.accepts p := by
  intro w member
  induction size : w.length using Nat.strong_induction_on generalizing p w with
  | _ n ih =>
    subst size
    rcases bounded p w member with ⟨rfl,final⟩ | ⟨q,l,arc,product⟩
    · exact one_le_accepts final rfl
    · obtain ⟨u,first,v,rest,rfl⟩ := Language.mem_mul.mp product
      have positive : 0 < u.length := by
        have symbol := symbols p q l arc
        cases l with
        | char c =>
          have other : c ≠ epsilonChar := by simpa [Regex.isSymbol] using symbol
          rw [Regex.language_char,if_neg other] at first
          rw [Set.mem_singleton_iff.mp first]
          exact Nat.one_pos
        | _ => simp [Regex.isSymbol] at symbol
      have accepted := ih v.length (by rw [List.length_append]; omega) q rest rfl
      exact mul_accepts_le arc (Language.append_mem_mul first accepted)

/-- What is accepted from a state is accounted for by its arcs and its flag. -/
theorem accepts_cases {p : Nat} {w : List Char} (member : w ∈ g.accepts p) :
    w = [] ∧ g.IsFinal p ∨ ∃ q l, g.HasArc ⟨p,q,l⟩ ∧ w ∈ l.language * g.accepts q := by
  obtain ⟨f,final,reads⟩ := member
  cases reads with
  | nil => exact .inl ⟨rfl,final⟩
  | cons arc first reads => exact .inr ⟨_,_,arc,Language.append_mem_mul first ⟨f,final,reads⟩⟩

/-- A word of a label leads on to what is accepted from the target. -/
theorem append_mem_accepts {p q : Nat} {l : Regex} {u v : List Char} (arc : g.HasArc ⟨p,q,l⟩)
    (first : u ∈ l.language) (rest : v ∈ g.accepts q) : u ++ v ∈ g.accepts p :=
  mul_accepts_le arc (Language.append_mem_mul first rest)

/-- An `ε` arc passes on what is accepted from its target. -/
theorem accepts_le_of_epsilon {p q : Nat} (arc : g.HasArc ⟨p,q,.epsilon⟩) : g.accepts q ≤ g.accepts p := by
  have step := mul_accepts_le arc
  rwa [Regex.language_epsilon,one_mul] at step

end Graph
end StepwiseAutomata
