import StepwiseAutomata.Proofs.RegexLanguage

namespace StepwiseAutomata.Regex
open scoped Computability

/-- The expression denotes the word. -/
inductive Denotes : Regex → List Char → Prop
  | epsilon : Denotes epsilon []
  | char {c : Char} : c ≠ epsilonChar → Denotes (.char c) [c]
  | starNone {r : Regex} : Denotes (.quant .star r) []
  | starMore {r : Regex} {u v : List Char} : Denotes r u → Denotes (.quant .star r) v → Denotes (.quant .star r) (u ++ v)
  | plusOnce {r : Regex} {u : List Char} : Denotes r u → Denotes (.quant .plus r) u
  | plusMore {r : Regex} {u v : List Char} : Denotes r u → Denotes (.quant .plus r) v → Denotes (.quant .plus r) (u ++ v)
  | optionNone {r : Regex} : Denotes (.quant .option r) []
  | optionOnce {r : Regex} {u : List Char} : Denotes r u → Denotes (.quant .option r) u
  | seqNil : Denotes (.seq []) []
  | seqCons {r : Regex} {rs : List Regex} {u v : List Char} : Denotes r u → Denotes (.seq rs) v →
      Denotes (.seq (r :: rs)) (u ++ v)
  | choice {r : Regex} {rs : List Regex} {u : List Char} : r ∈ rs → Denotes r u → Denotes (.choice rs) u

/-- All words that the rules give. -/
def denoted (r : Regex) : Language Char := {w | r.Denotes w}

/-- What any number of words makes up is the least language with the empty word and with one word more. -/
theorem isLeast_star (l : Language Char) : IsLeast {m | 1 + l * m ≤ m} (Quantifier.star.on l) := by
  refine ⟨(one_add_mul_kstar (a := l)).le,fun m (closed : 1 + l * m ≤ m) => ?_⟩
  obtain ⟨none,more⟩ := add_le_iff.mp closed
  calc l∗ = l∗ * 1 := (mul_one _).symm
    _ ≤ m := kstar_mul_le none more

/-- What some number of words makes up, but not none, is the least language with each word and with one word more. -/
theorem isLeast_plus (l : Language Char) : IsLeast {m | l + l * m ≤ m} (Quantifier.plus.on l) := by
  constructor
  · show l + l * (l * l∗) ≤ l * l∗
    calc l + l * (l * l∗) = l * (1 + l * l∗) := by rw [mul_add,mul_one]
      _ ≤ l * l∗ := by rw [one_add_mul_kstar]
  · intro m (closed : l + l * m ≤ m)
    obtain ⟨once,more⟩ := add_le_iff.mp closed
    calc l * l∗ = l∗ * l := (Language.mul_self_kstar_comm l).symm
      _ ≤ m := kstar_mul_le once more

/-- Each rule is right about the language. -/
theorem Denotes.mem_language {r : Regex} {w : List Char} (denotes : r.Denotes w) : w ∈ r.language := by
  induction denotes with
  | epsilon =>
    rw [language_epsilon]
    exact Language.nil_mem_one
  | char other =>
    rw [language_char,if_neg other]
    exact Set.mem_singleton _
  | starNone =>
    rw [language_quant]
    exact Language.nil_mem_kstar _
  | @starMore r u v _ _ first rest =>
    rw [language_quant] at rest ⊢
    exact (isLeast_star r.language).1 (.inr (Language.append_mem_mul first rest))
  | @plusOnce r u _ once =>
    rw [language_quant]
    exact (isLeast_plus r.language).1 (.inl once)
  | @plusMore r u v _ _ first rest =>
    rw [language_quant] at rest ⊢
    exact (isLeast_plus r.language).1 (.inr (Language.append_mem_mul first rest))
  | optionNone =>
    rw [language_quant]
    exact .inl rfl
  | optionOnce _ once =>
    rw [language_quant]
    exact .inr once
  | seqNil =>
    rw [language_seq]
    exact Language.nil_mem_one
  | seqCons _ _ first rest =>
    rw [language_seq] at rest ⊢
    rw [List.map_cons,List.prod_cons]
    exact Language.append_mem_mul first rest
  | choice member _ chosen =>
    rw [language_choice,mem_languageSum]
    exact ⟨_,member,chosen⟩

/-- The words that the rules give are closed under what makes the language of an iteration the least. -/
theorem denotes_quant {q : Quantifier} {r : Regex} (body : ∀ w ∈ r.language, r.Denotes w) {w : List Char}
    (member : w ∈ q.on r.language) : (quant q r).Denotes w := by
  cases q with
  | star =>
    have closed : 1 + r.language * (quant .star r).denoted ≤ (quant .star r).denoted := by
      rintro w (none | more)
      · cases none
        exact .starNone
      · obtain ⟨u,first,v,rest,rfl⟩ := Language.mem_mul.mp more
        exact .starMore (body u first) rest
    exact (isLeast_star r.language).2 closed member
  | plus =>
    have closed : r.language + r.language * (quant .plus r).denoted ≤ (quant .plus r).denoted := by
      rintro w (once | more)
      · exact .plusOnce (body w once)
      · obtain ⟨u,first,v,rest,rfl⟩ := Language.mem_mul.mp more
        exact .plusMore (body u first) rest
    exact (isLeast_plus r.language).2 closed member
  | option =>
    rcases member with none | once
    · cases none
      exact .optionNone
    · exact .optionOnce (body w once)

theorem denotes_of_mem_language {r : Regex} {w : List Char} (member : w ∈ r.language) : r.Denotes w := by
  induction r generalizing w with
  | char c =>
    rw [language_char] at member
    split at member
    · rename_i same
      cases member
      exact same ▸ .epsilon
    · rename_i other
      cases Set.mem_singleton_iff.mp member
      exact .char other
  | quant q r ih =>
    rw [language_quant] at member
    exact denotes_quant (fun w => ih) member
  | seq rs ih =>
    rw [language_seq] at member
    induction rs generalizing w with
    | nil =>
      cases member
      exact .seqNil
    | cons r rs rest =>
      rw [List.map_cons,List.prod_cons] at member
      obtain ⟨u,first,v,last,rfl⟩ := Language.mem_mul.mp member
      exact .seqCons (ih r List.mem_cons_self first) (rest (fun s listed => ih s (List.mem_cons_of_mem r listed)) last)
  | choice rs ih =>
    rw [language_choice,mem_languageSum] at member
    obtain ⟨r,listed,chosen⟩ := member
    exact .choice listed (ih r listed chosen)

theorem denoted_eq (r : Regex) : r.denoted = r.language :=
  Language.ext fun _ => ⟨Denotes.mem_language,denotes_of_mem_language⟩

/-- An expression is nullable exactly when it denotes the empty word. The words that it denotes are its language, and its
    iterations have the least languages that contain what the rules for them ask for. -/
theorem nullable_exact (r : Regex) : (r.nullable = true ↔ r.Denotes []) ∧ r.denoted = r.language ∧
    IsLeast {l | 1 + r.denoted * l ≤ l} (quant .star r).denoted ∧
    IsLeast {l | r.denoted + r.denoted * l ≤ l} (quant .plus r).denoted := by
  have empty : r.Denotes [] ↔ [] ∈ r.language := by
    rw [← denoted_eq]
    exact Iff.rfl
  refine ⟨(nullable_iff r).trans empty.symm,denoted_eq r,?_⟩
  simp only [denoted_eq,language_quant]
  exact ⟨isLeast_star r.language,isLeast_plus r.language⟩

end StepwiseAutomata.Regex
