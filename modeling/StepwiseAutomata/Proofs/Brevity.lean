import StepwiseAutomata.Proofs.Printing

/-!
The written form of an expression is the shortest text for it. What a derivation spends is compared with what is
written, symbol by symbol: an operand that binds too weakly for its place costs a pair of parentheses in every
derivation, and a group that flattening opens has only cost a pair more.
-/
namespace StepwiseAutomata.Regex

/-- The number of characters in which the expression is written where only operators of that precedence or a higher one
    stand without parentheses. -/
def lengthAt (precedence : Nat) (r : Regex) : Nat :=
  r.chars.length + if r.operator.precedence < precedence then 2 else 0

theorem length_parenthesised (parent : Operator) (r : Regex) :
    (parenthesised (needsParentheses parent r) r.chars).length = r.lengthAt parent.precedence := by
  unfold parenthesised needsParentheses lengthAt
  by_cases weak : r.operator.precedence < parent.precedence <;> simp [weak]

theorem length_chars_le_lengthAt (precedence : Nat) (r : Regex) : r.chars.length ≤ r.lengthAt precedence :=
  Nat.le_add_right _ _

theorem lengthAt_le (precedence : Nat) (r : Regex) : r.lengthAt precedence ≤ r.chars.length + 2 := by
  unfold lengthAt
  split <;> omega

theorem lengthAt_mono {low high : Nat} (le : low ≤ high) (r : Regex) : r.lengthAt low ≤ r.lengthAt high := by
  unfold lengthAt
  split <;> split <;> omega

/-- Parentheses are needed in neither place, or in both. -/
theorem lengthAt_eq {r : Regex} {low high : Nat} (same : r.operator.precedence < low ↔ r.operator.precedence < high) :
    r.lengthAt low = r.lengthAt high := by
  unfold lengthAt
  simp only [same]

theorem lengthAt_zero (r : Regex) : r.lengthAt 0 = r.chars.length := rfl

theorem length_seqChars (rs : List Regex) : (seqChars rs).length = (rs.map (lengthAt 1)).sum := by
  induction rs with
  | nil => simp [seqChars]
  | cons r rs ih =>
    rw [seqChars,List.length_append,ih,length_parenthesised,List.map_cons,List.sum_cons]
    rfl

theorem length_choiceChars (rs : List Regex) : (choiceChars rs).length = (rs.map fun r => r.chars.length + 1).sum := by
  induction rs with
  | nil => simp [choiceChars]
  | cons r rs ih =>
    rw [choiceChars,List.cons_append,List.length_cons,List.length_append,ih,length_parenthesised,List.map_cons,
      List.sum_cons]
    show r.lengthAt 0 + _ + 1 = _
    rw [lengthAt_zero]
    omega

theorem length_quant (q : Quantifier) (r : Regex) : (quant q r).chars.length = r.lengthAt 2 + 1 := by
  rw [chars,List.length_append,length_parenthesised]
  cases q <;> rfl

theorem length_seq (rs : List Regex) : (seq rs).chars.length = (rs.map (lengthAt 1)).sum := by
  rw [chars,length_seqChars]

/-- Each alternative comes with a bar, but for one. -/
theorem length_choice {rs : List Regex} (some : rs ≠ []) :
    (choice rs).chars.length + 1 = (rs.map fun r => r.chars.length + 1).sum := by
  obtain ⟨r,rs,rfl⟩ := List.exists_cons_of_ne_nil some
  rw [chars,List.length_append,length_parenthesised,length_choiceChars,List.map_cons,List.sum_cons]
  show r.lengthAt 0 + _ + 1 = _
  rw [lengthAt_zero]
  omega

/-- Operands that are split cost no more than before when none of them does. -/
theorem sum_flatMap_le {split : Regex → List Regex} {cost : Regex → Nat} {rs : List Regex}
    (each : ∀ r ∈ rs, ((split r).map cost).sum ≤ cost r) : ((rs.flatMap split).map cost).sum ≤ (rs.map cost).sum := by
  induction rs with
  | nil => exact Nat.le_refl _
  | cons r rs ih =>
    obtain ⟨first,rest⟩ := List.forall_mem_cons.mp each
    rw [List.flatMap_cons,List.map_append,List.sum_append,List.map_cons,List.sum_cons]
    exact Nat.add_le_add first (ih rest)

theorem flatMap_ne_nil {split : Regex → List Regex} {rs : List Regex} (some : rs ≠ [])
    (each : ∀ r ∈ rs, split r ≠ []) : rs.flatMap split ≠ [] := by
  obtain ⟨r,rs,rfl⟩ := List.exists_cons_of_ne_nil some
  rw [List.flatMap_cons]
  exact List.append_ne_nil_of_left_ne_nil (each r List.mem_cons_self) _

/-- The factors of a flat tree are written in no more characters than the tree. -/
theorem Flat.factors_length {r : Regex} (flat : r.Flat) :
    r.factors ≠ [] ∧ (r.factors.map (lengthAt 2)).sum ≤ r.lengthAt 2 := by
  cases flat with
  | @seq rs many flats other =>
    have same : rs.map (lengthAt 2) = rs.map (lengthAt 1) := by
      refine List.map_congr_left fun r member => lengthAt_eq ?_
      have := other r member
      cases operator : r.operator <;> simp_all [Operator.precedence]
    refine ⟨?_,?_⟩
    · rintro none
      rw [show rs = [] from none] at many
      cases many
    · show (rs.map (lengthAt 2)).sum ≤ _
      rw [same,← length_seq]
      exact length_chars_le_lengthAt 2 _
  | _ => simp [factors]

/-- The alternatives of a flat tree, with a bar for each, are written in no more characters than the tree. -/
theorem Flat.alternatives_length {r : Regex} (flat : r.Flat) :
    r.alternatives ≠ [] ∧ (r.alternatives.map fun r => r.lengthAt 1 + 1).sum ≤ r.lengthAt 1 + 1 := by
  cases flat with
  | @choice rs many flats other =>
    have some : rs ≠ [] := by
      rintro rfl
      cases many
    have same : (rs.map fun r => r.lengthAt 1 + 1) = rs.map fun r => r.chars.length + 1 := by
      refine List.map_congr_left fun r member => congrArg (· + 1) ?_
      rw [← lengthAt_zero]
      refine lengthAt_eq ?_
      have := other r member
      cases operator : r.operator <;> simp_all [Operator.precedence]
    refine ⟨some,?_⟩
    show (rs.map fun r => r.lengthAt 1 + 1).sum ≤ _
    rw [same,← length_choice some]
    exact Nat.succ_le_succ (length_chars_le_lengthAt 1 _)
  | _ => simp [alternatives]

/-- A sequence costs no more than its factors, as they are found in a text. -/
theorem lengthAt_sequenceOf {rs : List Regex} (some : rs ≠ []) (flat : ∀ r ∈ rs, r.Flat) :
    (sequenceOf rs).lengthAt 1 ≤ (rs.map (lengthAt 2)).sum := by
  refine Nat.le_trans ?_ (sum_flatMap_le fun r member => (flat r member).factors_length.2)
  have some := flatMap_ne_nil some fun r member => (flat r member).factors_length.1
  rw [sequenceOf]
  generalize rs.flatMap factors = fs at some
  rcases fs with - | ⟨f,- | ⟨f',fs⟩⟩
  · exact absurd rfl some
  · simpa [collapse] using lengthAt_mono (Nat.le_succ 1) f
  · show (seq (f :: f' :: fs)).chars.length + 0 ≤ _
    rw [Nat.add_zero,length_seq]
    exact List.sum_le_sum fun f _ => lengthAt_mono (Nat.le_succ 1) f

/-- A choice costs no more than its alternatives and the bars between them, as they are found in a text. -/
theorem length_choiceOf {rs : List Regex} (some : rs ≠ []) (flat : ∀ r ∈ rs, r.Flat) :
    (choiceOf rs).chars.length + 1 ≤ (rs.map fun r => r.lengthAt 1 + 1).sum := by
  refine Nat.le_trans ?_ (sum_flatMap_le fun r member => (flat r member).alternatives_length.2)
  have some := flatMap_ne_nil some fun r member => (flat r member).alternatives_length.1
  rw [choiceOf]
  generalize rs.flatMap alternatives = alts at some
  rcases alts with - | ⟨s,- | ⟨s',alts⟩⟩
  · exact absurd rfl some
  · simpa [collapse] using length_chars_le_lengthAt 1 s
  · show (choice (s :: s' :: alts)).chars.length + 1 ≤ _
    rw [length_choice some]
    exact List.sum_le_sum fun s _ => Nat.succ_le_succ (length_chars_le_lengthAt 1 s)

/-- So many characters are enough to write trees in the places of the symbol. -/
def Nonterminal.Affords : Nonterminal → List Regex → Nat → Prop
  | .choice,rs,n => (rs.map fun r => r.lengthAt 1 + 1).sum ≤ n + 1
  | _,rs,n => (rs.map (lengthAt 2)).sum ≤ n

/-- No derivation is shorter than what is written for its trees. -/
theorem Derives.affords {n : Nonterminal} {w : List Char} {rs : List Regex} (derives : Derives n w rs) :
    n.Affords rs w.length := by
  induction derives with
  | literal _ => simp [Nonterminal.Affords,lengthAt,chars,operator,Operator.precedence]
  | @group w alts choice ih =>
    have inside := length_choiceOf choice.ne_nil choice.flat
    have around := lengthAt_le 2 (choiceOf alts)
    have whole : (alts.map fun r => r.lengthAt 1 + 1).sum ≤ w.length + 1 := ih
    show (choiceOf alts).lengthAt 2 + 0 ≤ ('(' :: w ++ [')']).length
    rw [List.length_append,List.length_cons,List.length_singleton]
    omega
  | atom _ ih => exact ih
  | @quant w r q _ ih =>
    have operand : r.lengthAt 2 + 0 ≤ w.length := ih
    -- a quantifier binds tightly enough to stand bare
    have bare : (Regex.quant q r).lengthAt 2 = (Regex.quant q r).chars.length := by
      cases q <;> rfl
    show (Regex.quant q r).lengthAt 2 + 0 ≤ (w ++ [q.sign]).length
    rw [bare,length_quant,List.length_append,List.length_singleton]
    omega
  | factor _ ih => exact ih
  | @next v w rs r _ _ ih ih' =>
    show ((rs ++ [r]).map (lengthAt 2)).sum ≤ (v ++ w).length
    rw [List.map_append,List.sum_append,List.length_append]
    exact Nat.add_le_add ih ih'
  | @alternative w rs seq ih =>
    have whole := Nat.le_trans (lengthAt_sequenceOf seq.ne_nil seq.flat) ih
    show (sequenceOf rs).lengthAt 1 + 1 + 0 ≤ w.length + 1
    omega
  | @bar v w alts rs _ seq ih ih' =>
    have last := Nat.le_trans (lengthAt_sequenceOf seq.ne_nil seq.flat) ih'
    have before : (alts.map fun r => r.lengthAt 1 + 1).sum ≤ v.length + 1 := ih
    show ((alts ++ [sequenceOf rs]).map fun r => r.lengthAt 1 + 1).sum ≤ (v ++ '|' :: w).length + 1
    rw [List.map_append,List.sum_append,List.length_append,List.length_cons]
    simp only [List.map_cons,List.map_nil,List.sum_cons,List.sum_nil]
    omega

/-- No text for an expression has fewer characters than its written form. -/
theorem length_le_of_parse {text : String} {r : Regex} (parsed : parse text = .ok (some r)) :
    (toString r).length ≤ text.length := by
  obtain ⟨alts,derives,rfl⟩ := derives_of_parse parsed
  have spent : (alts.map fun r => r.lengthAt 1 + 1).sum ≤ (withoutBlanks text.toList).length + 1 := derives.affords
  have whole := length_choiceOf derives.ne_nil derives.flat
  have blanks : (withoutBlanks text.toList).length ≤ text.toList.length := List.length_filter_le _ _
  have written : (toString (choiceOf alts)).length = (choiceOf alts).chars.length := String.length_ofList
  rw [String.length_toList] at blanks
  omega

/-- Of all texts for an expression of literals the written form, which is one of them, has the fewest characters. So
    whatever is left out of it, were it but one pair of parentheses, what remains is no text for the expression. -/
theorem toString_shortest {r : Regex} (flat : r.Flat) (literal : ∀ c ∈ r.leaves, IsLiteral c) :
    parse (toString r) = .ok (some r) ∧
    (∀ text, parse text = .ok (some r) → (toString r).length ≤ text.length) ∧
    (∀ before inside after, (toString r).toList = before ++ '(' :: inside ++ ')' :: after →
      parse (String.ofList (before ++ inside ++ after)) ≠ .ok (some r)) ∧
    ∀ text : String, text.toList.Sublist (toString r).toList → parse text = .ok (some r) → text = toString r := by
  have fewer (text : String) (parsed : parse text = .ok (some r)) :
      (toString r).toList.length ≤ text.toList.length := by
    rw [String.length_toList,String.length_toList]
    exact length_le_of_parse parsed
  refine ⟨flat.parse_toString literal,fun text => length_le_of_parse,?_,?_⟩
  · intro before inside after written parsed
    have le := fewer _ parsed
    rw [written,String.toList_ofList] at le
    simp only [List.length_append,List.length_cons] at le
    omega
  · intro text part parsed
    exact String.toList_injective (part.eq_of_length_le (fewer text parsed))

/-- The parentheses of `(a|b)*c` are needed; a text for the same expression with groups that flattening opens is
    longer. -/
theorem toString_shortest_star :
    let r : Regex := .seq [.quant .star (.choice [.char 'a',.char 'b']),.char 'c']
    r.Flat ∧ (∀ c ∈ r.leaves, IsLiteral c) ∧ toString r = "(a|b)*c" ∧
      parse "((((a)|b))* (c))" = .ok (some r) ∧ (toString r).length ≤ "((((a)|b))* (c))".length ∧
      parse "a|b*c" ≠ .ok (some r) := by
  intro r
  have printed : parse "(a|b)*c" = .ok (some r) := rfl
  have flat : r.Flat := parse_flat printed
  have literal : ∀ c ∈ r.leaves, IsLiteral c := isLiteral_of_parse printed
  have parsed : parse "((((a)|b))* (c))" = .ok (some r) := rfl
  obtain ⟨_,shortest,needed,_⟩ := toString_shortest flat literal
  exact ⟨flat,literal,by decide,parsed,shortest _ parsed,needed [] ['a','|','b'] ['*','c'] (by decide)⟩

end StepwiseAutomata.Regex
