import StepwiseAutomata.Proofs.Grammar
import StepwiseAutomata.Regex.Printer

namespace StepwiseAutomata.Regex

mutual
/-- The characters at the leaves of the tree. -/
def leaves : Regex → List Char
  | .char c => [c]
  | .quant _ r => leaves r
  | .seq rs => leavesAll rs
  | .choice rs => leavesAll rs
def leavesAll : List Regex → List Char
  | [] => []
  | r :: rs => leaves r ++ leavesAll rs
end

/-- The character stands for itself in a text. -/
def IsLiteral (c : Char) : Prop := c ∉ reserved ∧ Text.isBlank c = false

instance (c : Char) : Decidable (IsLiteral c) := inferInstanceAs (Decidable (_ ∧ _))

/-- The expressions that come out of the constructors, the reader and the simplification. -/
inductive Built : Regex → Prop
  | char (c : Char) : Built (.char c)
  | unary {op : Operator} {r s : Regex} : Built r → unary op r = .ok s → Built s
  | compound {op : Operator} {rs : List Regex} {s : Regex} : (∀ r ∈ rs, Built r) → compound op rs = .ok s → Built s
  | parse {text : String} {r : Regex} : parse text = .ok (some r) → Built r
  | optimiseToDepth {r : Regex} (depth : Nat) : Built r → Built (r.optimiseToDepth depth)
  | optimise {r : Regex} : Built r → Built r.optimise

theorem flat_unary {op : Operator} {r s : Regex} (made : unary op r = .ok s) (flat : r.Flat) : s.Flat := by
  unfold unary at made
  split at made
  · cases made
    exact .quant _ flat
  · cases made

theorem flat_compound {op : Operator} {rs : List Regex} {s : Regex} (made : compound op rs = .ok s)
    (flat : ∀ r ∈ rs, r.Flat) : s.Flat := by
  unfold compound at made
  split at made
  · cases made
  · cases made
  · cases made
    exact flat_sequenceOf flat
  · cases made
    exact flat_choiceOf flat
  · exact flat_unary made (flat _ (List.mem_singleton_self _))
  · cases made

theorem Built.flat {r : Regex} (built : Built r) : r.Flat := by
  induction built with
  | char c => exact .char c
  | unary _ made ih => exact flat_unary made ih
  | compound _ made ih => exact flat_compound made ih
  | parse parsed => exact parse_flat parsed
  | optimiseToDepth depth _ ih => exact (optimiseToDepth_sound depth ih).1
  | optimise _ ih => exact (optimise_sound ih).1

theorem mem_leavesAll {c : Char} {rs : List Regex} : c ∈ leavesAll rs ↔ ∃ r ∈ rs, c ∈ r.leaves := by
  induction rs with
  | nil => simp [leavesAll]
  | cons r rs ih => rw [leavesAll,List.mem_append,ih,List.exists_mem_cons_iff]

@[simp] theorem leaves_char (c : Char) : (char c).leaves = [c] := by simp [leaves]
@[simp] theorem leaves_quant (q : Quantifier) (r : Regex) : (quant q r).leaves = r.leaves := by simp [leaves]
@[simp] theorem mem_leaves_seq {c : Char} {rs : List Regex} : c ∈ (seq rs).leaves ↔ ∃ r ∈ rs, c ∈ r.leaves := by
  rw [leaves,mem_leavesAll]
@[simp] theorem mem_leaves_choice {c : Char} {rs : List Regex} : c ∈ (choice rs).leaves ↔ ∃ r ∈ rs, c ∈ r.leaves := by
  rw [leaves,mem_leavesAll]

theorem isLiteral_epsilonChar : IsLiteral epsilonChar := by decide

/-- Operands that are put together keep their leaves; the only other one is `ε`. -/
theorem isLiteral_of_mem_collapse {build : List Regex → Regex} {split : Regex → List Regex} {rs : List Regex} {c : Char}
    (keeps : ∀ fs, c ∈ (build fs).leaves → ∃ f ∈ fs, c ∈ f.leaves)
    (splits : ∀ r, ∀ f ∈ split r, c ∈ f.leaves → c ∈ r.leaves) (literal : ∀ r ∈ rs, c ∈ r.leaves → IsLiteral c)
    (leaf : c ∈ (collapse build (rs.flatMap split)).leaves) : IsLiteral c := by
  have each : ∀ f ∈ rs.flatMap split, c ∈ f.leaves → IsLiteral c := by
    intro f member leaf
    obtain ⟨r,listed,part⟩ := List.mem_flatMap.mp member
    exact literal r listed (splits r f part leaf)
  generalize rs.flatMap split = fs at each leaf
  match fs with
  | [] =>
    obtain rfl : c = epsilonChar := by simpa [collapse,epsilon] using leaf
    exact isLiteral_epsilonChar
  | [f] => exact each f (List.mem_singleton_self f) leaf
  | f :: f' :: fs =>
    obtain ⟨g,member,leaf⟩ := keeps _ leaf
    exact each g member leaf

theorem isLiteral_of_mem_sequenceOf {rs : List Regex} {c : Char} (literal : ∀ r ∈ rs, c ∈ r.leaves → IsLiteral c)
    (leaf : c ∈ (sequenceOf rs).leaves) : IsLiteral c := by
  refine isLiteral_of_mem_collapse (fun fs => mem_leaves_seq.mp) (fun r f factor leaf => ?_) literal leaf
  cases r with
  | seq rs => exact mem_leaves_seq.mpr ⟨f,factor,leaf⟩
  | _ => exact List.mem_singleton.mp factor ▸ leaf

theorem isLiteral_of_mem_choiceOf {rs : List Regex} {c : Char} (literal : ∀ r ∈ rs, c ∈ r.leaves → IsLiteral c)
    (leaf : c ∈ (choiceOf rs).leaves) : IsLiteral c := by
  refine isLiteral_of_mem_collapse (fun fs => mem_leaves_choice.mp) (fun r f alternative leaf => ?_) literal leaf
  cases r with
  | choice rs => exact mem_leaves_choice.mpr ⟨f,alternative,leaf⟩
  | _ => exact List.mem_singleton.mp alternative ▸ leaf

/-- The leaves of the tree of a derivation are literals of the text. -/
theorem Derives.isLiteral {n : Nonterminal} {w : List Char} {rs : List Regex} (derives : Derives n w rs)
    (solid : ∀ c ∈ w, Text.isBlank c = false) : ∀ r ∈ rs, ∀ c ∈ r.leaves, IsLiteral c := by
  induction derives with
  | @literal c other =>
    intro r member d leaf
    rw [List.mem_singleton.mp member,leaves_char] at leaf
    rw [List.mem_singleton.mp leaf]
    exact ⟨other,solid c (List.mem_singleton_self c)⟩
  | group _ ih =>
    intro r member c leaf
    rw [List.mem_singleton.mp member] at leaf
    exact isLiteral_of_mem_choiceOf (fun s listed => ih (fun d inside => solid d (by simp [inside])) s listed c) leaf
  | atom _ ih => exact ih solid
  | @quant w r q _ ih =>
    intro s member c leaf
    rw [List.mem_singleton.mp member,leaves_quant] at leaf
    exact ih (fun d inside => solid d (by simp [inside])) r (List.mem_singleton_self r) c leaf
  | factor _ ih => exact ih solid
  | next _ _ ih ih' =>
    intro r member
    rcases List.mem_append.mp member with front | last
    · exact ih (fun d inside => solid d (by simp [inside])) r front
    · exact ih' (fun d inside => solid d (by simp [inside])) r last
  | alternative _ ih =>
    intro r member c leaf
    rw [List.mem_singleton.mp member] at leaf
    exact isLiteral_of_mem_sequenceOf (fun s listed => ih solid s listed c) leaf
  | bar _ _ ih ih' =>
    intro r member c leaf
    rcases List.mem_append.mp member with front | last
    · exact ih (fun d inside => solid d (by simp [inside])) r front c leaf
    · rw [List.mem_singleton.mp last] at leaf
      have inside := ih' fun d inside => solid d (by simp [inside])
      exact isLiteral_of_mem_sequenceOf (fun s listed => inside s listed c) leaf

theorem isLiteral_of_parse {text : String} {r : Regex} (parsed : parse text = .ok (some r)) :
    ∀ c ∈ r.leaves, IsLiteral c := by
  obtain ⟨alts,derives,rfl⟩ := derives_of_parse parsed
  intro c leaf
  have literal := derives.isLiteral fun d => not_blank_of_mem_withoutBlanks
  exact isLiteral_of_mem_choiceOf (fun s listed => literal s listed c) leaf

theorem mem_parenthesised {needed : Bool} {cs : List Char} {c : Char} (member : c ∈ parenthesised needed cs) :
    c ∈ cs ∨ c ∈ reserved := by
  unfold parenthesised at member
  split at member
  · simp only [List.cons_append,List.mem_cons,List.mem_append,List.not_mem_nil,or_false] at member
    rcases member with rfl | inside | rfl
    · exact .inr (by decide)
    · exact .inl inside
    · exact .inr (by decide)
  · exact .inl member

theorem mem_seqChars {rs : List Regex} {c : Char} (member : c ∈ seqChars rs) :
    (∃ r ∈ rs, c ∈ r.chars) ∨ c ∈ reserved := by
  induction rs with
  | nil => simp [seqChars] at member
  | cons r rs ih =>
    rw [seqChars,List.mem_append] at member
    rw [List.exists_mem_cons_iff,or_assoc]
    rcases member with first | rest
    · exact (mem_parenthesised first).imp_right .inr
    · exact .inr (ih rest)

theorem mem_choiceChars {rs : List Regex} {c : Char} (member : c ∈ choiceChars rs) :
    (∃ r ∈ rs, c ∈ r.chars) ∨ c ∈ reserved := by
  induction rs with
  | nil => simp [choiceChars] at member
  | cons r rs ih =>
    rw [choiceChars,List.cons_append,List.mem_cons,List.mem_append] at member
    rw [List.exists_mem_cons_iff,or_assoc]
    rcases member with rfl | first | rest
    · exact .inr (.inr (by decide))
    · exact (mem_parenthesised first).imp_right .inr
    · exact .inr (ih rest)

/-- Besides its leaves, the written form has signs of the grammar only. -/
theorem mem_chars {r : Regex} {c : Char} (member : c ∈ r.chars) : c ∈ r.leaves ∨ c ∈ reserved := by
  induction r with
  | char d => exact .inl (by simpa [chars] using member)
  | quant q r ih =>
    rw [chars,List.mem_append] at member
    rcases member with operand | sign
    · rcases mem_parenthesised operand with inside | around
      · simpa using ih inside
      · exact .inr around
    · exact .inr (List.mem_singleton.mp sign ▸ sign_mem_reserved q)
  | seq rs ih =>
    rw [chars] at member
    rcases mem_seqChars member with ⟨r,listed,inside⟩ | sign
    · exact (ih r listed inside).imp_left fun leaf => mem_leaves_seq.mpr ⟨r,listed,leaf⟩
    · exact .inr sign
  | choice rs ih =>
    have split : (∃ r ∈ rs, c ∈ r.chars) ∨ c ∈ reserved := by
      cases rs with
      | nil => simp [chars] at member
      | cons r rs =>
        rw [chars,List.mem_append] at member
        rw [List.exists_mem_cons_iff,or_assoc]
        rcases member with first | rest
        · exact (mem_parenthesised first).imp_right .inr
        · exact .inr (mem_choiceChars rest)
    rcases split with ⟨r,listed,inside⟩ | sign
    · exact (ih r listed inside).imp_left fun leaf => mem_leaves_choice.mpr ⟨r,listed,leaf⟩
    · exact .inr sign

/-- Operands of which none is split any further stay as they are. -/
theorem collapse_flatMap {build : List Regex → Regex} {split : Regex → List Regex} {rs : List Regex}
    (many : 2 ≤ rs.length) (alone : ∀ r ∈ rs, split r = [r]) : collapse build (rs.flatMap split) = build rs := by
  rw [List.flatMap_congr alone,List.flatMap_singleton']
  match rs,many with
  | r :: s :: rs,_ => rfl

theorem factors_of_operator_ne {r : Regex} (other : r.operator ≠ .sequence) : r.factors = [r] := by
  cases r with
  | seq => exact absurd rfl other
  | _ => rfl

theorem alternatives_of_operator_ne {r : Regex} (other : r.operator ≠ .choice) : r.alternatives = [r] := by
  cases r with
  | choice => exact absurd rfl other
  | _ => rfl

/-- The factors of a flat tree make up the tree. -/
theorem sequenceOf_factors {r : Regex} (flat : r.Flat) : sequenceOf r.factors = r := by
  cases flat with
  | seq many _ other => exact collapse_flatMap many fun r member => factors_of_operator_ne (other r member)
  | _ => simp [sequenceOf,factors,collapse]

/-- The alternatives of a flat tree make up the tree. -/
theorem choiceOf_alternatives {r : Regex} (flat : r.Flat) : choiceOf r.alternatives = r := by
  cases flat with
  | choice many _ other => exact collapse_flatMap many fun r member => alternatives_of_operator_ne (other r member)
  | _ => simp [choiceOf,alternatives,collapse]

/-- The tree is derived as what is written for it, from each symbol that is strong enough for its operator. -/
structure Written (r : Regex) : Prop where
  choice : Derives .choice r.chars r.alternatives
  seq : r.operator ≠ .choice → Derives .seq r.chars r.factors
  post : 2 ≤ r.operator.precedence → Derives .post r.chars [r]

/-- An operator that is no choice and no sequence binds like a quantifier or tighter. -/
theorem Operator.two_le_precedence {op : Operator} (first : op ≠ .choice) (second : op ≠ .sequence) :
    2 ≤ op.precedence := by
  cases op <;> simp_all [Operator.precedence]

/-- What binds like a quantifier is a sequence and a choice of its own. -/
theorem Written.of_post {r : Regex} (post : Derives .post r.chars [r]) (alternatives : r.alternatives = [r])
    (factors : r.factors = [r]) (flat : r.Flat) : r.Written := by
  have seq : Derives .seq r.chars r.factors := factors ▸ .factor post
  have choice : Derives .choice r.chars [sequenceOf r.factors] := .alternative seq
  rw [sequenceOf_factors flat] at choice
  exact ⟨alternatives ▸ choice,fun _ => seq,fun _ => post⟩

/-- An operand is derived as a factor, in parentheses or without. -/
theorem Written.operand {r : Regex} (written : r.Written) (flat : r.Flat) {parent : Operator}
    (binds : r.operator.precedence < 2 → r.operator.precedence < parent.precedence) :
    Derives .post (parenthesised (needsParentheses parent r) r.chars) [r] := by
  unfold parenthesised
  split
  · have group := Derives.group written.choice
    rw [choiceOf_alternatives flat] at group
    exact .atom group
  · rename_i bare
    refine written.post (Nat.le_of_not_lt fun weak => bare ?_)
    exact decide_eq_true (binds weak)

theorem derives_seqChars {v : List Char} {rs ss : List Regex} (derives : Derives .seq v rs)
    (operand : ∀ s ∈ ss, Derives .post (parenthesised (needsParentheses .sequence s) s.chars) [s]) :
    Derives .seq (v ++ seqChars ss) (rs ++ ss) := by
  induction ss generalizing v rs with
  | nil => simpa [seqChars] using derives
  | cons s ss ih =>
    obtain ⟨first,rest⟩ := List.forall_mem_cons.mp operand
    simpa [seqChars] using ih (derives.next first) rest

theorem derives_choiceChars {v : List Char} {alts ss : List Regex} (derives : Derives .choice v alts)
    (operand : ∀ s ∈ ss, Derives .seq (parenthesised (needsParentheses .choice s) s.chars) s.factors)
    (flat : ∀ s ∈ ss, s.Flat) : Derives .choice (v ++ choiceChars ss) (alts ++ ss) := by
  induction ss generalizing v alts with
  | nil => simpa [choiceChars] using derives
  | cons s ss ih =>
    obtain ⟨first,rest⟩ := List.forall_mem_cons.mp operand
    obtain ⟨flatFirst,flatRest⟩ := List.forall_mem_cons.mp flat
    have more := derives.bar first
    rw [sequenceOf_factors flatFirst] at more
    simpa [choiceChars] using ih more rest flatRest

theorem Flat.written {r : Regex} (flat : r.Flat) (literal : ∀ c ∈ r.leaves, c ∉ reserved) : r.Written := by
  induction flat with
  | char c =>
    have post : Derives .post (Regex.char c).chars [Regex.char c] := by
      rw [chars]
      exact .atom (.literal (literal c (by simp)))
    exact .of_post post rfl rfl (.char c)
  | @quant q r flat ih =>
    have post : Derives .post (Regex.quant q r).chars [Regex.quant q r] := by
      rw [chars]
      refine .quant q ((ih fun c leaf => literal c (by simpa using leaf)).operand flat fun weak => ?_)
      cases q <;> exact weak
    exact .of_post post rfl rfl (.quant q flat)
  | @seq rs many flat other ih =>
    have operand : ∀ r ∈ rs, Derives .post (parenthesised (needsParentheses .sequence r) r.chars) [r] := by
      intro r member
      refine (ih r member fun c leaf => literal c (mem_leaves_seq.mpr ⟨r,member,leaf⟩)).operand (flat r member)
        fun weak => ?_
      -- no operand is a sequence, and a choice binds weaker
      by_cases choice : r.operator = .choice
      · rw [choice]
        decide
      · exact absurd (Operator.two_le_precedence choice (other r member)) (Nat.not_le_of_lt weak)
    have whole : Derives .seq (Regex.seq rs).chars rs := by
      cases rs with
      | nil => cases many
      | cons r rs =>
        obtain ⟨first,rest⟩ := List.forall_mem_cons.mp operand
        simpa [chars,seqChars] using derives_seqChars (.factor first) rest
    have same : sequenceOf rs = .seq rs := sequenceOf_factors (.seq many flat other)
    have choice := Derives.alternative whole
    rw [same] at choice
    exact ⟨choice,fun _ => whole,fun strong => absurd strong (by simp [operator,Operator.precedence])⟩
  | @choice rs many flat other ih =>
    have operand : ∀ r ∈ rs, Derives .seq (parenthesised (needsParentheses .choice r) r.chars) r.factors := by
      intro r member
      exact (ih r member fun c leaf => literal c (mem_leaves_choice.mpr ⟨r,member,leaf⟩)).seq (other r member)
    have whole : Derives .choice (Regex.choice rs).chars rs := by
      cases rs with
      | nil => cases many
      | cons r rs =>
        obtain ⟨first,rest⟩ := List.forall_mem_cons.mp operand
        obtain ⟨flatFirst,flatRest⟩ := List.forall_mem_cons.mp flat
        have start := Derives.alternative first
        rw [sequenceOf_factors flatFirst] at start
        simpa [chars] using derives_choiceChars start rest flatRest
    exact ⟨whole,fun none => absurd rfl none,fun strong => absurd strong (by simp [operator,Operator.precedence])⟩

theorem Flat.parse_toString {r : Regex} (flat : r.Flat) (literal : ∀ c ∈ r.leaves, IsLiteral c) :
    parse (toString r) = .ok (some r) := by
  have text : (toString r).toList = r.chars := String.toList_ofList
  have solid : withoutBlanks (toString r).toList = r.chars := by
    rw [text]
    refine withoutBlanks_eq_self fun c member => ?_
    rcases mem_chars member with leaf | sign
    · exact (literal c leaf).2
    · exact not_blank_of_reserved sign
  have derives := (flat.written fun c leaf => (literal c leaf).1).choice
  rw [← solid] at derives
  rw [parse_of_derives derives,choiceOf_alternatives flat]

/-- Whatever the constructors build from literals is read back from its written form, and so is whatever has been read
    from a text. -/
theorem parse_written :
    (∀ r, Built r → (∀ c ∈ r.leaves, IsLiteral c) → parse (toString r) = .ok (some r)) ∧
    ∀ text r, parse text = .ok (some r) → parse (toString r) = .ok (some r) := by
  constructor
  · intro r built literal
    exact built.flat.parse_toString literal
  · intro text r parsed
    exact (parse_flat parsed).parse_toString (isLiteral_of_parse parsed)

/-- `(a|b)*c`, put together from its characters, is written so and read back. -/
theorem parse_written_star :
    ∃ r, Built r ∧ toString r = "(a|b)*c" ∧ (∀ c ∈ r.leaves, IsLiteral c) ∧ parse (toString r) = .ok (some r) ∧
      parse " (a| b)* c" = .ok (some r) := by
  let choice : Regex := .choice [.char 'a',.char 'b']
  let r : Regex := .seq [.quant .star choice,.char 'c']
  have characters : ∀ s ∈ [char 'a',char 'b'], Built s := by
    intro s member
    rcases List.mem_pair.mp member with rfl | rfl
    · exact .char 'a'
    · exact .char 'b'
  have star : Built (.quant .star choice) := @Built.unary .star choice _ (@Built.compound .choice _ _ characters rfl) rfl
  have operands : ∀ s ∈ [.quant .star choice,char 'c'], Built s := by
    intro s member
    rcases List.mem_pair.mp member with rfl | rfl
    · exact star
    · exact .char 'c'
  have built : Built r := @Built.compound .sequence _ _ operands rfl
  have literal : ∀ c ∈ r.leaves, IsLiteral c := by
    have leaves : r.leaves = ['a','b','c'] := by simp [r,choice,leaves,leavesAll]
    intro c leaf
    simp only [leaves,List.mem_cons,List.not_mem_nil,or_false] at leaf
    rcases leaf with rfl | rfl | rfl <;> decide
  exact ⟨r,built,by decide,literal,parse_written.1 r built literal,by rfl⟩

end StepwiseAutomata.Regex
