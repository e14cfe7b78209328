import StepwiseAutomata.Proofs.RegexLanguage
import StepwiseAutomata.Regex.Parser

namespace StepwiseAutomata.Regex

variable {position : Nat} {outer outer' : List (Group × Nat)} {g g' : Group} {c : Char} {cs : List Char}
  {e : ParseError}

/-- The character, read at the position, leads from one place to the other. -/
inductive Takes (position : Nat) (c : Char) :
    List (Group × Nat) → Group → List (Group × Nat) → Group → Prop
  | opening {outer : List (Group × Nat)} {g : Group} :
      Token.ofChar c = .opening → Takes position c outer g ((g,position) :: outer) {}
  | closing {outer : List (Group × Nat)} {around g : Group} {opened : Nat} {r : Regex} :
      Token.ofChar c = .closing → g.finish position = .ok (some r) →
      Takes position c ((around,opened) :: outer) g outer (around.push r)
  | bar {outer : List (Group × Nat)} {g g' : Group} :
      Token.ofChar c = .bar → g.split? = some g' → Takes position c outer g outer g'
  | quantifier {outer : List (Group × Nat)} {g g' : Group} (q : Quantifier) :
      Token.ofChar c = .quantifier q → g.quantify? q = some g' → Takes position c outer g outer g'
  | blank {outer : List (Group × Nat)} {g : Group} : Token.ofChar c = .blank → Takes position c outer g outer g
  | literal {outer : List (Group × Nat)} {g : Group} (d : Char) :
      Token.ofChar c = .literal d → Takes position c outer g outer (g.push (.char d))

/-- The text starts with a reason for the error. -/
inductive Fault (position : Nat) : List (Group × Nat) → Group → List Char → ParseError → Prop
  | operator {outer : List (Group × Nat)} {g : Group} {c : Char} {cs : List Char} (q : Quantifier) :
      Token.ofChar c = .quantifier q → g.quantify? q = none →
      Fault position outer g (c :: cs) (.operatorOnEmptyWord q position)
  | bar {outer : List (Group × Nat)} {g : Group} {c : Char} {cs : List Char} :
      Token.ofChar c = .bar → g.split? = none → Fault position outer g (c :: cs) (.emptyChoiceOperand position)
  | closing {outer : List (Group × Nat)} {around g : Group} {opened : Nat} {c : Char} {cs : List Char} :
      Token.ofChar c = .closing → g.finish position = .error (.emptyChoiceOperand position) →
      Fault position ((around,opened) :: outer) g (c :: cs) (.emptyChoiceOperand position)
  | ending {g : Group} : g.finish position = .error (.emptyChoiceOperand position) →
      Fault position [] g [] (.emptyChoiceOperand position)
  | stray {g : Group} {c : Char} {cs : List Char} :
      Token.ofChar c = .closing → Fault position [] g (c :: cs) (.strayClosingParenthesis position)
  | unclosed {outer : List (Group × Nat)} {g : Group} {c : Char} {cs : List Char} :
      Token.ofChar c = .opening → closes 0 cs = false →
      Fault position outer g (c :: cs) (.unclosedParenthesis position)
  | empty {outer : List (Group × Nat)} {around g : Group} {opened : Nat} {c : Char} {cs : List Char} :
      Token.ofChar c = .closing → g.finish position = .ok none →
      Fault position ((around,opened) :: outer) g (c :: cs) (.emptyParentheses opened)

theorem Takes.read (takes : Takes position c outer g outer' g')
    (closed : Token.ofChar c = .opening → closes 0 cs = true) :
    read position outer g (c :: cs) = read (position + 1) outer' g' cs := by
  rw [read.eq_def]
  cases takes with
  | opening token =>
    simp only [token]
    rw [if_pos (closed token)]
  | closing token finished => simp only [token,finished]
  | bar token split => simp only [token,split]
  | quantifier q token quantified => simp only [token,quantified]
  | blank token => simp only [token]
  | literal d token => simp only [token]

theorem Group.finish_error (refused : g.finish position = .error e) : e = .emptyChoiceOperand position := by
  unfold finish at refused
  split at refused <;> cases refused
  rfl

/-- Every character can be read, or is a fault. -/
theorem takes_or_fault (position : Nat) (outer : List (Group × Nat)) (g : Group) (c : Char) (cs : List Char) :
    (∃ outer' g', Takes position c outer g outer' g' ∧ (Token.ofChar c = .opening → closes 0 cs = true)) ∨
      ∃ e, Fault position outer g (c :: cs) e := by
  cases token : Token.ofChar c with
  | opening =>
    by_cases closed : closes 0 cs = true
    · exact .inl ⟨_,_,.opening token,fun _ => closed⟩
    · exact .inr ⟨_,.unclosed token (Bool.eq_false_iff.mpr closed)⟩
  | closing =>
    cases outer with
    | nil => exact .inr ⟨_,.stray token⟩
    | cons x outer =>
      match finished : g.finish position with
      | .ok (some r) => exact .inl ⟨_,_,.closing token finished,nofun⟩
      | .ok none => exact .inr ⟨_,.empty token finished⟩
      | .error e =>
        obtain rfl := Group.finish_error finished
        exact .inr ⟨_,.closing token finished⟩
  | bar =>
    cases split : g.split? with
    | some g' => exact .inl ⟨_,_,.bar token split,nofun⟩
    | none => exact .inr ⟨_,.bar token split⟩
  | quantifier q =>
    cases quantified : g.quantify? q with
    | some g' => exact .inl ⟨_,_,.quantifier q token quantified,nofun⟩
    | none => exact .inr ⟨_,.operator q token quantified⟩
  | blank => exact .inl ⟨_,_,.blank token,nofun⟩
  | literal d => exact .inl ⟨_,_,.literal d token,nofun⟩

theorem Fault.read_eq (fault : Fault position outer g cs e) : read position outer g cs = .error e := by
  rw [read.eq_def]
  cases fault with
  | operator q token none => simp only [token,none]
  | bar token none => simp only [token,none]
  | closing token wrong => simp only [token,wrong]
  | ending wrong => exact wrong
  | stray token => simp only [token]
  | unclosed token unclosed =>
    simp only [token]
    exact if_neg (Bool.eq_false_iff.mp unclosed)
  | empty token nothing => simp only [token,nothing]

theorem exists_takes {answer : Option Regex} (made : read position outer g (c :: cs) = .ok answer) :
    ∃ outer' g', Takes position c outer g outer' g' ∧ read (position + 1) outer' g' cs = .ok answer := by
  rcases takes_or_fault position outer g c cs with ⟨outer',g',takes,own⟩ | ⟨e,fault⟩
  · exact ⟨outer',g',takes,(takes.read own).symm.trans made⟩
  · cases fault.read_eq.symm.trans made

theorem read_nil_ok {answer : Option Regex} (made : read position outer g [] = .ok answer) :
    outer = [] ∧ g.finish position = .ok answer := by
  cases outer with
  | nil => exact ⟨rfl,made⟩
  | cons x outer => cases made

/-- All that has been read of a group is flat. -/
def Group.Flat (g : Group) : Prop := (∀ r ∈ g.alternatives, r.Flat) ∧ ∀ r ∈ g.factors, r.Flat

namespace Group

theorem Flat.push (flat : g.Flat) {r : Regex} (first : r.Flat) : (g.push r).Flat :=
  ⟨flat.1,List.forall_mem_cons.mpr ⟨first,flat.2⟩⟩

theorem Flat.sequence (flat : g.Flat) : (sequenceOf g.factors.reverse).Flat :=
  flat_sequenceOf fun r member => flat.2 r (List.mem_reverse.mp member)

theorem Flat.quantify? (flat : g.Flat) {q : Quantifier} (made : g.quantify? q = some g') : g'.Flat := by
  unfold Group.quantify? at made
  split at made
  · cases made
  · rename_i r rs factors
    cases made
    obtain ⟨first,rest⟩ := List.forall_mem_cons.mp (factors ▸ flat.2)
    exact ⟨flat.1,List.forall_mem_cons.mpr ⟨.quant q first,rest⟩⟩

theorem Flat.split? (flat : g.Flat) (made : g.split? = some g') : g'.Flat := by
  unfold Group.split? at made
  split at made
  · cases made
  · cases made
    exact ⟨List.forall_mem_cons.mpr ⟨flat.sequence,flat.1⟩,List.forall_mem_nil _⟩

theorem Flat.finish (flat : g.Flat) {position : Nat} {r : Regex} (made : g.finish position = .ok (some r)) :
    r.Flat := by
  unfold Group.finish at made
  split at made
  · cases made
  · cases made
    exact flat.sequence
  · cases made
  · cases made
    refine flat_choiceOf fun s member => ?_
    rcases List.mem_cons.mp (List.mem_reverse.mp member) with rfl | old
    · exact flat.sequence
    · exact flat.1 s old

end Group

theorem Takes.flat (takes : Takes position c outer g outer' g') (groups : ∀ x ∈ outer, x.1.Flat) (flat : g.Flat) :
    (∀ x ∈ outer', x.1.Flat) ∧ g'.Flat := by
  cases takes with
  | opening => exact ⟨List.forall_mem_cons.mpr ⟨flat,groups⟩,List.forall_mem_nil _,List.forall_mem_nil _⟩
  | closing _ finished =>
    obtain ⟨around,others⟩ := List.forall_mem_cons.mp groups
    exact ⟨others,around.push (flat.finish finished)⟩
  | bar _ split => exact ⟨groups,flat.split? split⟩
  | quantifier _ _ quantified => exact ⟨groups,flat.quantify? quantified⟩
  | blank => exact ⟨groups,flat⟩
  | literal d => exact ⟨groups,flat.push (.char d)⟩

theorem read_flat {text : List Char} {r : Regex} (groups : ∀ x ∈ outer, x.1.Flat) (flat : g.Flat)
    (made : read position outer g text = .ok (some r)) : r.Flat := by
  induction text generalizing position outer g with
  | nil => exact flat.finish (read_nil_ok made).2
  | cons c cs ih =>
    obtain ⟨outer',g',takes,made⟩ := exists_takes made
    obtain ⟨groups,flat⟩ := takes.flat groups flat
    exact ih groups flat made

theorem parse_flat {text : String} {r : Regex} (parsed : parse text = .ok (some r)) : r.Flat :=
  read_flat (List.forall_mem_nil _) ⟨List.forall_mem_nil _,List.forall_mem_nil _⟩ parsed

end StepwiseAutomata.Regex
