import StepwiseAutomata.Proofs.Grammar

/-!
Where an error is. Reading stops at the first character with which no expression can go on, so that the text before
the position of an error can still be completed. The parentheses that are reported are those that have no closing one,
or nothing before it.
-/
namespace StepwiseAutomata.Regex

/-- The place in the text at which the error is reported. -/
def ParseError.position : ParseError → Nat
  | operatorOnEmptyWord _ p => p
  | emptyChoiceOperand p => p
  | unclosedParenthesis p => p
  | strayClosingParenthesis p => p
  | emptyParentheses p => p

variable {position : Nat} {outer outer' : List (Group × Nat)} {g g' : Group} {c : Char} {cs pre : List Char}
  {e : ParseError}

/-- The characters are an expression, or blanks only. -/
def Accepted (cs : List Char) : Prop := ∃ answer, parse (String.ofList cs) = .ok answer

theorem parse_ofList (cs : List Char) : parse (String.ofList cs) = read 0 [] {} cs := by
  rw [parse,String.toList_ofList]

/-- Every parenthesis of the word has its partner in it. -/
inductive Balanced : List Char → Prop
  | nil : Balanced []
  | other {c : Char} {w : List Char} : c ≠ '(' → c ≠ ')' → Balanced w → Balanced (c :: w)
  | group {v w : List Char} : Balanced v → Balanced w → Balanced ('(' :: v ++ ')' :: w)

/-- A parenthesis before the text has its partner right after `inside`. -/
def ClosedAfter (inside cs : List Char) : Prop := Balanced inside ∧ ∃ rest, cs = inside ++ ')' :: rest

theorem closes_opening (token : Token.ofChar c = .opening) (depth : Nat) (cs : List Char) :
    closes depth (c :: cs) = closes (depth + 1) cs := by
  rw [closes.eq_def]
  simp only [token]

theorem closes_closing_zero (token : Token.ofChar c = .closing) (cs : List Char) : closes 0 (c :: cs) = true := by
  rw [closes.eq_def]
  simp only [token]

theorem closes_closing_succ (token : Token.ofChar c = .closing) (depth : Nat) (cs : List Char) :
    closes (depth + 1) (c :: cs) = closes depth cs := by
  rw [closes.eq_def]
  simp only [token]

theorem closes_other (first : Token.ofChar c ≠ .opening) (second : Token.ofChar c ≠ .closing) (depth : Nat)
    (cs : List Char) : closes depth (c :: cs) = closes depth cs := by
  refine closes_cons ?_ ?_ depth cs
  · rintro rfl
    exact first rfl
  · rintro rfl
    exact second rfl

theorem Balanced.closes_append {w : List Char} (balanced : Balanced w) (depth : Nat) (cs : List Char) :
    closes depth (w ++ cs) = closes depth cs := by
  induction balanced generalizing depth cs with
  | nil => rfl
  | other first second _ ih => rw [List.cons_append,closes_cons first second,ih]
  | @group v w _ _ ih ih' =>
    have split : '(' :: v ++ ')' :: w ++ cs = '(' :: (v ++ ')' :: (w ++ cs)) := by simp
    rw [split,closes_opening rfl,ih,closes_closing_succ rfl,ih']

/-- The search for the closing parenthesis finds the partner. -/
theorem ClosedAfter.closes {inside : List Char} (closed : ClosedAfter inside cs) : closes 0 cs = true := by
  obtain ⟨balanced,rest,rfl⟩ := closed
  rw [balanced.closes_append,closes_closing_zero rfl]

theorem balanced_of_blank {w : List Char} (blank : ∀ c ∈ w, Text.isBlank c = true) : Balanced w := by
  induction w with
  | nil => exact .nil
  | cons c w ih =>
    obtain ⟨first,others⟩ := List.forall_mem_cons.mp blank
    refine .other ?_ ?_ (ih others)
    · rintro rfl
      cases first
    · rintro rfl
      cases first

/-- The text closes all groups that are open before it. -/
def Closed (outer : List (Group × Nat)) (cs : List Char) : Prop := ∀ k < outer.length, closes k cs = true

/-- What comes after the character closes the groups that are open then, exactly if what starts with it closes those
    that were open before, and the one that the character may open. -/
theorem Takes.closed_iff (takes : Takes position c outer g outer' g') :
    Closed outer' cs ↔ Closed outer (c :: cs) ∧ (Token.ofChar c = .opening → closes 0 cs = true) := by
  cases takes with
  | opening token =>
    constructor
    · intro closed
      refine ⟨fun k bound => ?_,fun _ => closed 0 (Nat.zero_lt_succ _)⟩
      rw [closes_opening token]
      exact closed (k + 1) (Nat.succ_lt_succ bound)
    · rintro ⟨closed,own⟩ k bound
      cases k with
      | zero => exact own token
      | succ k =>
        rw [← closes_opening token]
        exact closed k (Nat.lt_of_succ_lt_succ bound)
  | closing token =>
    constructor
    · intro closed
      refine ⟨fun k bound => ?_,fun other => nomatch token.symm.trans other⟩
      cases k with
      | zero => exact closes_closing_zero token cs
      | succ k =>
        rw [closes_closing_succ token]
        exact closed k (Nat.lt_of_succ_lt_succ bound)
    · rintro ⟨closed,_⟩ k bound
      rw [← closes_closing_succ token]
      exact closed (k + 1) (Nat.succ_lt_succ bound)
  | bar token | quantifier _ token | blank token | literal _ token =>
    have same (k : Nat) : closes k (c :: cs) = closes k cs := closes_other (by simp [token]) (by simp [token]) k cs
    simp [Closed,same,token]

/-- A fault does not hang on what comes after the character, except that a parenthesis may be closed. -/
theorem Fault.any_rest (fault : Fault position outer g (c :: cs) e) (solid : Token.ofChar c ≠ .opening)
    (rest : List Char) : Fault position outer g (c :: rest) e := by
  cases fault with
  | operator q token none => exact .operator q token none
  | bar token none => exact .bar token none
  | closing token wrong => exact .closing token wrong
  | stray token => exact .stray token
  | unclosed token _ => exact absurd token solid
  | empty token nothing => exact .empty token nothing

/-- Reading the characters, however the text goes on, leads into the groups. -/
inductive Arrives : List Char → List (Group × Nat) → Group → Prop
  | start : Arrives [] [] {}
  | next {pre : List Char} {outer outer' : List (Group × Nat)} {g g' : Group} {c : Char} :
      Arrives pre outer g → Takes pre.length c outer g outer' g' → Arrives (pre ++ [c]) outer' g'

namespace Arrives

theorem read_eq (arrives : Arrives pre outer g) (closed : Closed outer cs) :
    read 0 [] {} (pre ++ cs) = read pre.length outer g cs := by
  induction arrives generalizing cs with
  | start => rfl
  | next arrives takes ih =>
    obtain ⟨before,own⟩ := takes.closed_iff.mp closed
    rw [List.append_assoc,List.singleton_append,ih before,takes.read own,List.length_append,List.length_singleton]

/-- Reading the text to its end goes on from what was reached. -/
theorem read_ok (arrives : Arrives pre outer g) {answer : Option Regex} (made : read 0 [] {} (pre ++ cs) = .ok answer) :
    read pre.length outer g cs = .ok answer := by
  induction arrives generalizing cs with
  | start => exact made
  | @next pre outer outer' g g' c arrives takes ih =>
    rw [List.append_assoc,List.singleton_append] at made
    have made := ih made
    have own : Token.ofChar c = .opening → closes 0 cs = true := by
      intro token
      by_contra unclosed
      cases (Fault.unclosed token (Bool.eq_false_iff.mpr unclosed)).read_eq.symm.trans made
    rw [takes.read own] at made
    rwa [List.length_append,List.length_singleton]

theorem not_accepted (arrives : Arrives pre outer g) (fault : Fault pre.length outer g cs e) :
    ¬Accepted (pre ++ cs) := by
  rintro ⟨answer,made⟩
  rw [parse_ofList] at made
  cases fault.read_eq.symm.trans (arrives.read_ok made)

/-- An error comes from a fault at a place that reading reaches. -/
theorem exists_fault (arrives : Arrives pre outer g) (closed : Closed outer cs)
    (refused : read pre.length outer g cs = .error e) :
    ∃ before after outer' g', pre ++ cs = before ++ after ∧ Arrives before outer' g' ∧
      Fault before.length outer' g' after e := by
  induction cs generalizing pre outer g with
  | nil =>
    cases outer with
    | nil =>
      obtain rfl := Group.finish_error refused
      exact ⟨pre,[],[],g,rfl,arrives,.ending refused⟩
    | cons x outer => cases closed 0 (Nat.zero_lt_succ _)
  | cons c cs ih =>
    rcases takes_or_fault pre.length outer g c cs with ⟨outer',g',takes,own⟩ | ⟨e',fault⟩
    · have length : (pre ++ [c]).length = pre.length + 1 := List.length_append
      have further := ih (arrives.next takes) (takes.closed_iff.mpr ⟨closed,own⟩) (by rwa [length,← takes.read own])
      rwa [List.append_assoc] at further
    · cases fault.read_eq.symm.trans refused
      exact ⟨pre,c :: cs,outer,g,rfl,arrives,fault⟩

/-- A group in which nothing was read has only blanks after its parenthesis. -/
theorem exists_opening {around : Group} {opened : Nat} (arrives : Arrives pre ((around,opened) :: outer) {}) :
    ∃ before inside, pre = before ++ '(' :: inside ∧ before.length = opened ∧ Arrives before outer around ∧
      ∀ c ∈ inside, Text.isBlank c = true := by
  generalize place : (around,opened) :: outer = groups at arrives
  generalize none : ({} : Group) = g at arrives
  induction arrives with
  | start => cases place
  | @next pre _ _ _ _ c arrives takes ih =>
    subst none
    rcases takes.of_empty with ⟨rfl,same⟩ | ⟨last,rfl,rfl⟩
    · cases place.trans same
      exact ⟨pre,[],rfl,rfl,arrives,nofun⟩
    · obtain ⟨before,inside,rfl,length,around,blank⟩ := ih place rfl
      refine ⟨before,inside ++ [c],by simp,length,around,fun d member => ?_⟩
      rcases List.mem_append.mp member with old | new
      · exact blank d old
      · rw [List.mem_singleton.mp new]
        exact last

end Arrives

theorem Group.exists_finish (some : g.factors ≠ []) (position : Nat) : ∃ r, g.finish position = .ok (.some r) := by
  unfold finish
  split
  · exact absurd ‹_› some
  · exact ⟨_,rfl⟩
  · exact absurd ‹_› some
  · exact ⟨_,rfl⟩

theorem closes_replicate {n k : Nat} (bound : k < n) : closes k (List.replicate n ')') = true := by
  induction n generalizing k with
  | zero => cases bound
  | succ n ih =>
    rw [List.replicate_succ]
    cases k with
    | zero => exact closes_closing_zero rfl _
    | succ k =>
      rw [closes_closing_succ rfl]
      exact ih (Nat.lt_of_succ_lt_succ bound)

/-- Parentheses end the groups when there is something in the innermost. -/
theorem read_replicate (some : g.factors ≠ []) (position : Nat) (outer : List (Group × Nat)) :
    ∃ r, read position outer g (List.replicate outer.length ')') = .ok (.some r) := by
  induction outer generalizing position g with
  | nil => exact g.exists_finish some position
  | cons x outer ih =>
    obtain ⟨r,finished⟩ := g.exists_finish some position
    rw [List.length_cons,List.replicate_succ,Takes.read (.closing rfl finished) fun other => absurd other (by decide)]
    exact ih (List.cons_ne_nil _ _) (position + 1)

/-- Whatever has been read, there is an expression that starts with it. -/
theorem Arrives.completed (arrives : Arrives pre outer g) :
    ∃ rest r, parse (String.ofList (pre ++ rest)) = .ok (some r) := by
  have literal : Takes pre.length 'a' outer g outer (g.push (.char 'a')) := .literal 'a' rfl
  have closed : Closed outer (List.replicate outer.length ')') := fun k bound => closes_replicate bound
  have content : (g.push (.char 'a')).factors ≠ [] := List.cons_ne_nil _ _
  obtain ⟨r,made⟩ := read_replicate content (pre ++ ['a']).length outer
  refine ⟨'a' :: List.replicate outer.length ')',r,?_⟩
  rw [parse_ofList,List.append_cons,(arrives.next literal).read_eq closed]
  exact made

/-- What the position of an error says of the text. -/
def ParseError.Locates (cs : List Char) : ParseError → Prop
  | operatorOnEmptyWord q p => cs[p]? = some q.sign ∧ ∀ rest, ¬Accepted (cs.take (p + 1) ++ rest)
  | strayClosingParenthesis p => cs[p]? = some ')' ∧ ∀ rest, ¬Accepted (cs.take (p + 1) ++ rest)
  | emptyChoiceOperand p =>
    p = cs.length ∧ ¬Accepted cs ∨
      (cs[p]? = some '|' ∨ cs[p]? = some ')') ∧ ∀ rest, ¬Accepted (cs.take (p + 1) ++ rest)
  | unclosedParenthesis p => cs[p]? = some '(' ∧ ∀ inside, ¬ClosedAfter inside (cs.drop (p + 1))
  | emptyParentheses p =>
    cs[p]? = some '(' ∧ ∃ inside, ClosedAfter inside (cs.drop (p + 1)) ∧ ∀ c ∈ inside, Text.isBlank c = true

/-- What comes before the position of an error can be completed. -/
theorem Arrives.completed_before (arrives : Arrives pre outer g) (fault : Fault pre.length outer g cs e) :
    ∃ rest r, parse (String.ofList ((pre ++ cs).take e.position ++ rest)) = .ok (some r) := by
  have here : ∃ rest r, parse (String.ofList ((pre ++ cs).take pre.length ++ rest)) = .ok (some r) := by
    rw [List.take_left]
    exact arrives.completed
  cases fault with
  | @empty outer around g opened c cs token finished =>
    obtain rfl := Group.eq_empty finished
    obtain ⟨before,inside,rfl,rfl,around,_⟩ := arrives.exists_opening
    rw [ParseError.position,List.append_assoc,List.take_left]
    exact around.completed
  | _ => exact here

theorem Arrives.locates (arrives : Arrives pre outer g) (fault : Fault pre.length outer g cs e) :
    e.Locates (pre ++ cs) := by
  have hopeless {c : Char} {cs : List Char} (fault : Fault pre.length outer g (c :: cs) e)
      (token : Token.ofChar c ≠ .opening) (rest : List Char) :
      ¬Accepted ((pre ++ c :: cs).take (pre.length + 1) ++ rest) := by
    have upTo : (pre ++ c :: cs).take (pre.length + 1) ++ rest = pre ++ c :: rest := by
      rw [List.take_length_add_append]
      simp
    rw [upTo]
    exact arrives.not_accepted (fault.any_rest token rest)
  cases fault with
  | operator q token none =>
    obtain rfl := Token.denotes_of_eq token
    exact ⟨by simp,hopeless (.operator q token none) (by simp [token])⟩
  | bar token none =>
    obtain rfl := Token.denotes_of_eq token
    exact .inr ⟨.inl (by simp),hopeless (.bar token none) (by simp [token])⟩
  | closing token wrong =>
    obtain rfl := Token.denotes_of_eq token
    exact .inr ⟨.inr (by simp),hopeless (.closing token wrong) (by simp [token])⟩
  | ending wrong => exact .inl ⟨by simp,arrives.not_accepted (.ending wrong)⟩
  | stray token =>
    obtain rfl := Token.denotes_of_eq token
    exact ⟨by simp,hopeless (.stray token) (by simp [token])⟩
  | @unclosed _ _ _ cs token unclosed =>
    obtain rfl := Token.denotes_of_eq token
    refine ⟨by simp,fun inside closed => ?_⟩
    have ahead : (pre ++ '(' :: cs).drop (pre.length + 1) = cs := by simp
    rw [ahead] at closed
    cases unclosed.symm.trans closed.closes
  | @empty _ _ _ _ _ cs token finished =>
    obtain rfl := Token.denotes_of_eq token
    obtain rfl := Group.eq_empty finished
    obtain ⟨before,inside,rfl,rfl,_,blank⟩ := arrives.exists_opening
    have ahead : (before ++ '(' :: inside ++ ')' :: cs).drop (before.length + 1) = inside ++ ')' :: cs := by simp
    refine ⟨by simp,inside,⟨balanced_of_blank blank,cs,ahead⟩,blank⟩

/-- An error is reported where the text goes wrong. What stands before the position can be completed to an expression.
    An operator or a closing parenthesis at the position cannot be read whatever comes after it; the missing operand of
    a choice is noticed in the same way, or at the end of the text. An opening parenthesis at the position has no
    partner in the text, or only blanks before its partner. -/
theorem parse_error_located {text : String} (refused : parse text = .error e) :
    (∃ rest r, parse (String.ofList (text.toList.take e.position ++ rest)) = .ok (some r)) ∧ e.Locates text.toList := by
  obtain ⟨before,after,outer,g,split,arrives,fault⟩ := Arrives.start.exists_fault (fun _ bound => nomatch bound) refused
  rw [List.nil_append] at split
  rw [split]
  exact ⟨arrives.completed_before fault,arrives.locates fault⟩

/-- The operand that is missing before the inner parenthesis. -/
theorem parse_error_located_operand :
    parse "x(a|)" = .error (.emptyChoiceOperand 4) ∧
    (∃ rest r, parse (String.ofList (['x','(','a','|'] ++ rest)) = .ok (some r)) ∧
    ∀ rest, ¬Accepted (['x','(','a','|',')'] ++ rest) := by
  have refused : parse "x(a|)" = .error (.emptyChoiceOperand 4) := by rfl
  obtain ⟨completed,located⟩ := parse_error_located refused
  refine ⟨refused,completed,?_⟩
  rcases located with ⟨length,_⟩ | ⟨_,hopeless⟩
  · cases length
  · exact hopeless

end StepwiseAutomata.Regex
